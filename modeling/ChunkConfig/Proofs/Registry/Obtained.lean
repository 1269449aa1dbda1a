import ChunkConfig.Proofs.Chunk.Formed
import ChunkConfig.Proofs.Registry.Provenance
import ChunkConfig.Proofs.Registry.Reached

namespace ChunkConfig

open Xml (Node)

namespace Registry

variable {r : Registry}

theorem Sound.formed (hr : r.Sound) {c : Chunk} {token : String} (hc : c.Proper)
    (hs : r.schema? token = some c.schema) : c.Formed :=
  hc.formed (hr.schema token c.schema hs).2

theorem Reached.keeps_formed (hr : r.Reached) : r.Keeps (Chunk.Throughout Chunk.Formed) :=
  hr.keeps fun _ hs _ hc => .intro (hs.formed hc.proper hc.bound) hc.embeds

theorem Reached.bears_formed (hr : r.Reached) : r.Bears Chunk.Formed :=
  hr.sound.bears hr.keeps_formed.defaults fun _ _ => hr.sound.formed

end Registry

namespace Chunk

/-- The chunks that there can be: they are made by registries, and after that anyone may change
them. Values that embed a chunk embed one that there can be. -/
inductive Obtained : Chunk → Prop
  | create {r : Registry} (hr : r.Reached) {token : String} {populate : Bool} {c : Chunk}
    (h : r.create token populate = .ok c) : Obtained c
  | default {r : Registry} (hr : r.Reached) {token : String} {c : Chunk}
    (h : r.default? token = some c) : Obtained c
  | build {r : Registry} (hr : r.Reached) {nested populate : Bool} {node : Node} {c : Chunk}
    (h : c ∈ (r.buildChunk nested populate node).value) : Obtained c
  | database {r : Registry} (hr : r.Reached) {populate : Bool} {node : Node} {c : Chunk}
    (h : c ∈ (r.build populate node).value) : Obtained c
  | embedded {c d : Chunk} (hc : Obtained c) (h : c.Embeds d) : Obtained d
  | rename {c : Chunk} (hc : Obtained c) (name : String) : Obtained { c with name }
  | set {c d : Chunk} (hc : Obtained c) {token : String} {index : Nat} {v : Value Chunk}
    {result : Except ModelError Unit} (hv : ∀ e, v.content? = some e → Obtained e)
    (h : c.set? token index v = some (result, d)) : Obtained d
  | setText {c d : Chunk} (hc : Obtained c) {token text : String} {slot : Nat}
    {filled : Property.Filled Chunk} (h : c.setText? token slot text = some (filled, d)) :
    Obtained d
  | clear {c d : Chunk} (hc : Obtained c) {token : String} (h : c.clear? token = some d) :
    Obtained d
  | apply {r : Registry} (hr : r.Reached) {c : Chunk} (hc : Obtained c) (nested : Bool)
    (node : Node) : Obtained (r.applyNode nested c node).value

variable {c : Chunk}

theorem Obtained.comesOf (h : c.Obtained) : c.ComesOf Registry.Reached := by
  induction h with
  | create hr h => exact .given hr (.create h)
  | default hr h => exact .given hr (.default h)
  | build hr h => exact .given hr (.element h)
  | database hr h => exact .given hr (.database h)
  | embedded _ h ih => exact ih.embedded h
  | rename _ name ih => exact ih.rename name
  | set _ _ h ih ihv => exact ih.set ihv h
  | setText _ h ih => exact ih.setText h
  | clear _ h ih => exact ih.clear h
  | apply hr _ nested node ih => exact ih.apply hr nested node

theorem Obtained.formed (h : c.Obtained) : c.Throughout Formed :=
  lasting_formed.of_comesOf (fun _ hr => hr.bears_formed) h.comesOf

/-- Every chunk that there can be is well formed, and so are all chunks below it. -/
theorem throughout_wellFormed_of_obtained (h : c.Obtained) : c.Throughout WellFormed :=
  h.formed.mono fun _ => Formed.wellFormed

/-- A type of crates, which hold two sizes and further crates. The default crate holds a crate. -/
def crateSchema : ChunkSchema :=
  { token := "Crate", givenName := "Crate"
    properties := [{ token := "Size", kind := .int, count := .fixed 2 },
      { token := "inner", kind := .embedded, count := .variable }]
    defaults := some
      ⟨"crate", [⟨"size", "1 2 3"⟩], [.element "INNER" [] [.element "Crate" [] []]]⟩ }

def crateRegistry : Registry :=
  (Registry.empty.register [crateSchema]).value

theorem reached_crateRegistry : crateRegistry.Reached :=
  .register .empty (by decide)

/-- A default crate that was given a third size, which it refuses, and a copy of itself well behind
the crate that it holds. -/
def crate? : Option Chunk := do
  let c ← crateRegistry.default? "CRATE"
  let (_, d) ← c.set? "SIZE" 2 (.int 7)
  let (_, e) ← d.set? "Inner" 3 (.embedded (some c))
  return e

theorem throughout_wellFormed_crate : ∃ c, crate? = some c ∧ c.Throughout WellFormed := by
  have hsome : crate?.isSome = true := by decide +kernel
  obtain ⟨e, he⟩ := Option.isSome_iff_exists.mp hsome
  refine ⟨e, he, throughout_wellFormed_of_obtained ?_⟩
  rw [crate?] at he
  obtain ⟨c, hc, he⟩ := Option.bind_eq_some_iff.mp he
  obtain ⟨⟨_, d⟩, hd, he⟩ := Option.bind_eq_some_iff.mp he
  obtain ⟨⟨_, e'⟩, he', he⟩ := Option.bind_eq_some_iff.mp he
  obtain rfl := Option.some.inj he
  have hobtained := Obtained.default reached_crateRegistry hc
  refine (hobtained.set ?_ hd).set ?_ he'
  · exact nofun
  · rintro a ⟨⟩
    exact hobtained

end Chunk

end ChunkConfig
