import ChunkConfig.Proofs.Building.Built
import ChunkConfig.Proofs.Chunk.Lasting

namespace ChunkConfig

open Xml (Node)

namespace Registry

/-- The chunks that a registry gives: new ones, default ones and those that it reads. -/
inductive Gives (r : Registry) : Chunk → Prop
  | create {token : String} {populate : Bool} {c : Chunk} (h : r.create token populate = .ok c) :
    Gives r c
  | default {token : String} {c : Chunk} (h : r.default? token = some c) : Gives r c
  | element {nested populate : Bool} {node : Node} {c : Chunk}
    (h : c ∈ (r.buildChunk nested populate node).value) : Gives r c
  | database {populate : Bool} {node : Node} {c : Chunk} (h : c ∈ (r.build populate node).value) :
    Gives r c

/-- Whether the chunks that a registry makes or keeps have a property, at every depth. -/
structure Bears (r : Registry) (P : Chunk → Prop) : Prop where
  create : ∀ populate token c, r.create token populate = .ok c → c.Throughout P
  default : ∀ token d, r.default? token = some d → d.Throughout P

variable {r : Registry} {P Q : Chunk → Prop}

theorem Bears.mono (hr : r.Bears P) (h : ∀ c, P c → Q c) : r.Bears Q :=
  ⟨fun populate token c hc => (hr.create populate token c hc).mono h,
    fun token d hd => (hr.default token d hd).mono h⟩

/-- A registry bears what proper chunks of registered types have, once the chunks below its default
chunks have it. -/
theorem Sound.bears (hr : r.Sound)
    (hbelow : ∀ token d, r.default? token = some d → ∀ e, d.Embeds e → e.Throughout P)
    (h : ∀ c token, c.Proper → r.schema? token = some c.schema → P c) : r.Bears P where
  create _ _ c hc := by
    have hbuilt := built_create hr hbelow hc
    exact .intro (h c _ hbuilt.proper hbuilt.bound) hbuilt.embeds
  default token d hd := by
    obtain ⟨hs, hproper⟩ := hr.default token d hd
    exact .intro (h d token hproper hs) (hbelow token d hd)

theorem Bears.of_gives (hr : r.Bears P) (h : Chunk.Lasting P) {c : Chunk} (hc : r.Gives c) :
    c.Throughout P := by
  cases hc with
  | create hc => exact hr.create _ _ c hc
  | default hc => exact hr.default _ c hc
  | element hc => exact (h.maintains hr.create _).buildChunk _ _ c hc
  | database hc => exact (h.maintains hr.create _).build _ c hc

end Registry

namespace Chunk

/-- The chunks that come of registries of some kind: what these give, what is embedded in it, and
what anyone makes of it who puts no chunk of another registry in. -/
inductive ComesOf (R : Registry → Prop) : Chunk → Prop
  | given {r : Registry} {c : Chunk} (hr : R r) (h : r.Gives c) : ComesOf R c
  | embedded {c d : Chunk} (hc : ComesOf R c) (h : c.Embeds d) : ComesOf R d
  | rename {c : Chunk} (hc : ComesOf R c) (name : String) : ComesOf R { c with name }
  | set {c d : Chunk} (hc : ComesOf R c) {token : String} {index : Nat} {v : Value Chunk}
    {result : Except ModelError Unit} (hv : ∀ e, v.content? = some e → ComesOf R e)
    (h : c.set? token index v = some (result, d)) : ComesOf R d
  | setText {c d : Chunk} (hc : ComesOf R c) {token text : String} {slot : Nat}
    {filled : Property.Filled Chunk} (h : c.setText? token slot text = some (filled, d)) :
    ComesOf R d
  | clear {c d : Chunk} (hc : ComesOf R c) {token : String} (h : c.clear? token = some d) :
    ComesOf R d
  | apply {r : Registry} {c : Chunk} (hr : R r) (hc : ComesOf R c) (nested : Bool) (node : Node) :
    ComesOf R (r.applyNode nested c node).value

/-- What lasts, and what registries of some kind bear, holds of all that comes of them. -/
theorem Lasting.of_comesOf {P : Chunk → Prop} (h : Lasting P) {R : Registry → Prop}
    (hR : ∀ r, R r → r.Bears P) {c : Chunk} (hc : c.ComesOf R) : c.Throughout P := by
  induction hc with
  | given hr hc => exact (hR _ hr).of_gives h hc
  | embedded _ hd ih => exact ih.embedded hd
  | rename _ name ih => exact h.rename ih name
  | set _ _ hd ih ihv => exact h.edit ih (edited_set ihv hd)
  | setText _ hd ih => exact h.edit ih (edited_setText hd)
  | clear _ hd ih => exact h.edit ih (edited_clear hd)
  | apply hr _ nested node ih =>
    -- What is maintained does not depend on whether the chunk was populated.
    exact @Registry.Maintains.applyNode _ _ _ _ (h.maintains (hR _ hr).create nested) false node _
      ih

end Chunk

end ChunkConfig
