import ChunkConfig.Building

namespace ChunkConfig

open Xml (Node)

namespace Reported

variable {α β : Type} {x : Reported α} {f g : α → Reported β}

/-- No chunk was given up because its type is unknown. -/
def Known (x : Reported α) : Prop :=
  ∀ p ∈ x.problems, p.code ≠ .unknownChunkType

theorem known_bind_iff : (x >>= f).Known ↔ x.Known ∧ (f x.value).Known :=
  List.forall_mem_append

theorem bind_eq_bind (h : f x.value = g x.value) : x >>= f = x >>= g := by
  apply ext
  · rw [value_bind, value_bind, h]
  · rw [problems_bind, problems_bind, h]

end Reported

namespace Registry

variable {r r' : Registry} {nested : Bool}

/-- One registry extends another when it creates every chunk that the other one creates, in the
same way. -/
def Extends (r r' : Registry) : Prop :=
  ∀ token populate c, r.create token populate = .ok c → r'.create token populate = .ok c

mutual

/-- Where no type is unknown, an extended registry builds the same chunks and meets the same
problems. -/
theorem Extends.buildChunk (h : r.Extends r') : (node : Node) → ∀ populate,
    (r.buildChunk nested populate node).Known →
      r'.buildChunk nested populate node = r.buildChunk nested populate node
  | .document [], _, _ | .fragment [], _, _ => by rw [Registry.buildChunk, Registry.buildChunk]
  | .document (child :: _), populate, hk | .fragment (child :: _), populate, hk => by
    rw [Registry.buildChunk] at hk
    rw [Registry.buildChunk, Registry.buildChunk, h.buildChunk child populate hk]
  | .element name as cs, populate, hk => by
    rw [Registry.buildChunk] at hk
    rw [Registry.buildChunk, Registry.buildChunk]
    cases hc : r.create name populate with
    | error e =>
      rw [hc] at hk
      exact absurd rfl (hk (.unknownChunkType e) (.head _))
    | ok c =>
      rw [hc] at hk
      rw [h name populate c hc]
      obtain ⟨-, hk⟩ := Reported.known_bind_iff.mp hk
      obtain ⟨hk, -⟩ := Reported.known_bind_iff.mp hk
      exact Reported.bind_eq_bind (congrArg (· >>= _) (h.applyAll cs _ hk))
  | .attr _, _, _ | .text _, _, _ | .comment _, _, _ | .instruction .., _, _
  | .notationName _, _, _ | .other _, _, _ => rfl

theorem Extends.applyAll (h : r.Extends r') : (nodes : List Node) → ∀ c,
    (r.applyAll nested c nodes).Known → r'.applyAll nested c nodes = r.applyAll nested c nodes
  | [], c, _ => by rw [Registry.applyAll, Registry.applyAll]
  | child :: rest, c, hk => by
    rw [Registry.applyAll] at hk
    obtain ⟨hchild, hrest⟩ := Reported.known_bind_iff.mp hk
    rw [Registry.applyAll, Registry.applyAll, h.applyNode child c hchild]
    exact Reported.bind_eq_bind (h.applyAll rest _ hrest)

theorem Extends.applyNode (h : r.Extends r') : (node : Node) → ∀ c,
    (r.applyNode nested c node).Known → r'.applyNode nested c node = r.applyNode nested c node
  | .element name as cs, c, hk => by
    rw [Registry.applyNode] at hk
    rw [Registry.applyNode, Registry.applyNode]
    split
    · next s p hs hp =>
      rw [hs, hp] at hk
      split
      · next he =>
        simp only [he, if_true] at hk
        rw [h.buildAll cs (Reported.known_bind_iff.mp hk).1]
      · rfl
    · rfl
  | .document _, _, _ | .fragment _, _, _ | .attr _, _, _ | .text _, _, _ | .comment _, _, _
  | .instruction .., _, _ | .notationName _, _, _ | .other _, _, _ => rfl

theorem Extends.buildAll (h : r.Extends r') : (nodes : List Node) →
    (r.buildAll nested nodes).Known → r'.buildAll nested nodes = r.buildAll nested nodes
  | [], _ => by rw [Registry.buildAll, Registry.buildAll]
  | child :: rest, hk => by
    rw [Registry.buildAll] at hk
    obtain ⟨hchild, hk⟩ := Reported.known_bind_iff.mp hk
    rw [Registry.buildAll, Registry.buildAll, h.buildChunk child nested hchild,
      h.buildAll rest (Reported.known_bind_iff.mp hk).1]

end

theorem Extends.buildElements (h : r.Extends r') {populate : Bool} {nodes : List Node}
    (hk : (r.buildElements populate nodes).Known) :
    r'.buildElements populate nodes = r.buildElements populate nodes := by
  induction nodes with
  | nil => rfl
  | cons node rest ih =>
    cases node with
    | element name as cs =>
      rw [Registry.buildElements] at hk
      obtain ⟨hchild, hk⟩ := Reported.known_bind_iff.mp hk
      rw [Registry.buildElements, Registry.buildElements, h.buildChunk _ populate hchild,
        ih (Reported.known_bind_iff.mp hk).1]
    | _ => exact ih hk

mutual

theorem Extends.build (h : r.Extends r') {populate : Bool} : (node : Node) →
    (r.build populate node).Known → r'.build populate node = r.build populate node
  | .document cs, hk | .fragment cs, hk => by
    rw [Registry.build] at hk
    rw [Registry.build, Registry.build, h.buildEach cs hk]
  | .element name as cs, hk => by
    rw [Registry.build] at hk
    rw [Registry.build, Registry.build]
    split
    · next hn =>
      rw [if_pos hn] at hk
      exact h.buildElements hk
    · rfl
  | .attr _, _ | .text _, _ | .comment _, _ | .instruction .., _ | .notationName _, _
  | .other _, _ => rfl

theorem Extends.buildEach (h : r.Extends r') {populate : Bool} : (nodes : List Node) →
    (r.buildEach populate nodes).Known → r'.buildEach populate nodes = r.buildEach populate nodes
  | [], _ => by rw [Registry.buildEach, Registry.buildEach]
  | child :: rest, hk => by
    rw [Registry.buildEach] at hk
    obtain ⟨hchild, hk⟩ := Reported.known_bind_iff.mp hk
    rw [Registry.buildEach, Registry.buildEach, h.build child hchild,
      h.buildEach rest (Reported.known_bind_iff.mp hk).1]

end

end Registry

end ChunkConfig
