import ChunkConfig.Proofs.Property.Slots

namespace ChunkConfig

open Xml (Node)

namespace SlotCount

variable {α β : Type} {count : SlotCount} {slot : Nat}

/-- As many of the things as there are slots for, from a slot on. -/
def cut (count : SlotCount) (slot : Nat) (as : List α) : List α :=
  match count with
  | .fixed n => as.take (n - slot)
  | .variable => as

@[simp]
theorem cut_nil : count.cut slot ([] : List α) = [] := by
  cases count with
  | fixed n => exact List.take_nil
  | «variable» => rfl

theorem cut_map (f : α → β) (as : List α) :
    count.cut slot (as.map f) = (count.cut slot as).map f := by
  cases count with
  | fixed n => exact List.map_take.symm
  | «variable» => rfl

theorem cut_append (as bs : List α) : count.cut slot (as ++ bs) =
    count.cut slot as ++ count.cut (slot + (count.cut slot as).length) bs := by
  cases count with
  | fixed n =>
    simp only [cut, List.take_append, List.length_take]
    congr 2
    omega
  | «variable» => rfl

end SlotCount

namespace Property

variable {α : Type} {p : Property α} {slot count : Nat}

theorem Room.cut (h : p.Room slot 0) (vs : List (Value α)) :
    p.Room slot (p.schema.count.cut slot vs).length := by
  refine ⟨h.reached, fun n hn => ⟨(h.fits n hn).1, ?_⟩⟩
  have hle := (h.fits n hn).2
  rw [hn, SlotCount.cut, List.length_take]
  omega

theorem schema_overlay (p : Property α) (slot : Nat) (vs : List (Value α)) :
    (p.overlay slot vs).schema = p.schema := rfl

theorem Room.cut_cons (h : p.Room slot 1) (v : Value α) (vs : List (Value α)) :
    p.schema.count.cut slot (v :: vs) = v :: p.schema.count.cut (slot + 1) vs := by
  cases hc : p.schema.count with
  | fixed n =>
    have hlt := (h.fits n hc).2
    rw [SlotCount.cut, SlotCount.cut, show n - slot = n - (slot + 1) + 1 by omega,
      List.take_succ_cons]
  | «variable» => rfl

theorem Room.set_eq_error (h : p.Room slot 0) (h₁ : ¬ p.Room slot 1) {v : Value α}
    (hk : v.kind = p.schema.kind) : ∃ n, p.schema.count = .fixed n ∧ n ≤ slot ∧
      p.set slot v = .error (.indexOutOfRange p.schema.token slot n) := by
  apply exists_set_eq_error hk
  intro hs
  exact h₁ ⟨h.reached, fun n hn => ⟨(h.fits n hn).1, hs n hn⟩⟩

end Property

/-- The values of tokens, up to the first token that stands for none. -/
def PropertySchema.valuesOf {α : Type} (p : PropertySchema) : List String → List (Value α)
  | [] => []
  | token :: rest =>
    match (Property.ofSchema p).coerce token with
    | .ok v => v :: p.valuesOf rest
    | .error _ => []

namespace Property

variable {α : Type} {p : Property α} {slot : Nat}

/-- Tokens are stored up to the first one that stands for no value, or has no slot left. -/
theorem storeTokens_cut (h : p.Room slot 0) (tokens : List String) :
    (p.storeTokens slot tokens).property =
        p.overlay slot (p.schema.count.cut slot (p.schema.valuesOf tokens)) ∧
      (p.storeTokens slot tokens).next =
        slot + (p.schema.count.cut slot (p.schema.valuesOf (α := α) tokens)).length := by
  induction tokens generalizing p slot with
  | nil =>
    rw [PropertySchema.valuesOf, SlotCount.cut_nil, overlay_nil]
    exact ⟨rfl, rfl⟩
  | cons token rest ih =>
    have hc : (ofSchema p.schema).coerce token = p.coerce token :=
      coerce_congr (schema_ofSchema p.schema) token
    rw [storeTokens, PropertySchema.valuesOf, hc]
    cases hv : p.coerce token with
    | error problem =>
      rw [SlotCount.cut_nil, overlay_nil]
      exact ⟨rfl, rfl⟩
    | ok v =>
      have hk := (kind_of_coerce hv).1
      by_cases h₁ : p.Room slot 1
      · obtain ⟨hp, hn⟩ := ih (p := p.overlay slot [v]) (h₁.overlay v)
        rw [schema_overlay] at hp hn
        simp only [set_eq_ok h₁ hk]
        rw [hp, hn, h₁.cut_cons, overlay_singleton_overlay h.reached, List.length_cons]
        exact ⟨rfl, by omega⟩
      · obtain ⟨n, hn, hle, he⟩ := h.set_eq_error h₁ hk
        have hcut : p.schema.count.cut slot (v :: p.schema.valuesOf rest) = [] := by
          rw [hn, SlotCount.cut, Nat.sub_eq_zero_of_le hle, List.take_zero]
        simp only [he, hcut, overlay_nil, List.length_nil, Nat.add_zero, and_self]

end Property

namespace Chunk

variable {p : Property Chunk} {slot : Nat}

/-- The values that a node among the children of a property element gives. -/
def textValues (p : PropertySchema) : Node → List (Value Chunk)
  | .text content => p.valuesOf (Text.tokens content)
  | _ => []

theorem fillContent_cut (h : p.Room slot 0) (element : String) (nodes : List Node) :
    (fillContent p slot element nodes).value =
      p.overlay slot (p.schema.count.cut slot (nodes.flatMap (textValues p.schema))) := by
  induction nodes generalizing p slot with
  | nil =>
    rw [List.flatMap_nil, SlotCount.cut_nil, Property.overlay_nil]
    rfl
  | cons node rest ih =>
    rw [List.flatMap_cons]
    cases node with
    | text content =>
      obtain ⟨hp, hn⟩ := Property.storeTokens_cut h (Text.tokens content)
      have hroom : Property.Room (p.overlay slot _) (slot + _) 0 :=
        (h.cut (p.schema.valuesOf (Text.tokens content))).overlay_append
      rw [SlotCount.cut_append, ← Property.overlay_overlay h.reached]
      have hi := ih hroom
      rw [fillContent]
      simp only [Property.fill]
      rw [hp, hn]
      exact hi
    | _ => exact ih h

theorem storeChunks_cut (h : p.Room slot 0) (hk : p.schema.kind = .embedded) (cs : List Chunk) :
    (storeChunks p slot cs).value =
      p.overlay slot (p.schema.count.cut slot (cs.map fun c => .embedded (some c))) := by
  induction cs generalizing p slot with
  | nil =>
    rw [List.map_nil, SlotCount.cut_nil, Property.overlay_nil]
    rfl
  | cons c rest ih =>
    have hv : (Value.embedded (some c)).kind = p.schema.kind := hk.symm
    rw [storeChunks, List.map_cons]
    by_cases h₁ : p.Room slot 1
    · have hi := ih (p := p.overlay slot [.embedded (some c)]) (h₁.overlay _) hk
      rw [Property.overlay_singleton_overlay h.reached, Property.schema_overlay] at hi
      rw [Property.set_eq_ok h₁ hv, h₁.cut_cons]
      exact hi
    · obtain ⟨n, hn, hle, he⟩ := h.set_eq_error h₁ hv
      rw [he, hn, SlotCount.cut, Nat.sub_eq_zero_of_le hle, List.take_zero, Property.overlay_nil]

end Chunk

end ChunkConfig
