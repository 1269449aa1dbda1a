import ChunkConfig.Proofs.Building.Invariant
import ChunkConfig.Proofs.Chunk.Written
import ChunkConfig.Proofs.Property.Effect
import ChunkConfig.Proofs.Text.Quoted

namespace ChunkConfig

open Xml (Node)

variable {α : Type}

theorem Value.isSome_token?_empty {k : ValueKind} (hk : k ≠ .embedded) :
    (empty k : Value α).token?.isSome = true := by
  cases k with
  | embedded => exact absurd rfl hk
  | string | chunk => exact (by decide : (Text.quote? "").isSome = true)
  | _ => rfl

theorem Value.isSome_token?_of_literal? {k : ValueKind} {text : String} {v : Value α}
    (h : literal? k text = some v)
    (hq : k = .string ∨ k = .chunk → (Text.quote? text).isSome = true) :
    v.token?.isSome = true := by
  cases k with
  | int | float | bool =>
    rw [literal?, Option.map_eq_some_iff] at h
    obtain ⟨a, -, rfl⟩ := h
    rfl
  | string =>
    cases h
    exact hq (.inl rfl)
  | chunk =>
    cases h
    exact hq (.inr rfl)
  | embedded => cases h

namespace PropertySchema

variable {s : PropertySchema} {token : String} {v : Value α}

/-- Whether every text that an alias of a string property stands for can be a token. -/
def Quotable (s : PropertySchema) : Prop :=
  s.kind = .string → ∀ a ∈ s.aliases, (Text.quote? a.literal).isSome = true

theorem quotable_of_aliases (h : s.aliases = []) : s.Quotable := by
  intro _ a ha
  rw [h] at ha
  cases ha

theorem Quotable.isSome_quote?_literal (hs : s.Quotable) (hk : s.kind = .string)
    (ht : (Text.quote? token).isSome = true) :
    (Text.quote? (s.literal token)).isSome = true := by
  rw [literal]
  cases ha : s.aliases.find? (·.label = token) with
  | none => exact ht
  | some a => exact hs hk a (List.mem_of_find?_eq_some ha)

theorem Quotable.isSome_token?_of_meaning? (hs : s.Quotable)
    (ht : (Text.quote? token).isSome = true) (h : s.meaning? token = some v) :
    v.token?.isSome = true := by
  rw [meaning?] at h
  split at h
  · cases h
    exact ht
  · next hc =>
    exact Value.isSome_token?_of_literal? h fun hk =>
      hs.isSome_quote?_literal (hk.resolve_right hc) ht

end PropertySchema

namespace Property

/-- Every value that text stores has a token, and so has every empty one that comes before it in a
slot that was not there. -/
theorem isSome_token?_of_fill {p : Property α} (hp : p.Typed) (hs : p.schema.aliases = [])
    (slot : Nat) (text : String) {i : Nat} {v : Value α}
    (hi : slot ≤ i ∧ i < (p.fill slot text).next ∨ p.values.length ≤ i)
    (hv : (p.fill slot text).property.values[i]? = some v) : v.token?.isSome = true := by
  obtain ⟨vs, h⟩ := exists_effect hp slot (Text.tokens text)
  rw [fill] at hi hv
  rw [h.values] at hv
  rw [h.next_eq] at hi
  split at hv
  · obtain ⟨token, ht, hm⟩ := h.storable.exists_token (List.mem_of_getElem? hv)
    exact (PropertySchema.quotable_of_aliases hs).isSome_token?_of_meaning?
      ((Text.isSome_quote?_iff token).mpr ⟨text, ht⟩) hm
  · next hin =>
    split at hv
    · next hgap =>
      obtain rfl := Option.some.inj hv
      exact Value.isSome_token?_empty fun hk => hgap.1 (h.primitive hk)
    · have hlt := (List.getElem?_eq_some_iff.mp hv).1
      exact absurd (hi.resolve_right (Nat.not_le.mpr hlt)) hin

variable {p q : Property Chunk} {slot : Nat}

theorem written_of_empty {k : ValueKind} (h : ∀ v ∈ p.values, v = .empty k) : p.Written := by
  intro v hv hk
  obtain rfl := h v hv
  exact Value.isSome_token?_empty (Value.kind_empty k ▸ hk)

theorem written_ofSchema (s : PropertySchema) : (ofSchema s : Property Chunk).Written := by
  rw [ofSchema]
  split
  · exact written_of_empty fun v hv => List.eq_of_mem_replicate hv
  · exact fun v hv => absurd hv List.not_mem_nil

theorem written_clear (p : Property Chunk) : p.clear.Written := by
  rw [clear]
  split
  · apply written_of_empty (k := p.schema.kind)
    intro v hv
    obtain ⟨w, -, rfl⟩ := List.mem_map.mp hv
    rfl
  · exact fun v hv => absurd hv List.not_mem_nil

theorem Written.restart (h : p.Written) : p.restart.Written := by
  rw [Property.restart]
  split
  · exact h
  · exact written_clear p

theorem Written.set {v : Value Chunk} (h : p.Written) (hv : v.token?.isSome = true)
    (hq : p.set slot v = .ok q) : q.Written := by
  obtain ⟨-, -, -, hm⟩ := of_set_eq_ok hq
  intro w hw hk
  rcases hm w hw with rfl | hw | rfl
  · exact hv
  · exact h w hw hk
  · exact Value.isSome_token?_empty (Value.kind_empty p.schema.kind ▸ hk)

theorem Written.storeTokens (h : p.Written) (hs : p.schema.Quotable) (slot : Nat)
    {tokens : List String} (ht : ∀ t ∈ tokens, (Text.quote? t).isSome = true) :
    (p.storeTokens slot tokens).property.Written := by
  induction tokens generalizing p slot with
  | nil => exact h
  | cons token rest ih =>
    rw [Property.storeTokens]
    split
    · exact h
    · next v hv =>
      split
      · exact h
      · next q hq =>
        have hw := h.set (hs.isSome_token?_of_meaning? (ht _ (.head _)) (meaning?_of_coerce hv)) hq
        exact ih hw ((of_set_eq_ok hq).1 ▸ hs) (slot + 1) fun t hm => ht t (.tail _ hm)

theorem Written.fill (h : p.Written) (hs : p.schema.Quotable) (slot : Nat) (text : String) :
    (p.fill slot text).property.Written :=
  h.storeTokens hs slot fun t ht => (Text.isSome_quote?_iff t).mpr ⟨text, ht⟩

end Property

namespace Chunk

variable {p q : Property Chunk} {P : Chunk → Prop}

theorem written_fillContent (h : p.Written) (hs : p.schema.Quotable) (slot : Nat)
    (element : String) (nodes : List Node) : (fillContent p slot element nodes).value.Written := by
  induction nodes generalizing p slot with
  | nil => exact h
  | cons node rest ih =>
    cases node with
    | text content =>
      have he := Property.evolves_storeTokens (P := fun _ => True) p slot (Text.tokens content)
      exact ih (h.fill hs slot content) (he.schema_eq.symm ▸ hs) _
    | _ => exact ih h hs slot

/-- Whatever building makes of a property, its values have a written form when they had one. -/
theorem Filling.written (hq : Filling P p.schema p q) (hp : p.Typed) (hs : p.schema.Quotable)
    (h : p.Written) : q.Written := by
  have hrestart : p.restart.schema.Quotable := p.schema_restart.symm ▸ hs
  have hkind := (hq.evolves.typed hp).kind_eq
  cases hq with
  | text hstart text =>
    rcases hstart with rfl | rfl
    · exact h.fill hs 0 text
    · exact h.restart.fill hrestart 0 text
  | content element nodes => exact written_fillContent h.restart hrestart 0 element nodes
  | chunks hk hcs =>
    intro v hv hne
    rw [hkind v hv, (evolves_storeChunks _ 0 hcs).schema_eq, p.schema_restart] at hne
    exact absurd hk hne

end Chunk

end ChunkConfig
