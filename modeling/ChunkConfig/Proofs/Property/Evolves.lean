import ChunkConfig.Proofs.Property.Kept

namespace ChunkConfig

namespace Property

variable {α : Type} {P : α → Prop} {p q s : Property α}

/-- The values of a property are of its kind, and as many as its slots when their number is
fixed. -/
structure Typed (p : Property α) : Prop where
  kind_eq : ∀ v ∈ p.values, v.kind = p.schema.kind
  slots : ∀ n, p.schema.count = .fixed n → p.values.length = n

theorem Proper.typed (h : p.Proper) : p.Typed :=
  ⟨h.kind_eq, h.slots⟩

/-- What every operation on a property keeps to: it stays a property of the same schema, its values
stay typed, and nothing is embedded anew that does not have the property `P`. -/
structure Evolves (P : α → Prop) (p q : Property α) : Prop where
  schema_eq : q.schema = p.schema
  typed : p.Typed → q.Typed
  contents : ∀ a ∈ q.contents, a ∈ p.contents ∨ P a

theorem Evolves.refl (p : Property α) : Evolves P p p :=
  ⟨rfl, id, fun _ => .inl⟩

theorem Evolves.trans (h : Evolves P p q) (h' : Evolves P q s) : Evolves P p s where
  schema_eq := h'.schema_eq.trans h.schema_eq
  typed hp := h'.typed (h.typed hp)
  contents a ha := (h'.contents a ha).elim (h.contents a) .inr

/-- An operation may move values and add values of the right kind, as long as it does not change
the number of fixed slots. -/
theorem evolves_of_values (hs : q.schema = p.schema)
    (hl : ∀ n, p.schema.count = .fixed n → q.values.length = p.values.length)
    (hv : ∀ v ∈ q.values, v ∈ p.values ∨
      v.kind = p.schema.kind ∧ ∀ a, v.content? = some a → P a) : Evolves P p q where
  schema_eq := hs
  typed hp := by
    refine ⟨fun v hm => ?_, fun n hn => ?_⟩
    · rw [hs]
      exact (hv v hm).elim (hp.kind_eq v) And.left
    · rw [hs] at hn
      rw [hl n hn, hp.slots n hn]
  contents a ha := by
    obtain ⟨v, hm, hva⟩ := List.mem_filterMap.mp ha
    rcases hv v hm with hm | ⟨-, h⟩
    · exact .inl (List.mem_filterMap.mpr ⟨v, hm, hva⟩)
    · exact .inr (h a hva)

theorem evolves_set {index : Nat} {v : Value α} (hv : ∀ a, v.content? = some a → P a)
    (h : p.set index v = .ok q) : Evolves P p q := by
  obtain ⟨hs, hk, hl, hm⟩ := of_set_eq_ok h
  refine evolves_of_values hs hl fun w hw => ?_
  rcases hm w hw with rfl | hw | rfl
  · exact .inr ⟨hk, hv⟩
  · exact .inl hw
  · exact .inr ⟨Value.kind_empty _, fun a ha => nomatch (Value.content?_empty _).symm.trans ha⟩

theorem evolves_clear (p : Property α) : Evolves P p p.clear := by
  rw [clear]
  split
  · refine evolves_of_values rfl (fun _ _ => List.length_map _) fun w hw => ?_
    obtain ⟨v, -, rfl⟩ := List.mem_map.mp hw
    exact .inr ⟨Value.kind_empty _, fun a ha => nomatch (Value.content?_empty _).symm.trans ha⟩
  · next hc =>
    exact evolves_of_values rfl (fun n hn => nomatch hc.symm.trans hn)
      fun _ hw => absurd hw List.not_mem_nil

theorem evolves_restart (p : Property α) : Evolves P p p.restart := by
  rw [restart]
  split
  · exact .refl p
  · exact evolves_clear p

theorem evolves_storeTokens (p : Property α) (slot : Nat) (tokens : List String) :
    Evolves P p (p.storeTokens slot tokens).property := by
  induction tokens generalizing p slot with
  | nil => exact .refl p
  | cons token rest ih =>
    rw [storeTokens]
    split
    · exact .refl p
    · next v hv =>
      split
      · exact .refl p
      · next q hq =>
        have hnone : ∀ a, v.content? = some a → P a := by
          intro a ha
          rw [Value.content?_of_kind (kind_of_coerce hv).2] at ha
          cases ha
        exact (evolves_set hnone hq).trans (ih q (slot + 1))

end Property

end ChunkConfig
