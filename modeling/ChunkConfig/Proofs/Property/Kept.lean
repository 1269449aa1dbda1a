import ChunkConfig.Proofs.Property.Slots

namespace ChunkConfig

namespace Property

variable {α : Type}

theorem of_set_eq_ok {p q : Property α} {index : Nat} {v : Value α} (h : p.set index v = .ok q) :
    q.schema = p.schema ∧ v.kind = p.schema.kind ∧
      (∀ n, p.schema.count = .fixed n → q.values.length = p.values.length) ∧
      ∀ w ∈ q.values, w = v ∨ w ∈ p.values ∨ w = .empty p.schema.kind := by
  rw [set] at h
  split at h
  · cases h
  · next hk =>
    have hmem : ∀ w ∈ p.values.set index v, w = v ∨ w ∈ p.values ∨ w = .empty p.schema.kind :=
      fun w hw => (List.mem_or_eq_of_mem_set hw).symm.imp_right .inl
    have hkind : v.kind = p.schema.kind := not_not.mp hk
    split at h
    · split at h
      · cases h
        exact ⟨rfl, hkind, fun _ _ => List.length_set, hmem⟩
      · cases h
    · next hc =>
      split at h
      · cases h
        exact ⟨rfl, hkind, fun _ _ => List.length_set, hmem⟩
      · cases h
        refine ⟨rfl, hkind, fun n hn => SlotCount.noConfusion (hc.symm.trans hn), fun w hw => ?_⟩
        rw [List.mem_append, List.mem_append] at hw
        rcases hw with (hw | hw) | hw
        · exact .inr (.inl hw)
        · exact .inr (.inr (List.eq_of_mem_replicate hw))
        · exact .inl (List.mem_singleton.mp hw)

theorem Proper.not_embedded {p : Property α} (h : p.Proper) (hk : p.schema.kind ≠ .embedded) :
    ∀ v ∈ p.values, v.kind ≠ .embedded :=
  fun v hv => (h.kind_eq v hv).symm ▸ hk

theorem Proper.of_primitive {p : Property α} (hk : p.schema.kind ≠ .embedded)
    (hv : ∀ v ∈ p.values, v.kind = p.schema.kind)
    (hs : ∀ n, p.schema.count = .fixed n → p.values.length = n) : p.Proper :=
  ⟨hv, hs, .of_kind fun v hm => (hv v hm).symm ▸ hk, fun _ he => absurd he hk⟩

theorem Proper.set {p q : Property α} (hp : p.Proper) (hk : p.schema.kind ≠ .embedded) {index : Nat}
    {v : Value α} (h : p.set index v = .ok q) : q.Proper := by
  obtain ⟨hs, hv, hl, hm⟩ := of_set_eq_ok h
  refine .of_primitive (hs ▸ hk) (fun w hw => ?_) fun n hn => ?_
  · rw [hs]
    rcases hm w hw with rfl | hw | rfl
    · exact hv
    · exact hp.kind_eq w hw
    · exact Value.kind_empty _
  · rw [hs] at hn
    rw [hl n hn, hp.slots n hn]

theorem Proper.room_of_set {p q : Property α} (hp : p.Proper) {slot : Nat} {v : Value α}
    (hslot : slot ≤ p.values.length) (h : p.set slot v = .ok q) : p.Room slot 1 := by
  refine ⟨hslot, fun n hn => ⟨hp.slots n hn, ?_⟩⟩
  rw [Property.set] at h
  simp only [hn] at h
  split at h
  · cases h
  · split at h
    · assumption
    · cases h

theorem Proper.storeTokens {p : Property α} (hp : p.Proper) (slot : Nat) (tokens : List String) :
    (p.storeTokens slot tokens).property.Proper := by
  induction tokens generalizing p slot with
  | nil => exact hp
  | cons token rest ih =>
    rw [Property.storeTokens]
    split
    · exact hp
    · next v hv =>
      obtain ⟨hk, hne⟩ := kind_of_coerce hv
      split
      · exact hp
      · next q hq => exact ih (hp.set (hk ▸ hne) hq) (slot + 1)

end Property

end ChunkConfig
