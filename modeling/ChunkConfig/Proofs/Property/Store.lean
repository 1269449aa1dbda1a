import ChunkConfig.Building
import Mathlib.Data.List.Forall2

namespace ChunkConfig

/-- Whether a property has a slot at an index. One of variable count has them all. -/
def SlotCount.Includes (count : SlotCount) (slot : Nat) : Prop :=
  ∀ n, count = .fixed n → slot < n

namespace Property

variable {α : Type}

theorem coerce_congr {p q : Property α} (h : p.schema = q.schema) (token : String) :
    p.coerce token = q.coerce token := by
  rw [coerce, coerce, h]

/-- Tokens stand for values without chunks in them. -/
theorem kind_of_coerce {p : Property α} {token : String} {v : Value α}
    (h : p.coerce token = .ok v) : v.kind = p.schema.kind ∧ v.kind ≠ .embedded := by
  rw [coerce] at h
  split at h
  · next hk =>
    cases h
    exact ⟨hk.symm, nofun⟩
  · cases h
  all_goals
    next hk =>
    rw [PropertySchema.resolve] at h
    cases hr : Value.read (α := α) p.schema.kind (p.schema.literal token) with
    | error e =>
      rw [hr] at h
      cases h
    | ok w =>
      rw [hr] at h
      cases h
      rw [Value.kind_of_read hr, hk]
      exact ⟨rfl, nofun⟩

theorem exists_set_eq_ok {p : Property α} {slot : Nat} {v : Value α}
    (hk : v.kind = p.schema.kind) (hs : p.schema.count.Includes slot) :
    ∃ q, p.set slot v = .ok q := by
  rw [set, if_neg (not_not.mpr hk)]
  split
  · next n hn =>
    rw [if_pos (hs n hn)]
    exact ⟨_, rfl⟩
  · split
    · exact ⟨_, rfl⟩
    · exact ⟨_, rfl⟩

theorem exists_set_eq_error {p : Property α} {slot : Nat} {v : Value α}
    (hk : v.kind = p.schema.kind) (hs : ¬ p.schema.count.Includes slot) :
    ∃ n, p.schema.count = .fixed n ∧ n ≤ slot ∧
      p.set slot v = .error (.indexOutOfRange p.schema.token slot n) := by
  cases hc : p.schema.count with
  | fixed n =>
    have hle : n ≤ slot := by
      by_contra hlt
      apply hs
      intro m hm
      obtain rfl := SlotCount.fixed.inj (hc.symm.trans hm)
      exact Nat.not_le.mp hlt
    refine ⟨n, rfl, hle, ?_⟩
    rw [set, if_neg (not_not.mpr hk)]
    simp only [hc]
    rw [if_neg (Nat.not_lt.mpr hle)]
  | «variable» => exact absurd (fun n hn => SlotCount.noConfusion (hc.symm.trans hn)) hs

/-- The slots of a property with values laid over those from a slot on. -/
def overlay (p : Property α) (slot : Nat) (vs : List (Value α)) : Property α :=
  { p with values := p.values.take slot ++ vs ++ p.values.drop (slot + vs.length) }

/-- Whether a property takes a number of values from a slot on without leaving slots out. -/
structure Room (p : Property α) (slot count : Nat) : Prop where
  reached : slot ≤ p.values.length
  fits : ∀ n, p.schema.count = .fixed n → p.values.length = n ∧ slot + count ≤ n

theorem overlay_nil (p : Property α) (slot : Nat) : p.overlay slot [] = p := by
  rw [overlay, List.append_nil, List.length_nil, Nat.add_zero, List.take_append_drop]

theorem overlay_overlay {p : Property α} {slot : Nat} (h : slot ≤ p.values.length)
    (vs ws : List (Value α)) :
    (p.overlay slot vs).overlay (slot + vs.length) ws = p.overlay slot (vs ++ ws) := by
  have hl : (p.values.take slot ++ vs).length = slot + vs.length := by
    rw [List.length_append, List.length_take_of_le h]
  have hd : (p.values.take slot ++ vs ++ p.values.drop (slot + vs.length)).drop
      (slot + vs.length + ws.length) = p.values.drop (slot + (vs.length + ws.length)) := by
    rw [← List.drop_drop, List.drop_left' hl, List.drop_drop, Nat.add_assoc]
  apply congrArg (Property.mk p.schema)
  rw [overlay, List.take_left' hl, hd, List.length_append, List.append_assoc (p.values.take slot)]

theorem Room.overlay_append {p : Property α} {slot count : Nat} {vs : List (Value α)}
    (h : p.Room slot (vs.length + count)) :
    (p.overlay slot vs).Room (slot + vs.length) count := by
  have hl : (p.overlay slot vs).values.length =
      slot + vs.length + (p.values.length - (slot + vs.length)) := by
    rw [Property.overlay, List.length_append, List.length_append, List.length_take_of_le h.reached,
      List.length_drop]
  refine ⟨by omega, fun n hn => ?_⟩
  have := h.fits n hn
  omega

theorem overlay_singleton_overlay {p : Property α} {slot : Nat} (h : slot ≤ p.values.length)
    (v : Value α) (vs : List (Value α)) :
    (p.overlay slot [v]).overlay (slot + 1) vs = p.overlay slot (v :: vs) :=
  overlay_overlay h [v] vs

theorem Room.overlay {p : Property α} {slot count : Nat} (h : p.Room slot (count + 1))
    (v : Value α) : (p.overlay slot [v]).Room (slot + 1) count :=
  Room.overlay_append (Nat.add_comm count 1 ▸ h)

theorem set_eq_ok {p : Property α} {slot : Nat} (h : p.Room slot 1) {v : Value α}
    (hk : v.kind = p.schema.kind) : p.set slot v = .ok (p.overlay slot [v]) := by
  have hset : slot < p.values.length →
      { p with values := p.values.set slot v } = p.overlay slot [v] := by
    intro hlt
    rw [overlay, List.set_eq_take_append_cons_drop, if_pos hlt, List.append_assoc]
    rfl
  rw [set]
  rw [if_neg (not_not.mpr hk)]
  split
  · next n hn =>
    obtain ⟨hl, hle⟩ := h.fits n hn
    rw [if_pos (by omega), hset (by omega)]
  · split
    · next hlt => rw [hset hlt]
    · next hlt =>
      have hl : slot = p.values.length := Nat.le_antisymm h.reached (Nat.not_lt.mp hlt)
      subst hl
      rw [overlay, Nat.sub_self, List.take_length, List.drop_eq_nil_of_le (Nat.le_add_right _ _)]
      simp only [List.replicate_zero, List.append_nil]

theorem Room.head {p : Property α} {slot count : Nat} (h : p.Room slot (count + 1)) :
    p.Room slot 1 :=
  ⟨h.reached, fun n hn => ⟨(h.fits n hn).1, by have := (h.fits n hn).2; omega⟩⟩

/-- Tokens that stand for values are all stored where there is room for them. -/
theorem storeTokens_eq {p : Property α} {slot : Nat} {tokens : List String} {vs : List (Value α)}
    (hv : List.Forall₂ (fun token v => p.coerce token = .ok v) tokens vs)
    (hr : p.Room slot vs.length) :
    p.storeTokens slot tokens = ⟨p.overlay slot vs, slot + vs.length, none⟩ := by
  induction tokens generalizing p slot vs with
  | nil =>
    cases hv
    rw [storeTokens, overlay_nil, List.length_nil, Nat.add_zero]
  | cons token rest ih =>
    cases hv with
    | @cons _ v _ vs h hs =>
      have hi := ih (p := p.overlay slot [v]) hs (hr.overlay v)
      rw [overlay_singleton_overlay hr.reached] at hi
      rw [storeTokens, h]
      simp only [set_eq_ok hr.head (kind_of_coerce h).1]
      rw [hi, List.length_cons, Nat.add_assoc, Nat.add_comm 1]

end Property

theorem Chunk.storeChunks_eq {p : Property Chunk} {slot : Nat} {cs : List Chunk}
    (hk : p.schema.kind = .embedded) (hr : p.Room slot cs.length) :
    storeChunks p slot cs = pure (p.overlay slot (cs.map fun c => .embedded (some c))) := by
  induction cs generalizing p slot with
  | nil => rw [storeChunks, List.map_nil, Property.overlay_nil]
  | cons c rest ih =>
    have hi := ih (p := p.overlay slot [.embedded (some c)]) hk (hr.overlay _)
    rw [Property.overlay_singleton_overlay hr.reached] at hi
    have hs := Property.set_eq_ok hr.head (v := .embedded (some c)) hk.symm
    rw [storeChunks, hs]
    exact hi

namespace Property

variable {α : Type}

theorem schema_restart (p : Property α) : p.restart.schema = p.schema := by
  unfold restart clear
  split <;> rfl

theorem restart_of_fixed {p : Property α} {n : Nat} (h : p.schema.count = .fixed n) :
    p.restart = p := by
  rw [restart, h]

theorem restart_of_variable {p : Property α} (h : p.schema.count = .variable) :
    p.restart = { p with values := [] } := by
  unfold restart clear
  rw [h]

theorem room_restart {p : Property α} {count : Nat}
    (h : ∀ n, p.schema.count = .fixed n → p.values.length = n ∧ count ≤ n) :
    p.restart.Room 0 count := by
  refine ⟨Nat.zero_le _, fun n hn => ?_⟩
  rw [schema_restart] at hn
  rw [restart_of_fixed hn, Nat.zero_add]
  exact h n hn

theorem overlay_zero (p : Property α) (vs : List (Value α)) :
    p.overlay 0 vs = { p with values := vs ++ p.values.drop vs.length } := by
  rw [overlay, List.take_zero, List.nil_append, Nat.zero_add]

end Property

end ChunkConfig
