import ChunkConfig.TokenMap
import Mathlib.Data.String.Basic
import Mathlib.Data.List.Pairwise

namespace ChunkConfig

theorem Text.toLower_toLower (c : Char) : c.toLower.toLower = c.toLower := by
  unfold Char.toLower
  split
  · next h =>
    apply dif_neg
    intro hl
    have hz := UInt32.le_iff_toNat_le.mp hl.2
    have ha := UInt32.le_iff_toNat_le.mp h.1
    have hb := UInt32.le_iff_toNat_le.mp h.2
    have hd : ('a'.val - 'A'.val).toNat = 32 := rfl
    rw [UInt32.toNat_add] at hz
    change _ ≤ 90 at hz
    change 65 ≤ _ at ha
    change _ ≤ 90 at hb
    omega
  · rfl

theorem Text.fold_fold (s : String) : fold (fold s) = fold s := by
  rw [fold, fold, String.toList_ofList, List.map_map]
  exact congrArg _ (List.map_congr_left fun c _ => toLower_toLower c)

namespace TokenMap

variable {α β : Type}

/-- The same keys with other contents. -/
def map (f : α → β) (m : TokenMap α) : TokenMap β :=
  ⟨m.entries.map fun e => (e.1, f e.2)⟩

theorem lookup_map (f : α → β) (k : String) (entries : List (String × α)) :
    (entries.map fun e => (e.1, f e.2)).lookup k = (entries.lookup k).map f := by
  induction entries with
  | nil => rfl
  | cons e rest ih =>
    rw [List.map_cons, List.lookup_cons, List.lookup_cons, ih]
    split <;> rfl

theorem insertEntry_map (f : α → β) (key : String) (a : α) (entries : List (String × α)) :
    insertEntry key (f a) (entries.map fun e => (e.1, f e.2)) =
      (insertEntry key a entries).map fun e => (e.1, f e.2) := by
  induction entries with
  | nil => rfl
  | cons e rest ih =>
    obtain ⟨k, b⟩ := e
    rw [List.map_cons, insertEntry, insertEntry, ih]
    split
    · rfl
    · split <;> rfl

theorem find?_map (f : α → β) (m : TokenMap α) (token : String) :
    (m.map f).find? token = (m.find? token).map f :=
  lookup_map f _ m.entries

theorem insert_map (f : α → β) (m : TokenMap α) (token : String) (a : α) :
    (m.map f).insert token (f a) = (m.insert token a).map f :=
  congrArg mk (insertEntry_map f _ a m.entries)

theorem erase_map (f : α → β) (m : TokenMap α) (token : String) :
    (m.map f).erase token = (m.erase token).map f := by
  rw [erase, map, List.filter_map]
  rfl

theorem union_map (f : α → β) (m other : TokenMap α) :
    (m.map f).union (other.map f) = (m.union other).map f := by
  obtain ⟨entries⟩ := m
  obtain ⟨others⟩ := other
  induction others generalizing entries with
  | nil => rfl
  | cons e rest ih =>
    have h := ih (insertEntry e.1 e.2 entries)
    rw [map, ← insertEntry_map] at h
    exact h

/-- The keys stand in order, none of them stands there twice, and all of them are folded. -/
structure Canonical (m : TokenMap α) : Prop where
  sorted : m.entries.Pairwise fun e f => e.1 < f.1
  folded : ∀ e ∈ m.entries, Text.fold e.1 = e.1

theorem canonical_empty : (empty : TokenMap α).Canonical :=
  ⟨.nil, fun _ h => absurd h List.not_mem_nil⟩

theorem mem_insertEntry {key : String} {a : α} {e : String × α} {entries : List (String × α)}
    (h : e ∈ insertEntry key a entries) : e = (key, a) ∨ e ∈ entries := by
  induction entries with
  | nil => exact .inl (List.mem_singleton.mp h)
  | cons f rest ih =>
    obtain ⟨k, b⟩ := f
    rw [insertEntry] at h
    split at h
    · exact List.mem_cons.mp h
    · split at h
      · exact (List.mem_cons.mp h).imp_right (.tail _)
      · rcases List.mem_cons.mp h with h | h
        · exact .inr (h ▸ .head _)
        · exact (ih h).imp_right (.tail _)

theorem sorted_insertEntry {key : String} (a : α) {entries : List (String × α)}
    (h : entries.Pairwise fun e f => e.1 < f.1) :
    (insertEntry key a entries).Pairwise fun e f => e.1 < f.1 := by
  induction entries with
  | nil => exact List.pairwise_singleton _ _
  | cons f rest ih =>
    obtain ⟨k, b⟩ := f
    obtain ⟨hk, hrest⟩ := List.pairwise_cons.mp h
    rw [insertEntry]
    split
    · next hlt =>
      refine List.pairwise_cons.mpr ⟨fun e he => ?_, h⟩
      rcases List.mem_cons.mp he with rfl | he
      · exact hlt
      · exact lt_trans hlt (hk e he)
    · next hlt =>
      split
      · next heq =>
        subst heq
        exact List.pairwise_cons.mpr ⟨hk, hrest⟩
      · next hne =>
        refine List.pairwise_cons.mpr ⟨fun e he => ?_, ih hrest⟩
        rcases mem_insertEntry he with rfl | he
        · exact lt_of_le_of_ne (not_lt.mp hlt) (Ne.symm hne)
        · exact hk e he

theorem Canonical.insertEntry {m : TokenMap α} (h : m.Canonical) {key : String}
    (hk : Text.fold key = key) (a : α) : Canonical ⟨insertEntry key a m.entries⟩ where
  sorted := sorted_insertEntry a h.sorted
  folded := by
    intro e he
    rcases mem_insertEntry he with rfl | he
    · exact hk
    · exact h.folded e he

theorem Canonical.insert {m : TokenMap α} (h : m.Canonical) (token : String) (a : α) :
    (m.insert token a).Canonical :=
  h.insertEntry (Text.fold_fold token) a

theorem Canonical.erase {m : TokenMap α} (h : m.Canonical) (token : String) :
    (m.erase token).Canonical where
  sorted := h.sorted.filter _
  folded e he := h.folded e (List.mem_of_mem_filter he)

theorem Canonical.union {m other : TokenMap α} (h : m.Canonical) (ho : other.Canonical) :
    (m.union other).Canonical := by
  obtain ⟨entries⟩ := m
  obtain ⟨others⟩ := other
  induction others generalizing entries with
  | nil => exact h
  | cons e rest ih =>
    exact ih (TokenMap.insertEntry e.1 e.2 entries) (h.insertEntry (ho.folded e (.head _)) e.2)
      ⟨(List.pairwise_cons.mp ho.sorted).2, fun f hf => ho.folded f (.tail _ hf)⟩

theorem Canonical.map {m : TokenMap α} (h : m.Canonical) (f : α → β) : (m.map f).Canonical where
  sorted := List.pairwise_map.mpr h.sorted
  folded := by
    intro e he
    obtain ⟨d, hd, rfl⟩ := List.mem_map.mp he
    exact h.folded d hd

theorem lookup_eq_none_of_lt {k : String} {entries : List (String × α)}
    (h : ∀ e ∈ entries, k < e.1) : entries.lookup k = none := by
  rw [List.lookup_eq_none_iff]
  intro e he
  exact bne_iff_ne.mpr (ne_of_lt (h e he))

theorem lookup_of_mem {entries : List (String × α)} (h : entries.Pairwise fun e f => e.1 < f.1)
    {k : String} {a : α} (hm : (k, a) ∈ entries) : entries.lookup k = some a := by
  induction entries with
  | nil => cases hm
  | cons e rest ih =>
    obtain ⟨he, hrest⟩ := List.pairwise_cons.mp h
    rcases List.mem_cons.mp hm with rfl | hm
    · rw [List.lookup_cons_self]
    · have hne : (k == e.1) = false := beq_false_of_ne (ne_of_gt (he _ hm))
      rw [List.lookup_cons, hne]
      exact ih hrest hm

theorem mem_of_lookup {k : String} {a : α} {entries : List (String × α)}
    (h : entries.lookup k = some a) : (k, a) ∈ entries := by
  induction entries with
  | nil => cases h
  | cons e rest ih =>
    rw [List.lookup_cons] at h
    split at h
    · next hk =>
      cases h
      rw [eq_of_beq hk]
      exact .head _
    · exact .tail _ (ih h)

theorem Canonical.find?_of_mem {m : TokenMap α} (h : m.Canonical) {e : String × α}
    (he : e ∈ m.entries) : m.find? e.1 = some e.2 := by
  rw [find?, h.folded e he]
  exact lookup_of_mem h.sorted he

theorem mem_of_find? {m : TokenMap α} {token : String} {a : α} (h : m.find? token = some a) :
    (Text.fold token, a) ∈ m.entries :=
  mem_of_lookup h

theorem find?_union (m : TokenMap α) {other : TokenMap α} (ho : other.Canonical) (token : String) :
    (m.union other).find? token = (other.find? token).or (m.find? token) := by
  obtain ⟨entries⟩ := m
  obtain ⟨others⟩ := other
  induction others generalizing entries with
  | nil => rfl
  | cons e rest ih =>
    obtain ⟨he, hrest⟩ := List.pairwise_cons.mp ho.sorted
    have hcan : TokenMap.Canonical ⟨rest⟩ := ⟨hrest, fun f hf => ho.folded f (.tail _ hf)⟩
    have h := ih (TokenMap.insertEntry e.1 e.2 entries) hcan
    apply Eq.trans h
    rw [find?, find?, find?, find?, lookup_insertEntry, List.lookup_cons]
    by_cases hk : Text.fold token = e.1
    · rw [if_pos hk, hk, beq_self_eq_true, lookup_eq_none_of_lt he]
      rfl
    · rw [if_neg hk, beq_false_of_ne hk]

theorem eq_of_lookup_eq {entries others : List (String × α)}
    (h : entries.Pairwise fun e f => e.1 < f.1) (ho : others.Pairwise fun e f => e.1 < f.1)
    (hl : ∀ k, entries.lookup k = others.lookup k) : entries = others := by
  induction entries generalizing others with
  | nil =>
    cases others with
    | nil => rfl
    | cons f others =>
      have hf := hl f.1
      rw [List.lookup_cons_self] at hf
      cases hf
  | cons e entries ih =>
    obtain ⟨k, a⟩ := e
    obtain ⟨he, hs⟩ := List.pairwise_cons.mp h
    have hm := mem_of_lookup (hl k ▸ List.lookup_cons_self)
    cases others with
    | nil => cases hm
    | cons f others =>
      obtain ⟨hf, hos⟩ := List.pairwise_cons.mp ho
      have hn := mem_of_lookup ((hl f.1).symm ▸ List.lookup_cons_self)
      -- Each head is among the entries of the other list, where only the head can be as small.
      have heq : (k, a) = f := by
        rcases List.mem_cons.mp hm with hm | hm
        · exact hm
        · rcases List.mem_cons.mp hn with hn | hn
          · exact hn.symm
          · exact absurd (hf _ hm) (lt_asymm (he _ hn))
      subst heq
      refine congrArg _ (ih hs hos fun l => ?_)
      by_cases hk : l = k
      · rw [hk, lookup_eq_none_of_lt he, lookup_eq_none_of_lt hf]
      · have := hl l
        rwa [List.lookup_cons, List.lookup_cons, beq_false_of_ne hk] at this

/-- Maps with the same contents are the same. -/
theorem Canonical.ext {m n : TokenMap α} (hm : m.Canonical) (hn : n.Canonical)
    (h : ∀ token, m.find? token = n.find? token) : m = n := by
  refine congrArg TokenMap.mk (eq_of_lookup_eq hm.sorted hn.sorted fun k => ?_)
  by_cases hk : Text.fold k = k
  · have := h k
    rwa [find?, find?, hk] at this
  · have hnone : ∀ {o : TokenMap α}, o.Canonical → o.entries.lookup k = none := by
      intro o ho
      rw [List.lookup_eq_none_iff]
      intro e he
      exact bne_iff_ne.mpr fun heq => hk (heq ▸ ho.folded e he)
    rw [hnone hm, hnone hn]

theorem insertEntry_insertEntry (key : String) (a b : α) (entries : List (String × α)) :
    insertEntry key a (insertEntry key b entries) = insertEntry key a entries := by
  induction entries with
  | nil => grind [insertEntry]
  | cons e rest ih => grind [insertEntry]

theorem insertEntry_comm {k l : String} (h : k ≠ l) (a b : α) (entries : List (String × α)) :
    insertEntry k a (insertEntry l b entries) = insertEntry l b (insertEntry k a entries) := by
  induction entries with
  | nil => grind [insertEntry]
  | cons e rest ih => grind [insertEntry]

theorem insert_insert (m : TokenMap α) {t u : String} (h : Text.same t u = true) (a b : α) :
    (m.insert t b).insert u a = m.insert u a := by
  unfold insert
  rw [Text.same_iff.mp h, insertEntry_insertEntry]

theorem insert_comm (m : TokenMap α) {t u : String} (h : Text.same t u = false) (a b : α) :
    (m.insert t a).insert u b = (m.insert u b).insert t a := by
  have hne : Text.fold u ≠ Text.fold t := by
    intro heq
    rw [Text.same_iff.mpr heq.symm] at h
    cases h
  exact congrArg mk (insertEntry_comm hne b a m.entries)

theorem erase_comm (m : TokenMap α) (t u : String) :
    (m.erase t).erase u = (m.erase u).erase t :=
  congrArg mk (List.filter_comm _ _ m.entries)

theorem filter_insertEntry {p : String → Bool} {key : String} (h : p key = false) (a : α)
    (entries : List (String × α)) :
    (insertEntry key a entries).filter (fun e => p e.1) = entries.filter fun e => p e.1 := by
  induction entries with
  | nil => grind [insertEntry]
  | cons e rest ih => grind [insertEntry]

end TokenMap

end ChunkConfig
