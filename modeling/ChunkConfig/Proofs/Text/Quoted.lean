import ChunkConfig.Proofs.Text.Closed
import Mathlib.Data.List.TakeWhile

namespace ChunkConfig.Text

variable {t cs rest : List Char}

theorem separated_of_blank (h : ∀ c ∈ cs, isBlank c = true) (hn : cs ≠ []) (rest : List Char) :
    Separated (cs ++ rest) := by
  cases cs with
  | nil => exact absurd rfl hn
  | cons c cs =>
    rintro d ⟨⟩
    exact h c (.head _)

theorem isSome_quoteToken?_iff : (quoteToken? t).isSome = true ↔
    '"' ∉ t ∨ (∀ c ∈ t, isBlank c = false) ∧ t.head? ≠ some '"' := by
  have hblank : (t.any isBlank || t.head? == some '"') = true ↔
      ¬ ((∀ c ∈ t, isBlank c = false) ∧ t.head? ≠ some '"') := by
    rw [Bool.or_eq_true, beq_iff_eq, not_and_or, not_not, List.any_eq_true]
    simp only [not_forall, Bool.not_eq_false, exists_prop]
  rw [quoteToken?]
  split
  · next hq =>
    rw [List.contains_iff_mem] at hq
    split
    · next hb => exact iff_of_false Bool.false_ne_true (not_or.mpr ⟨not_not.mpr hq, hblank.mp hb⟩)
    · next hb => exact iff_of_true rfl (.inr (not_not.mp (hblank.not.mp hb)))
  · next hq =>
    have hm : '"' ∉ t := fun hm => hq (List.contains_iff_mem.mpr hm)
    split
    · exact iff_of_true rfl (.inl hm)
    · exact iff_of_true rfl (.inl hm)

/-- Whatever a text is, its tokens have a written form: a token in quotes holds no quote, and any
other one may stand bare. -/
theorem isSome_quoteToken?_of_mem (h : t ∈ splitTokens cs) : (quoteToken? t).isSome = true := by
  rw [isSome_quoteToken?_iff]
  induction cs using splitTokens.induct with
  | case1 =>
    rw [splitTokens_nil] at h
    cases h
  | case2 c cs hb ih =>
    rw [splitTokens_blank hb] at h
    exact ih h
  | case3 cs hb ih =>
    rw [splitTokens, if_neg hb, if_pos rfl] at h
    rcases List.mem_cons.mp h with rfl | h
    · left
      intro hq
      have hne := List.mem_takeWhile_imp hq
      exact of_decide_eq_true hne rfl
    · exact ih h
  | case4 c cs hb hq ih =>
    rw [splitTokens, if_neg hb, if_neg hq] at h
    rcases List.mem_cons.mp h with rfl | h
    · right
      constructor
      · intro d hd
        rcases List.mem_cons.mp hd with rfl | hd
        · exact Bool.eq_false_iff.mpr hb
        · have hblank : (!isBlank d) = true := List.mem_takeWhile_imp (p := (!isBlank ·)) hd
          exact (Bool.not_eq_true' _).mp hblank
      · intro he
        exact hq (Option.some.inj he)
    · exact ih h

theorem isSome_quote?_toList (t : String) :
    (quote? t).isSome = (quoteToken? t.toList).isSome :=
  Option.isSome_map

/-- The strings with a written form are those that can be a token of a text. -/
theorem isSome_quote?_iff (t : String) : (quote? t).isSome = true ↔ ∃ s, t ∈ tokens s := by
  rw [isSome_quote?_toList]
  constructor
  · intro h
    obtain ⟨w, hw⟩ := Option.isSome_iff_exists.mp h
    have hs : splitTokens (w ++ []) = t.toList :: splitTokens [] :=
      splitTokens_quoteToken hw fun _ hc => by cases hc
    refine ⟨.ofList w, ?_⟩
    rw [tokens, String.toList_ofList, ← List.append_nil w, hs, List.map_cons, String.ofList_toList]
    exact .head _
  · rintro ⟨s, hs⟩
    obtain ⟨cs, hcs, rfl⟩ := List.mem_map.mp hs
    rw [String.toList_ofList]
    exact isSome_quoteToken?_of_mem hcs

/-- Words in a row, each behind a gap of its own, and a gap behind the last one. -/
def spread (parts : List (String × String)) (after : String) : String :=
  .join (parts.map fun part => part.1 ++ part.2) ++ after

theorem toList_spread (parts : List (String × String)) (after : String) :
    (spread parts after).toList =
      (parts.flatMap fun part => part.1.toList ++ part.2.toList) ++ after.toList := by
  rw [spread, String.toList_append, String.toList_join, List.flatMap_map]
  simp only [String.toList_append]

theorem separated_spread {parts : List (String × String)} {after : String}
    (hg : ∀ part ∈ parts, allBlank part.1 = true) (hn : ∀ part ∈ parts, part.1 ≠ "")
    (ha : allBlank after = true) : Separated (spread parts after).toList := by
  rw [toList_spread]
  cases parts with
  | nil =>
    intro c hc
    exact List.all_eq_true.mp ha c (List.mem_of_head? hc)
  | cons part parts =>
    rw [List.flatMap_cons, List.append_assoc, List.append_assoc]
    apply separated_of_blank (List.all_eq_true.mp (hg part (.head _)))
    rw [Ne, String.toList_eq_nil_iff]
    exact hn part (.head _)

/-- Written tokens read back one by one, whatever blanks stand before them, between them and behind
them. -/
theorem tokens_spread {ts : List String} {parts : List (String × String)} {after : String}
    (hw : ts.map quote? = parts.map fun part => some part.2)
    (hg : ∀ part ∈ parts, allBlank part.1 = true) (hn : ∀ part ∈ parts.tail, part.1 ≠ "")
    (ha : allBlank after = true) : tokens (spread parts after) = ts := by
  induction parts generalizing ts with
  | nil =>
    rw [List.map_nil, List.map_eq_nil_iff] at hw
    rw [hw, tokens, toList_spread, List.flatMap_nil, List.nil_append]
    exact tokens_of_allBlank ha
  | cons part parts ih =>
    obtain ⟨t, ts, rfl, ht, hts⟩ := List.map_eq_cons_iff.mp hw
    obtain ⟨w, hq, hpart⟩ := Option.map_eq_some_iff.mp ht
    have hgaps : ∀ part ∈ parts, allBlank part.1 = true := fun p hp => hg p (.tail _ hp)
    have hrest : tokens (spread parts after) = ts :=
      ih hts hgaps fun p hp => hn p (List.mem_of_mem_tail hp)
    have hsep : Separated (spread parts after).toList := separated_spread hgaps hn ha
    have hsplit : splitTokens (spread (part :: parts) after).toList =
        t.toList :: splitTokens (spread parts after).toList := by
      rw [toList_spread, List.flatMap_cons, List.append_assoc, List.append_assoc,
        splitTokens_append_of_blank (List.all_eq_true.mp (hg part (.head _))), ← toList_spread,
        ← hpart, String.toList_ofList, splitTokens_quoteToken hq hsep]
    rw [tokens, hsplit, List.map_cons, String.ofList_toList]
    exact congrArg (t :: ·) hrest

theorem tokens_spread_awkward :
    tokens (spread [("", "\"\""), ("\u3000\t", "ab\"cd"), ("\n", "\" \u00A0 \""), (" ", "ends\"")]
      "\u2003") = ["", "ab\"cd", " \u00A0 ", "ends\""] := by
  apply tokens_spread
  · decide +kernel
  · decide +kernel
  · decide
  · decide +kernel

end ChunkConfig.Text
