import ChunkConfig.Proofs.Span
import ChunkConfig.Proofs.Text.Tokens

namespace ChunkConfig.Text

/-- Whether a text closes every quoted token that begins in it. -/
def closesQuotes : List Char → Bool
  | [] => true
  | c :: cs =>
    if isBlank c then closesQuotes cs
    else if c = '"' then cs.contains '"' && closesQuotes ((cs.dropWhile (· ≠ '"')).drop 1)
    else closesQuotes (cs.dropWhile (!isBlank ·))
termination_by cs => cs.length
decreasing_by
  · exact Nat.lt_succ_self _
  · have h := (List.dropWhile_suffix (l := cs) (· ≠ '"')).length_le
    rw [List.length_drop, List.length_cons]
    omega
  · exact Nat.lt_succ_of_le (List.dropWhile_suffix _).length_le

theorem Separated.append {cs rest : List Char} (h : Separated cs) (hr : Separated rest) :
    Separated (cs ++ rest) := by
  cases cs with
  | nil => exact hr
  | cons c cs => exact h

theorem separated_dropWhile (cs : List Char) : Separated (cs.dropWhile (!isBlank ·)) := by
  intro c hc
  have hn := List.head?_dropWhile_not (!isBlank ·) cs
  rw [Option.mem_def.mp hc] at hn
  simpa using hn

/-- A text that closes its quotes is cut into tokens in the same way whatever stands after it, if
only that is set apart. -/
theorem splitTokens_append {cs rest : List Char} (h : closesQuotes cs = true)
    (hr : Separated rest) : splitTokens (cs ++ rest) = splitTokens cs ++ splitTokens rest := by
  induction cs using closesQuotes.induct with
  | case1 => rw [splitTokens_nil, List.nil_append, List.nil_append]
  | case2 c cs hb ih =>
    rw [closesQuotes, if_pos hb] at h
    rw [List.cons_append, splitTokens_blank hb, splitTokens_blank hb, ih h]
  | case3 cs hb ih =>
    rw [closesQuotes, if_neg hb, if_pos rfl, Bool.and_eq_true] at h
    obtain ⟨t, after, rfl, ht⟩ := List.eq_append_cons_of_mem (List.contains_iff_mem.mp h.1)
    have hafter : ((t ++ '"' :: after).dropWhile (· ≠ '"')).drop 1 = after := by
      rw [dropWhile_span]
      · rfl
      · intro c hc
        exact decide_eq_true fun he => ht (he ▸ hc)
      · rintro c ⟨⟩
        exact decide_eq_false fun h => h rfl
    rw [hafter] at ih h
    rw [List.cons_append, List.append_assoc, List.cons_append, splitTokens_quoted ht,
      splitTokens_quoted ht, ih h.2, List.cons_append]
  | case4 c cs hb hq ih =>
    rw [closesQuotes, if_neg hb, if_neg hq] at h
    have hblank : ∀ d ∈ c :: cs.takeWhile (!isBlank ·), isBlank d = false := by
      intro d hd
      rcases List.mem_cons.mp hd with rfl | hd
      · exact Bool.eq_false_iff.mpr hb
      · exact (Bool.not_eq_true' _).mp (List.all_eq_true.mp List.all_takeWhile d hd)
    have hhead : (c :: cs.takeWhile (!isBlank ·)).head? ≠ some '"' :=
      fun he => hq (Option.some.inj he)
    have hcut : c :: cs = c :: cs.takeWhile (!isBlank ·) ++ cs.dropWhile (!isBlank ·) := by
      rw [List.cons_append, List.takeWhile_append_dropWhile]
    have hsep := separated_dropWhile cs
    rw [hcut, List.append_assoc, splitTokens_bare (List.cons_ne_nil _ _) hblank hhead hsep,
      splitTokens_bare (List.cons_ne_nil _ _) hblank hhead (hsep.append hr), ih h, List.cons_append]

theorem tokens_singleton_append {w : Char} (hw : isBlank w = true) (b : String) :
    tokens (.singleton w ++ b) = tokens b := by
  rw [tokens, tokens, String.toList_append, String.toList_singleton, List.singleton_append,
    splitTokens_blank hw]

theorem tokens_append {a : String} {w : Char} (ha : closesQuotes a.toList = true)
    (hw : isBlank w = true) (b : String) :
    tokens (a ++ .singleton w ++ b) = tokens a ++ tokens b := by
  have hr : Separated (w :: b.toList) := by
    rintro c ⟨⟩
    exact hw
  simp only [tokens, String.toList_append, String.toList_singleton, List.append_assoc,
    List.singleton_append]
  rw [splitTokens_append ha hr, splitTokens_blank hw, List.map_append]

end ChunkConfig.Text
