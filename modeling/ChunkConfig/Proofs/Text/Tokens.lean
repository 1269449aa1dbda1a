import ChunkConfig.Text.Tokens

namespace ChunkConfig.Text

/-- What may stand after a token: nothing, or a blank. -/
def Separated (rest : List Char) : Prop :=
  ∀ c ∈ rest.head?, isBlank c = true

theorem isBlank_quote : isBlank '"' = false := by decide

theorem splitTokens_nil : splitTokens [] = [] := by
  rw [splitTokens]

theorem splitTokens_blank {c : Char} (hc : isBlank c = true) (cs : List Char) :
    splitTokens (c :: cs) = splitTokens cs := by
  rw [splitTokens, if_pos hc]

theorem splitTokens_append_of_blank {bs : List Char} (h : ∀ c ∈ bs, isBlank c = true)
    (cs : List Char) : splitTokens (bs ++ cs) = splitTokens cs := by
  induction bs with
  | nil => rfl
  | cons c bs ih =>
    rw [List.cons_append, splitTokens_blank (h c (.head _)), ih fun d hd => h d (.tail _ hd)]

theorem tokens_of_allBlank {s : String} (h : allBlank s = true) : tokens s = [] := by
  have hs : splitTokens (s.toList ++ []) = splitTokens [] :=
    splitTokens_append_of_blank (List.all_eq_true.mp h) []
  rw [List.append_nil] at hs
  rw [tokens, hs, splitTokens_nil, List.map_nil]

theorem splitTokens_quoted {t : List Char} (ht : '"' ∉ t) (rest : List Char) :
    splitTokens ('"' :: (t ++ '"' :: rest)) = t :: splitTokens rest := by
  have hp : ∀ c ∈ t, (fun a => decide (a ≠ '"')) c = true :=
    fun c hc => decide_eq_true fun h => ht (h ▸ hc)
  have htake : ('"' :: rest).takeWhile (· ≠ '"') = [] := by simp
  have hdrop : ('"' :: rest).dropWhile (· ≠ '"') = '"' :: rest := by simp
  rw [splitTokens, isBlank_quote, if_neg Bool.false_ne_true, if_pos rfl,
    List.takeWhile_append_of_pos hp, List.dropWhile_append_of_pos hp, htake, hdrop,
    List.append_nil, List.drop_one, List.tail_cons]

theorem splitTokens_bare {t rest : List Char} (hn : t ≠ []) (hb : ∀ c ∈ t, isBlank c = false)
    (hq : t.head? ≠ some '"') (hr : Separated rest) :
    splitTokens (t ++ rest) = t :: splitTokens rest := by
  cases t with
  | nil => exact absurd rfl hn
  | cons c t =>
    have hc : c ≠ '"' := fun h => hq (congrArg some h)
    have hp : ∀ d ∈ t, (!isBlank d) = true := by
      intro d hd
      rw [hb d (.tail _ hd)]
      rfl
    have ht : rest.takeWhile (!isBlank ·) = [] := by
      cases rest with
      | nil => rfl
      | cons d rest =>
        rw [List.takeWhile_cons_of_neg]
        simp only [hr d rfl, Bool.not_true, Bool.false_eq_true, not_false_eq_true]
    have hd : rest.dropWhile (!isBlank ·) = rest := by
      rw [← List.nil_append (rest.dropWhile _), ← ht, List.takeWhile_append_dropWhile]
    rw [List.cons_append, splitTokens, hb c (.head _), if_neg Bool.false_ne_true, if_neg hc,
      List.takeWhile_append_of_pos hp, List.dropWhile_append_of_pos hp, ht, hd, List.append_nil]

/-- A token that stands bare is not empty, holds no blank and does not begin with a quote, and one
that is quoted holds no quote. -/
theorem quoteToken?_cases {t w : List Char} (h : quoteToken? t = some w) :
    (w = t ∧ t ≠ [] ∧ (∀ c ∈ t, isBlank c = false) ∧ t.head? ≠ some '"') ∨
      (w = '"' :: (t ++ ['"']) ∧ '"' ∉ t) := by
  have hblank (hb : ¬ t.any isBlank = true) : ∀ c ∈ t, isBlank c = false := by
    intro c hc
    rw [Bool.eq_false_iff]
    intro h
    exact hb (List.any_eq_true.mpr ⟨c, hc, h⟩)
  rw [quoteToken?] at h
  split at h
  · next hq =>
    split at h
    · cases h
    · next hb =>
      cases h
      rw [Bool.or_eq_true, not_or, beq_iff_eq] at hb
      refine .inl ⟨rfl, ?_, hblank hb.1, hb.2⟩
      rintro rfl
      cases hq
  · next hq =>
    have hm : '"' ∉ t := fun hm => hq (List.contains_iff_mem.mpr hm)
    split at h
    · cases h
      exact .inr ⟨rfl, hm⟩
    · next hb =>
      cases h
      rw [Bool.or_eq_true, not_or, List.isEmpty_iff] at hb
      exact .inl ⟨rfl, hb.2, hblank hb.1, fun hh => hm (List.mem_of_head? hh)⟩

/-- The written form of a token reads back as that token, when it is set apart from the rest. -/
theorem splitTokens_quoteToken {t w rest : List Char} (h : quoteToken? t = some w)
    (hr : Separated rest) : splitTokens (w ++ rest) = t :: splitTokens rest := by
  rcases quoteToken?_cases h with ⟨rfl, hn, hb, hq⟩ | ⟨rfl, hm⟩
  · exact splitTokens_bare hn hb hq hr
  · rw [List.cons_append, List.append_assoc, List.singleton_append, splitTokens_quoted hm]

theorem intercalate_blank_cons (w v : List Char) (ws : List (List Char)) :
    [' '].intercalate (w :: v :: ws) = w ++ ' ' :: [' '].intercalate (v :: ws) := by
  rw [List.intercalate_cons_cons]
  simp only [List.append_assoc, List.cons_append, List.nil_append]

theorem splitTokens_intercalate {ts ws : List (List Char)}
    (h : ts.map quoteToken? = ws.map some) : splitTokens ([' '].intercalate ws) = ts := by
  induction ws generalizing ts with
  | nil =>
    rw [List.map_nil, List.map_eq_nil_iff] at h
    rw [h]
    exact splitTokens_nil
  | cons w ws ih =>
    obtain ⟨t, ts, rfl, ht, hts⟩ := List.map_eq_cons_iff.mp h
    cases ws with
    | nil =>
      have hs : splitTokens (w ++ []) = t :: splitTokens [] :=
        splitTokens_quoteToken ht fun _ hc => by cases hc
      rw [List.append_nil, splitTokens_nil] at hs
      rw [List.intercalate_singleton, hs, List.map_eq_nil_iff.mp hts]
    | cons v ws =>
      have hb : isBlank ' ' = true := by decide
      rw [intercalate_blank_cons, splitTokens_quoteToken ht, splitTokens_blank hb, ih hts]
      rintro c ⟨⟩
      exact hb

theorem tokens_intercalate {ts ws : List String} (h : ts.map quote? = ws.map some) :
    tokens (" ".intercalate ws) = ts := by
  have hl : (ts.map String.toList).map quoteToken? = (ws.map String.toList).map some := by
    have hm := congrArg (List.map (Option.map String.toList)) h
    simpa only [quote?, List.map_map, Function.comp_def, Option.map_map, String.toList_ofList,
      Option.map_id', Option.map_some] using hm
  have hs : " ".toList = [' '] := rfl
  rw [tokens, String.toList_intercalate, hs, splitTokens_intercalate hl, List.map_map]
  simp only [Function.comp_def, String.ofList_toList, List.map_id']

/-- A character that needs no quotes. -/
def Plain (c : Char) : Prop :=
  isBlank c = false ∧ c ≠ '"'

theorem quote?_of_plain {s : String} (hs : s ≠ "") (h : ∀ c ∈ s.toList, Plain c) :
    quote? s = some s := by
  have hq : s.toList.contains '"' = false := by
    rw [Bool.eq_false_iff]
    intro hc
    exact (h _ (List.contains_iff_mem.mp hc)).2 rfl
  have hb : s.toList.any isBlank = false := by
    rw [List.any_eq_false]
    intro c hc
    rw [(h c hc).1]
    exact Bool.false_ne_true
  have he : s.toList.isEmpty = false := by
    rw [List.isEmpty_eq_false_iff, Ne, String.toList_eq_nil_iff]
    exact hs
  simp only [quote?, quoteToken?, hq, hb, he, Bool.false_eq_true, if_false, Bool.or_false,
    Option.map_some, String.ofList_toList]

end ChunkConfig.Text
