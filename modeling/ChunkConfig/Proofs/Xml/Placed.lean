import ChunkConfig.Proofs.Xml.Listed

namespace ChunkConfig

namespace Text

variable {start stop size index : Nat} {name : List Char} {c : Char}

/-- Where a reference stands matters only to what is said about it when it fails. -/
theorem resolve_place (h : resolve start stop name = .ok c) (place till : Nat) :
    resolve place till name = .ok c := by
  unfold resolve at h ⊢
  split at h
  · exact h
  · exact h
  · next hx hd =>
    split at h
    · exact h
    · cases h

mutual

theorem expandFrom_place {size index : Nat} : (cs : List Char) → {ds : List Char} →
    expandFrom size index cs = .ok ds → ∀ whole place, expandFrom whole place cs = .ok ds
  | [], ds, h, whole, place => by
    rw [expandFrom] at h ⊢
    exact h
  | c :: cs, ds, h, whole, place => by
    rw [expandFrom] at h ⊢
    split at h
    · next hc =>
      rw [if_pos hc]
      exact expandName_place cs h whole place (place + 1)
    · next hc =>
      obtain ⟨es, hes, rfl⟩ := exists_of_map_eq_ok h
      rw [if_neg hc, expandFrom_place cs hes]
      rfl

theorem expandName_place {size start index : Nat} {name : List Char} : (cs : List Char) →
    {ds : List Char} → expandName size start index name cs = .ok ds →
      ∀ whole first place, expandName whole first place name cs = .ok ds
  | [], ds, h, whole, first, place => by
    rw [expandName] at h
    cases h
  | c :: cs, ds, h, whole, first, place => by
    rw [expandName] at h ⊢
    split at h
    · next hc =>
      rw [if_pos hc]
      split at h
      · cases h
      · next r hr =>
        obtain ⟨es, hes, rfl⟩ := exists_of_map_eq_ok h
        rw [resolve_place hr]
        simp only [expandFrom_place cs hes]
        rfl
    · next hc =>
      rw [if_neg hc]
      split at h
      · cases h
      · next ha =>
        rw [if_neg ha]
        exact expandName_place cs h whole first (place + c.utf8Size)

end

theorem expand_cons {cs ds : List Char} (hc : c ≠ '&') (h : expand cs = .ok ds) :
    expand (c :: cs) = .ok (c :: ds) := by
  rw [expand, expandFrom, if_neg hc, expandFrom_place cs h]
  rfl

end Text

namespace Xml

section Text

open Text (encode)

theorem decodeText_char {c : Char} (hc : c ≠ '&') {raw : Bytes} {content : String}
    (h : decodeText raw = .ok content) :
    decodeText (String.utf8EncodeChar c ++ raw) = .ok (String.singleton c ++ content) := by
  rw [decodeText] at h
  split at h
  · cases h
  · next cs hcs =>
    split at h
    · cases h
    · next ds hds =>
      cases h
      have hraw : String.utf8EncodeChar c ++ raw = Text.encodeChars (c :: cs) := by
        rw [Text.encodeChars, List.flatMap_cons]
        exact congrArg _ (Text.encodeChars_of_decode_eq hcs).symm
      rw [decodeText, hraw, Text.decode_encodeChars]
      simp only [Text.expand_cons hc hds]
      rw [String.singleton_eq_ofList, ← String.ofList_append]
      rfl

end Text

section Markup

variable {position : Nat} {opened : List String} {raw : Bytes} {e : Event}

theorem declared_place (h : declared position raw = .ok e) (place : Nat) :
    declared place raw = .ok e := by
  unfold declared at h ⊢
  split at h
  · next hb =>
    rw [if_pos hb]
    split at h
    · cases h
    · next hc => simpa only [hc] using h
  · next hb =>
    rw [if_neg hb]
    split at h
    · next hd =>
      rw [if_pos hd]
      split at h
      · cases h
      · next hc => simpa only [hc] using h
    · next hd =>
      rw [if_neg hd]
      simp only at h ⊢
      split at h
      · cases h
      · next hn =>
        rw [if_neg hn]
        split at h
        · cases h
        · next he =>
          rw [if_neg he]
          exact h

theorem instruction_place (h : instruction position raw = .ok e) (place : Nat) :
    instruction place raw = .ok e := by
  unfold instruction at h ⊢
  split at h
  · cases h
  · next hn =>
    rw [if_neg hn]
    exact h

theorem endTag_place (h : endTag position opened raw = .ok e) (place : Nat)
    (outer : List String) : endTag place (opened ++ outer) raw = .ok e := by
  unfold endTag at h ⊢
  simp only at h ⊢
  generalize Except.toOption _ = found at h ⊢
  cases opened with
  | nil => cases h
  | cons expected opened =>
    simp only [List.cons_append] at h ⊢
    split at h
    · next hf =>
      rw [if_pos hf]
      exact h
    · cases h

theorem markup_place (h : markup position opened raw = .ok e) (place : Nat)
    (outer : List String) : markup place (opened ++ outer) raw = .ok e := by
  unfold markup at h ⊢
  split at h
  · next hb =>
    rw [if_pos hb]
    exact declared_place h place
  · next hb =>
    rw [if_neg hb]
    split at h
    · next hq =>
      rw [if_pos hq]
      exact instruction_place h place
    · next hq =>
      rw [if_neg hq]
      split at h
      · next hs =>
        rw [if_pos hs]
        exact endTag_place h place outer
      · next hs =>
        rw [if_neg hs]
        exact h

theorem nest_append (h : markup position opened raw = .ok e) (outer : List String) :
    e.nest (opened ++ outer) = e.nest opened ++ outer := by
  cases e with
  | finish name =>
    obtain ⟨rest, rfl⟩ := List.head?_eq_some_iff.mp (head?_of_markup_eq h)
    rfl
  | _ => rfl

end Markup

section Cut

variable {raw rest : Bytes}

theorem cut_append_right {σ : Type} {step : σ → UInt8 → Option σ} {s : σ} {input : Bytes}
    (h : cut step s input = (some raw, rest)) (more : Bytes) :
    cut step s (input ++ more) = (some raw, rest ++ more) := by
  obtain ⟨t, b, rfl, hf, hb⟩ := exists_of_cut_eq h
  rw [List.append_assoc]
  exact cut_append hf hb

theorem cutMarkup_append_right {input : Bytes} (h : cutMarkup input = (.ok raw, rest))
    (more : Bytes) : cutMarkup (input ++ more) = (.ok raw, rest ++ more) := by
  cases input with
  | nil => cases h
  | cons b input =>
    have hdash : ¬ ascii '-' = ascii '[' := by decide
    have hcut {σ : Type} {step : σ → UInt8 → Option σ} {s : σ}
        (h : cut step s (b :: input) = (some raw, rest)) :
        cut step s (b :: (input ++ more)) = (some raw, rest ++ more) := cut_append_right h more
    -- The first two bytes tell which machine cuts, and they are the same on both sides.
    rw [cutMarkup, List.head?_cons] at h
    rw [List.cons_append, cutMarkup, List.head?_cons]
    simp only at h ⊢
    split at h
    · next hx =>
      rw [if_pos hx]
      split at h
      · cases h
      · next c hc =>
        have hc' : (b :: (input ++ more))[1]? = some c := by
          cases input with
          | nil => cases hc
          | cons d input => exact hc
        simp only [hc']
        repeat' split at h
        all_goals cases h
        all_goals
          next hraw =>
          simp only [*, if_true, if_false, hcut hraw]
    · next hx =>
      rw [if_neg hx]
      repeat' split at h
      all_goals cases h
      all_goals
        next hraw =>
        simp only [*, if_true, if_false, hcut hraw]

end Cut

section Scan

variable {position : Nat} {opened : List String} {input more : Bytes} {es : List Event}

theorem takeWhile_append_span {α : Type} {p : α → Bool} {ys : List α}
    (hy : ∀ y ∈ ys.head?, p y = false) (xs : List α) :
    (xs ++ ys).takeWhile p = xs.takeWhile p := by
  induction xs with
  | nil => exact takeWhile_span (fun _ hx => absurd hx List.not_mem_nil) hy
  | cons x xs ih => rw [List.cons_append, List.takeWhile_cons, List.takeWhile_cons, ih]

theorem dropWhile_append_span {α : Type} {p : α → Bool} {ys : List α}
    (hy : ∀ y ∈ ys.head?, p y = false) (xs : List α) :
    (xs ++ ys).dropWhile p = xs.dropWhile p ++ ys := by
  induction xs with
  | nil => exact dropWhile_span (fun _ hx => absurd hx List.not_mem_nil) hy
  | cons x xs ih =>
    rw [List.cons_append, List.dropWhile_cons, List.dropWhile_cons, ih]
    split <;> rfl

theorem scanFrom_text_eq {b : UInt8} {rest : Bytes} {content : String} (hb : b ≠ ascii '<')
    (h : decodeText (b :: rest.takeWhile (· ≠ ascii '<')) = .ok content) (place : Nat) :
    scanFrom place opened (b :: rest) = (.text content :: ·) <$>
      scanFrom (place + (b :: rest.takeWhile (· ≠ ascii '<')).length) opened
        (rest.dropWhile (· ≠ ascii '<')) := by
  rw [scanFrom, if_neg hb]
  simp only [h, Except.mapError]
  rw [map_eq_pure_bind]
  rfl

/-- What is read as events is read as the same ones at another place, where further elements are
open around it and markup follows. -/
theorem scanFrom_append (h : scanFrom position opened input = .ok es)
    (hm : ∀ b ∈ more.head?, b = ascii '<') (outer : List String) (place : Nat) :
    ∃ next, scanFrom place (opened ++ outer) (input ++ more) = (es ++ ·) <$>
      scanFrom next (es.foldl (fun names e => e.nest names) opened ++ outer) more := by
  fun_induction scanFrom position opened input generalizing es place with
  | case1 =>
    cases h
    exact ⟨place, (id_map _).symm⟩
  | case2 position opened rest piece =>
    rename_i ih
    obtain ⟨raw, hraw, h⟩ := exists_of_bind_eq_ok h
    obtain ⟨e, he, h⟩ := exists_of_bind_eq_ok h
    obtain ⟨fs, hfs, h⟩ := exists_of_bind_eq_ok h
    cases h
    have hc : cutMarkup rest = (.ok raw, piece.2) := Prod.ext (eq_ok_of_mapError hraw) rfl
    obtain ⟨next, hn⟩ := ih raw e hfs (place + raw.length + 2)
    refine ⟨next, ?_⟩
    rw [List.cons_append, scanFrom, if_pos rfl]
    simp only [cutMarkup_append_right hc more, Except.mapError]
    change markup place (opened ++ outer) raw >>= _ = _
    rw [markup_place he]
    change scanFrom _ (e.nest (opened ++ outer)) _ >>= _ = _
    rw [nest_append he, hn, List.foldl_cons]
    cases scanFrom next _ more <;> rfl
  | case3 position opened b rest hb raw position' =>
    rename_i ih
    obtain ⟨content, hcontent, h⟩ := exists_of_bind_eq_ok h
    obtain ⟨fs, hfs, h⟩ := exists_of_bind_eq_ok h
    cases h
    have hspan : ∀ c ∈ more.head?, decide (c ≠ ascii '<') = false :=
      fun c hc => decide_eq_false fun hn => hn (hm c hc)
    have hdecode : decodeText (b :: (rest ++ more).takeWhile (· ≠ ascii '<')) = .ok content := by
      rw [takeWhile_append_span hspan]
      exact eq_ok_of_mapError hcontent
    obtain ⟨next, hn⟩ := ih hfs (place + raw.length)
    refine ⟨next, ?_⟩
    rw [List.cons_append, scanFrom_text_eq hb hdecode, takeWhile_append_span hspan,
      dropWhile_append_span hspan, hn, List.foldl_cons]
    exact (comp_map _ _ _).symm

theorem scanFrom_place (h : scanFrom position opened input = .ok es) (place : Nat) :
    scanFrom place opened input = .ok es := by
  have hnone : ∀ b ∈ ([] : Bytes).head?, b = ascii '<' := nofun
  obtain ⟨next, hn⟩ := scanFrom_append h hnone [] place
  rw [List.append_nil, List.append_nil, scanFrom] at hn
  rw [hn]
  exact congrArg Except.ok (List.append_nil es)

theorem exists_scanFrom_mark (h : scanFrom position opened input = .ok es) (place : Nat) :
    ∃ fs, scanFrom place opened (0xEF :: 0xBB :: 0xBF :: input) = .ok fs ∧
      (fs = .text "\uFEFF" :: es ∨ ∃ content gs, es = .text content :: gs ∧
        fs = .text ("\uFEFF" ++ content) :: gs) := by
  have hmark {content : String} (hc : decodeText (input.takeWhile (· ≠ ascii '<')) = .ok content)
      {gs : List Event} {next : Nat}
      (hgs : scanFrom next opened (input.dropWhile (· ≠ ascii '<')) = .ok gs) :
      scanFrom place opened (0xEF :: 0xBB :: 0xBF :: input) =
        .ok (.text ("\uFEFF" ++ content) :: gs) := by
    have hdecode : decodeText (0xEF :: (0xBB :: 0xBF :: input).takeWhile (· ≠ ascii '<')) =
        .ok ("\uFEFF" ++ content) := decodeText_char (c := '\uFEFF') (by decide) hc
    have hdrop : (0xBB :: 0xBF :: input).dropWhile (· ≠ ascii '<') =
        input.dropWhile (· ≠ ascii '<') := rfl
    rw [scanFrom_text_eq (by decide) hdecode, hdrop, scanFrom_place hgs]
    rfl
  by_cases hstart : ∀ b ∈ input.head?, b = ascii '<'
  · have hspan : ∀ b ∈ input.head?, decide (b ≠ ascii '<') = false :=
      fun b hb => decide_eq_false fun hn => hn (hstart b hb)
    have hnothing : decodeText (input.takeWhile (· ≠ ascii '<')) = .ok "" := by
      rw [← List.nil_append input, takeWhile_append_span hspan]
      rfl
    have hall : scanFrom position opened (input.dropWhile (· ≠ ascii '<')) = .ok es := by
      rw [← List.nil_append input, dropWhile_append_span hspan]
      exact h
    exact ⟨_, hmark hnothing hall, .inl rfl⟩
  · cases input with
    | nil => exact absurd nofun hstart
    | cons b rest =>
      have hb : b ≠ ascii '<' := by
        rintro rfl
        exact hstart fun _ hc => (Option.some.inj hc).symm
      have htake : (b :: rest).takeWhile (· ≠ ascii '<') = b :: rest.takeWhile (· ≠ ascii '<') :=
        List.takeWhile_cons_of_pos (decide_eq_true hb)
      have hdrop : (b :: rest).dropWhile (· ≠ ascii '<') = rest.dropWhile (· ≠ ascii '<') :=
        List.dropWhile_cons_of_pos (decide_eq_true hb)
      rw [scanFrom, if_neg hb] at h
      obtain ⟨content, hcontent, h⟩ := exists_of_bind_eq_ok h
      obtain ⟨gs, hgs, h⟩ := exists_of_bind_eq_ok h
      cases h
      exact ⟨_, hmark (htake ▸ eq_ok_of_mapError hcontent) (hdrop ▸ hgs),
        .inr ⟨content, gs, rfl, rfl⟩⟩

end Scan

end Xml

end ChunkConfig
