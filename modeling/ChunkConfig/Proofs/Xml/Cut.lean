import ChunkConfig.Proofs.Xml.Tag
import ChunkConfig.Xml.Scan
import Mathlib.Data.List.DropRight

namespace ChunkConfig.Xml

open Text (encode encode_append)

section Machine

variable {σ : Type} {step : σ → UInt8 → Option σ} {s t : σ} {raw rest : Bytes} {b : UInt8}

theorem cut_append (h : raw.foldlM step s = some t) (hb : step t b = none) :
    cut step s (raw ++ b :: rest) = (some raw, rest) := by
  induction raw generalizing s with
  | nil =>
    cases h
    rw [List.nil_append, cut, hb]
  | cons c raw ih =>
    rw [List.foldlM_cons] at h
    obtain ⟨u, hu, hr⟩ := Option.bind_eq_some_iff.mp h
    rw [List.cons_append, cut, hu]
    simp only [ih hr, Option.map_some]

theorem foldlM_concat :
    (raw ++ [b]).foldlM step s = (raw.foldlM step s).bind fun t => step t b := by
  simp only [List.foldlM_append, List.foldlM_cons, List.foldlM_nil, Option.bind_eq_bind,
    Option.pure_def, Option.bind_fun_some]

/-- What is cut off ends at the first byte where the machine stops. -/
theorem exists_of_cut_eq {input : Bytes} (h : cut step s input = (some raw, rest)) :
    ∃ t b, input = raw ++ b :: rest ∧ raw.foldlM step s = some t ∧ step t b = none := by
  induction input generalizing s raw with
  | nil => cases h
  | cons c input ih =>
    rw [cut] at h
    split at h
    · next hc =>
      cases h
      exact ⟨s, c, rfl, rfl, hc⟩
    · next u hu =>
      simp only [Prod.mk.injEq, Option.map_eq_some_iff] at h
      obtain ⟨⟨raw, hr, rfl⟩, rfl⟩ := h
      obtain ⟨t, b, hi, hf, hb⟩ := ih (Prod.ext hr rfl)
      refine ⟨t, b, congrArg (c :: ·) hi, ?_, hb⟩
      rw [List.foldlM_cons, hu]
      exact hf

end Machine

section Tag

theorem foldlM_stepTag {bs : Bytes}
    (h : ∀ b ∈ bs, b ≠ ascii '>' ∧ b ≠ ascii '"' ∧ b ≠ ascii '\'') :
    bs.foldlM stepTag none = some none := by
  induction bs with
  | nil => rfl
  | cons b bs ih =>
    obtain ⟨hg, hq, ha⟩ := h b (.head _)
    have hs : stepTag none b = some none := by
      rw [stepTag, if_neg hg, if_neg (not_or.mpr ⟨hq, ha⟩)]
    rw [List.foldlM_cons, hs]
    exact ih fun c hc => h c (.tail _ hc)

theorem foldlM_stepTag_name {s : String} (h : Uncut s) :
    (encode s).foldlM stepTag none = some none :=
  foldlM_stepTag fun _ => h.of_mem

theorem foldlM_stepTag_quoted {bs : Bytes} {quote : UInt8} (h : ∀ b ∈ bs, b ≠ quote) :
    bs.foldlM stepTag (some quote) = some (some quote) := by
  induction bs with
  | nil => rfl
  | cons b bs ih =>
    have hs : stepTag (some quote) b = some (some quote) := by
      rw [stepTag, if_neg (h b (.head _))]
    rw [List.foldlM_cons, hs]
    exact ih fun c hc => h c (.tail _ hc)

theorem foldlM_stepTag_attribute {a : Attribute} (h : isName a.name = true) :
    (encode a.markup).foldlM stepTag none = some none := by
  have hs : stepTag none (ascii ' ') = some none := by decide
  have he : stepTag none (ascii '=') = some none := by decide
  have ho : stepTag none (ascii '"') = some (some (ascii '"')) := by decide
  have hc : stepTag (some (ascii '"')) (ascii '"') = some none := by decide
  have hv : (encode (Text.escapeAttribute a.value)).foldlM stepTag (some (ascii '"')) =
      some (some (ascii '"')) :=
    foldlM_stepTag_quoted fun _ hb => ne_quote_of_mem_value hb
  simp only [encode_attribute, quotedBytes, List.foldlM_cons, List.foldlM_append,
    List.foldlM_nil, hs, he, ho, hc, hv, foldlM_stepTag_name (enclosed_of_isName h).toUncut,
    Option.bind_eq_bind, Option.bind_some, Option.pure_def]

theorem EnclosedTag.foldlM_stepTag {name : String} {as : List Attribute}
    (h : EnclosedTag name as) :
    (encode (tagMarkup name as)).foldlM stepTag none = some none := by
  have has : (as.flatMap fun a => encode a.markup).foldlM stepTag none = some none := by
    have hn := h.names
    clear h
    induction as with
    | nil => rfl
    | cons a as ih =>
      rw [List.flatMap_cons, List.foldlM_append, foldlM_stepTag_attribute (hn a (.head _))]
      exact ih fun b hb => hn b (.tail _ hb)
  rw [encode_tagMarkup, List.foldlM_append, foldlM_stepTag_name h.name.toUncut]
  exact has

end Tag

section Instruction

theorem foldlM_stepInstruction {bs : Bytes} {marked : Bool}
    (hh : marked = true → bs.head? ≠ some (ascii '>'))
    (h : ¬ [ascii '?', ascii '>'] <:+: bs) :
    ∃ m, bs.foldlM stepInstruction marked = some m := by
  induction bs generalizing marked with
  | nil => exact ⟨marked, rfl⟩
  | cons b bs ih =>
    have hs : stepInstruction marked b = some (decide (b = ascii '?')) := by
      rw [stepInstruction, if_neg]
      rintro ⟨hm, rfl⟩
      exact hh hm rfl
    have hb : decide (b = ascii '?') = true → bs.head? ≠ some (ascii '>') := by
      intro hq hg
      obtain ⟨rest, rfl⟩ := List.head?_eq_some_iff.mp hg
      rw [decide_eq_true_iff] at hq
      exact h ⟨[], rest, by rw [hq]; rfl⟩
    obtain ⟨m, hm⟩ := ih hb fun hi => h (hi.trans (List.suffix_cons b bs).isInfix)
    exact ⟨m, by rw [List.foldlM_cons, hs]; exact hm⟩

theorem not_infix_of_foldlM_stepInstruction {bs : Bytes} {marked m : Bool}
    (h : bs.foldlM stepInstruction marked = some m) : ¬ [ascii '?', ascii '>'] <:+: bs := by
  rintro ⟨before, rest, rfl⟩
  rw [List.append_assoc, List.foldlM_append] at h
  obtain ⟨n, -, hr⟩ := Option.bind_eq_some_iff.mp h
  cases n <;> cases hr

theorem cut_instruction {bs : Bytes} (h : ¬ [ascii '?', ascii '>'] <:+: bs)
    (hh : bs.head? ≠ some (ascii '>')) (rest : Bytes) :
    cut stepInstruction false (ascii '?' :: (bs ++ [ascii '?']) ++ ascii '>' :: rest) =
      (some (ascii '?' :: (bs ++ [ascii '?'])), rest) := by
  obtain ⟨m, hm⟩ : ∃ m, bs.foldlM stepInstruction true = some m :=
    foldlM_stepInstruction (fun _ => hh) h
  have hq (marked : Bool) : stepInstruction marked (ascii '?') = some true := by
    cases marked <;> decide
  refine cut_append (t := true) ?_ rfl
  rw [List.foldlM_cons, hq, Option.bind_eq_bind, Option.bind_some, foldlM_concat, hm]
  exact hq m

end Instruction

section Comment

theorem stepComment_eq_some {s t : Nat × Nat} {b : UInt8} :
    stepComment s b = some t ↔ ¬ (5 ≤ s.1 ∧ 2 ≤ s.2 ∧ b = ascii '>') ∧
      t = (s.1 + 1, if b = ascii '-' then s.2 + 1 else 0) := by
  obtain ⟨size, dashes⟩ := s
  rw [stepComment, Option.ite_none_left_eq_some, Option.some.injEq, eq_comm (a := t)]

/-- How many dashes stand at the end. -/
def endDashes (bs : Bytes) : Nat :=
  (bs.reverse.takeWhile (· = ascii '-')).length

theorem endDashes_concat (bs : Bytes) (b : UInt8) :
    endDashes (bs ++ [b]) = if b = ascii '-' then endDashes bs + 1 else 0 := by
  unfold endDashes
  rw [List.reverse_concat, List.takeWhile_cons]
  split <;> simp_all

theorem two_le_endDashes {bs : Bytes} (x y : UInt8) (h : 2 ≤ endDashes (bs ++ [x, y])) :
    x = ascii '-' ∧ y = ascii '-' := by
  have he : bs ++ [x, y] = bs ++ [x] ++ [y] := by rw [List.append_assoc, List.singleton_append]
  rw [he, endDashes_concat, endDashes_concat] at h
  split at h
  · next hy =>
    split at h
    · next hx => exact ⟨hx, hy⟩
    · omega
  · omega

theorem foldlM_stepComment_eq {bs : Bytes} {t : Nat × Nat}
    (h : bs.foldlM stepComment (0, 0) = some t) : t = (bs.length, endDashes bs) := by
  induction bs using List.reverseRecOn generalizing t with
  | nil =>
    cases h
    rfl
  | append_singleton bs b ih =>
    rw [foldlM_concat] at h
    obtain ⟨u, hu, hb⟩ := Option.bind_eq_some_iff.mp h
    rw [(stepComment_eq_some.mp hb).2, ih hu, endDashes_concat, List.length_append]
    rfl

/-- The bytes with which a comment begins behind its opening bracket. -/
def commentStart : Bytes :=
  [ascii '!', ascii '-', ascii '-']

def commentEnd : Bytes :=
  [ascii '-', ascii '-', ascii '>']

theorem exists_eq_append_pair {bs : Bytes} (h : 2 ≤ bs.length) :
    ∃ cs x y, bs = cs ++ [x, y] := by
  rcases List.eq_nil_or_concat bs with rfl | ⟨ds, y, rfl⟩
  · cases h
  · rw [List.concat_eq_append, List.length_append] at h
    rcases List.eq_nil_or_concat ds with rfl | ⟨cs, x, rfl⟩
    · cases h with
      | step h => cases h
    · exact ⟨cs, x, y, by rw [List.concat_eq_append, List.concat_eq_append, List.append_assoc]; rfl⟩

theorem foldlM_stepComment {bs : Bytes} (h : ¬ commentEnd <:+: bs) :
    ∃ t, (commentStart ++ bs).foldlM stepComment (0, 0) = some t := by
  induction bs using List.reverseRecOn with
  | nil => exact ⟨_, rfl⟩
  | append_singleton bs b ih =>
    obtain ⟨t, ht⟩ := ih fun hi => h (hi.trans (List.prefix_append bs [b]).isInfix)
    have hb : ¬ (5 ≤ t.1 ∧ 2 ≤ t.2 ∧ b = ascii '>') := by
      rw [foldlM_stepComment_eq ht]
      rintro ⟨hl, hd, rfl⟩
      rw [List.length_append] at hl
      obtain ⟨cs, x, y, rfl⟩ : ∃ cs x y, bs = cs ++ [x, y] :=
        exists_eq_append_pair (Nat.le_of_add_le_add_left hl)
      rw [← List.append_assoc] at hd
      obtain ⟨rfl, rfl⟩ := two_le_endDashes x y hd
      exact h ⟨cs, [], by simp [commentEnd]⟩
    refine ⟨(t.1 + 1, if b = ascii '-' then t.2 + 1 else 0), ?_⟩
    rw [← List.append_assoc, foldlM_concat, ht]
    exact stepComment_eq_some.mpr ⟨hb, rfl⟩

/-- What passes without a stop holds no end of a comment behind the first three bytes. -/
theorem not_infix_of_foldlM_stepComment {bs : Bytes} {t : Nat × Nat}
    (h : (commentStart ++ bs).foldlM stepComment (0, 0) = some t) : ¬ commentEnd <:+: bs := by
  rintro ⟨before, rest, rfl⟩
  have hs : commentStart ++ (before ++ commentEnd ++ rest) =
      commentStart ++ before ++ [ascii '-'] ++ [ascii '-'] ++ [ascii '>'] ++ rest := by
    simp only [commentEnd, List.append_assoc, List.cons_append, List.nil_append]
  rw [hs, List.foldlM_append] at h
  obtain ⟨u, hu, -⟩ := Option.bind_eq_some_iff.mp h
  rw [foldlM_concat] at hu
  obtain ⟨v, hv, hu⟩ := Option.bind_eq_some_iff.mp hu
  apply (stepComment_eq_some.mp hu).1
  rw [foldlM_stepComment_eq hv, endDashes_concat, endDashes_concat]
  simp only [List.length_append, commentStart, List.length_cons, List.length_nil, if_true,
    and_true]
  omega

theorem cut_comment {bs : Bytes} (h : ¬ commentEnd <:+: bs) (rest : Bytes) :
    cut stepComment (0, 0) (commentStart ++ (bs ++ [ascii '-', ascii '-']) ++ ascii '>' :: rest) =
      (some (commentStart ++ (bs ++ [ascii '-', ascii '-'])), rest) := by
  have hs : bs ++ [ascii '-', ascii '-'] = bs ++ [ascii '-'] ++ [ascii '-'] := by
    rw [List.append_assoc, List.singleton_append]
  have hne (ds : Bytes) : ¬ commentEnd <:+ ds ++ [ascii '-'] := by
    rintro ⟨es, he⟩
    have hl := congrArg List.getLast? he
    rw [List.getLast?_append, List.getLast?_concat] at hl
    have hd : some (ascii '>') = some (ascii '-') := hl
    exact absurd hd (by decide)
  have hi : ¬ commentEnd <:+: bs ++ [ascii '-', ascii '-'] := by
    rw [hs, List.infix_concat_iff, List.infix_concat_iff]
    exact not_or.mpr ⟨hne _, not_or.mpr ⟨hne _, h⟩⟩
  obtain ⟨t, ht⟩ := foldlM_stepComment hi
  apply cut_append ht
  rw [foldlM_stepComment_eq ht, hs, ← List.append_assoc, ← List.append_assoc, endDashes_concat,
    endDashes_concat, if_pos rfl, if_pos rfl, stepComment, if_pos]
  simp only [List.length_append, commentStart, List.length_cons, List.length_nil, and_true]
  omega

end Comment

end ChunkConfig.Xml
