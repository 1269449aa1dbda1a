import ChunkConfig.Text.Escape
import ChunkConfig.Text.Reference
import ChunkConfig.Proofs.Span
import Mathlib.Data.List.Basic

namespace ChunkConfig.Text

theorem expandName_name {name : List Char} (hn : ∀ c ∈ name, c ≠ ';' ∧ c ≠ '&')
    (size start index : Nat) (before rest : List Char) :
    ∃ stop, expandName size start index before (name ++ ';' :: rest) =
      match resolve (start + 1) stop (before.reverse ++ name) with
      | .error e => .error e
      | .ok r => (r :: ·) <$> expandFrom size (stop + 1) rest := by
  induction name generalizing index before with
  | nil =>
    refine ⟨index, ?_⟩
    rw [List.nil_append, List.append_nil, expandName]
    exact if_pos rfl
  | cons c name ih =>
    obtain ⟨hs, ha⟩ := hn c (.head _)
    obtain ⟨stop, h⟩ := ih (fun d hd => hn d (.tail _ hd)) (index + c.utf8Size) (c :: before)
    refine ⟨stop, ?_⟩
    rw [List.cons_append, expandName, if_neg hs, if_neg ha, h, List.reverse_cons,
      List.append_assoc, List.singleton_append]

/-- How a reference with a given name is written. -/
def reference (name : String) : List Char :=
  '&' :: name.toList ++ [';']

theorem expandFrom_reference {name : String} {c : Char}
    (hn : ∀ d ∈ name.toList, d ≠ ';' ∧ d ≠ '&')
    (hc : ∀ start stop, resolve start stop name.toList = .ok c) (size index : Nat)
    (rest : List Char) :
    ∃ next, expandFrom size index (reference name ++ rest) =
      (c :: ·) <$> expandFrom size next rest := by
  obtain ⟨stop, h⟩ := expandName_name hn size index (index + 1) [] rest
  refine ⟨stop + 1, ?_⟩
  rw [reference, List.append_assoc, List.singleton_append, List.cons_append, expandFrom,
    if_pos rfl, h, List.reverse_nil, List.nil_append, hc]

theorem expandFrom_char {c : Char} (hc : c ≠ '&') (size index : Nat) (rest : List Char) :
    ∃ next, expandFrom size index (c :: rest) = (c :: ·) <$> expandFrom size next rest :=
  ⟨index + c.utf8Size, by rw [expandFrom, if_neg hc]⟩

/-- A character with its reference put in its place, if it is one of those with a name. -/
def substitute (name? : Char → Option String) (c : Char) : List Char :=
  match name? c with
  | some name => reference name
  | none => [c]

section Substitute

variable {name? : Char → Option String}

theorem substitute_ne_nil (name? : Char → Option String) (c : Char) :
    substitute name? c ≠ [] := by
  rw [substitute]
  split <;> exact List.cons_ne_nil _ _

theorem substitute_of_unnamed {c : Char} (h : name? c = none) : substitute name? c = [c] := by
  rw [substitute]
  simp only [h]

theorem substitute_eq_singleton_iff {c d : Char} :
    substitute name? c = [d] ↔ c = d ∧ name? c = none := by
  rw [substitute]
  split
  · next name hc =>
    refine iff_of_false (fun h => ?_) fun h => ?_
    · exact List.append_ne_nil_of_right_ne_nil _ (List.cons_ne_nil _ _) (List.cons.inj h).2
    · exact nomatch hc.symm.trans h.2
  · next hc => rw [List.singleton_inj, and_iff_left hc]

theorem length_le_flatMap (name? : Char → Option String) (cs : List Char) :
    cs.length ≤ (cs.flatMap (substitute name?)).length := by
  induction cs with
  | nil => exact Nat.le_refl 0
  | cons c cs ih =>
    have hc := List.length_pos_iff.mpr (substitute_ne_nil name? c)
    rw [List.flatMap_cons, List.length_append, List.length_cons]
    omega

/-- Text stays as it is exactly when none of its characters has a name. -/
theorem flatMap_substitute_eq_self_iff {cs : List Char} :
    cs.flatMap (substitute name?) = cs ↔ ∀ c ∈ cs, name? c = none := by
  induction cs with
  | nil => exact iff_of_true rfl nofun
  | cons c cs ih =>
    rw [List.flatMap_cons, List.forall_mem_cons, ← ih]
    constructor
    · intro h
      change _ = [c] ++ cs at h
      have hc := List.length_pos_iff.mpr (substitute_ne_nil name? c)
      have hcs := length_le_flatMap name? cs
      have hl := congrArg List.length h
      rw [List.length_append, List.length_append] at hl
      -- No form is shorter than its character, so neither of the two is longer.
      obtain ⟨h₁, h₂⟩ := List.append_inj h (by rw [List.length_singleton] at *; omega)
      exact ⟨(substitute_eq_singleton_iff.mp h₁).2, h₂⟩
    · rintro ⟨hc, hcs⟩
      rw [substitute_eq_singleton_iff.mpr ⟨rfl, hc⟩, hcs]
      rfl

end Substitute

/-- Names for characters, the ampersand among them, that can be read back. None holds a character
that has a name itself. -/
structure Naming (name? : Char → Option String) : Prop where
  ampersand : name? '&' ≠ none
  semicolon : name? ';' = none
  plain : ∀ c name, name? c = some name → ∀ d ∈ name.toList, d ≠ ';' ∧ name? d = none
  resolve_eq : ∀ c name, name? c = some name →
    ∀ start stop, resolve start stop name.toList = .ok c

section Naming

variable {name? : Char → Option String} (h : Naming name?)
include h

theorem Naming.expandFrom_substitute (c : Char) (size index : Nat) (rest : List Char) :
    ∃ next, expandFrom size index (substitute name? c ++ rest) =
      (c :: ·) <$> expandFrom size next rest := by
  rw [substitute]
  split
  · next name hc =>
    apply expandFrom_reference _ (h.resolve_eq c name hc)
    intro d hd
    obtain ⟨hs, hn⟩ := h.plain c name hc d hd
    exact ⟨hs, fun ha => h.ampersand (ha ▸ hn)⟩
  · next hc => exact expandFrom_char (fun ha => h.ampersand (ha ▸ hc)) size index rest

theorem Naming.expandFrom_flatMap (cs : List Char) (size index : Nat) :
    expandFrom size index (cs.flatMap (substitute name?)) = .ok cs := by
  induction cs generalizing index with
  | nil => rw [List.flatMap_nil, expandFrom]
  | cons c cs ih =>
    obtain ⟨next, hc⟩ := h.expandFrom_substitute c size index (cs.flatMap (substitute name?))
    rw [List.flatMap_cons, hc, ih]
    rfl

theorem Naming.not_mem_flatMap {c : Char} (hc : name? c ≠ none) (ha : c ≠ '&') (cs : List Char) :
    c ∉ cs.flatMap (substitute name?) := by
  rw [List.mem_flatMap]
  rintro ⟨d, -, hm⟩
  rw [substitute] at hm
  split at hm
  · next name hd =>
    rw [reference, List.cons_append, List.mem_cons, List.mem_append, List.mem_singleton] at hm
    rcases hm with hm | hm | hm
    · exact ha hm
    · exact hc (h.plain d name hd c hm).2
    · exact hc (hm ▸ h.semicolon)
  · next hd =>
    rw [List.mem_singleton.mp hm] at hc
    exact hc hd

/-- Every ampersand that is written begins a reference. -/
theorem Naming.exists_reference {cs after : List Char}
    (hs : '&' :: after <:+ cs.flatMap (substitute name?)) :
    ∃ c name, name? c = some name ∧ reference name <+: '&' :: after := by
  induction cs with
  | nil => exact absurd (List.suffix_nil.mp hs) (List.cons_ne_nil _ _)
  | cons c cs ih =>
    rw [List.flatMap_cons, substitute] at hs
    split at hs
    · next name hc =>
      have ha : '&' ∉ name.toList ++ [';'] := by
        rw [List.mem_append, List.mem_singleton]
        rintro (hm | hm)
        · exact h.ampersand (h.plain c name hc '&' hm).2
        · cases hm
      rw [reference, List.cons_append, List.cons_append, List.suffix_cons_iff] at hs
      rcases hs with hs | hs
      · exact ⟨c, name, hc, hs ▸ List.prefix_append (reference name) _⟩
      · exact ih (suffix_of_suffix_append ha hs)
    · next hc =>
      apply ih (suffix_of_suffix_append _ hs)
      rw [List.mem_singleton]
      exact fun ha => h.ampersand (ha ▸ hc)

end Naming

/-- The names of the characters that are replaced in the text of an element. -/
def textName? : Char → Option String
  | '&' => some "amp"
  | '<' => some "lt"
  | '>' => some "gt"
  | _ => none

/-- The names of the characters that are replaced between double quotes on one line. -/
def attributeName? : Char → Option String
  | '&' => some "amp"
  | '<' => some "lt"
  | '>' => some "gt"
  | '"' => some "quot"
  | '\n' => some "#xA"
  | _ => none

theorem naming_textName? : Naming textName? where
  ampersand := nofun
  semicolon := rfl
  plain c name h := by
    unfold textName? at h
    split at h <;> cases h <;> exact forall_mem_of_all (by decide)
  resolve_eq c name h := by
    unfold textName? at h
    split at h <;> cases h <;> exact fun _ _ => rfl

theorem naming_attributeName? : Naming attributeName? where
  ampersand := nofun
  semicolon := rfl
  plain c name h := by
    unfold attributeName? at h
    split at h <;> cases h <;> exact forall_mem_of_all (by decide)
  resolve_eq c name h := by
    unfold attributeName? at h
    split at h <;> cases h <;> exact fun _ _ => rfl

theorem textName?_of_ne {c : Char} (ha : c ≠ '&') (hl : c ≠ '<') (hg : c ≠ '>') :
    textName? c = none := by
  rw [textName?] <;> assumption

theorem attributeName?_eq_textName? {c : Char} (hq : c ≠ '"') (hn : c ≠ '\n') :
    attributeName? c = textName? c := by
  unfold attributeName?
  split
  · rfl
  · rfl
  · rfl
  · exact absurd rfl hq
  · exact absurd rfl hn
  · next ha hl hg _ _ => exact (textName?_of_ne ha hl hg).symm

theorem escapeTextChar_eq (c : Char) : escapeTextChar c = substitute textName? c := by
  unfold escapeTextChar
  split
  · rfl
  · rfl
  · rfl
  · next ha hl hg => exact (substitute_of_unnamed (textName?_of_ne ha hl hg)).symm

/-- The two passes over a character come to one. -/
theorem flatMap_escapeQuotedChar (c : Char) :
    (escapeTextChar c).flatMap escapeQuotedChar = substitute attributeName? c := by
  unfold escapeTextChar
  split
  · rfl
  · rfl
  · rfl
  · next ha hl hg =>
    rw [List.flatMap_singleton]
    unfold escapeQuotedChar
    split
    · rfl
    · rfl
    · next hq hn =>
      have hc : attributeName? c = none :=
        (attributeName?_eq_textName? hq hn).trans (textName?_of_ne ha hl hg)
      exact (substitute_of_unnamed hc).symm

/-- Text that needs no copy stands for itself in the same way as the copy would. -/
theorem toList_escapeText (s : String) :
    (escapeText s).toList = s.toList.flatMap (substitute textName?) := by
  rw [escapeText]
  split
  · rw [String.toList_ofList, funext escapeTextChar_eq]
  · next h =>
    rw [List.any_eq_true, not_exists] at h
    symm
    rw [flatMap_substitute_eq_self_iff]
    intro c hc
    obtain ⟨ha, hl, hg⟩ : c ≠ '&' ∧ c ≠ '<' ∧ c ≠ '>' := by simpa [hc] using h c
    exact textName?_of_ne ha hl hg

theorem toList_escapeAttribute (s : String) :
    (escapeAttribute s).toList = s.toList.flatMap (substitute attributeName?) := by
  rw [escapeAttribute]
  split
  · rw [String.toList_ofList, toList_escapeText, List.flatMap_assoc, ← funext escapeTextChar_eq,
      funext flatMap_escapeQuotedChar]
  · next h =>
    rw [List.any_eq_true, not_exists] at h
    rw [toList_escapeText]
    refine List.flatMap_congr fun c hc => ?_
    obtain ⟨hq, hn⟩ : c ≠ '"' ∧ c ≠ '\n' := by simpa [hc] using h c
    rw [substitute, substitute, attributeName?_eq_textName? hq hn]

theorem expand_escapeText (s : String) : expand (escapeText s).toList = .ok s.toList := by
  rw [expand, toList_escapeText]
  exact naming_textName?.expandFrom_flatMap _ _ _

theorem expand_escapeAttribute (s : String) : expand (escapeAttribute s).toList = .ok s.toList := by
  rw [expand, toList_escapeAttribute]
  exact naming_attributeName?.expandFrom_flatMap _ _ _

theorem lt_not_mem_escapeText (s : String) : '<' ∉ (escapeText s).toList := by
  rw [toList_escapeText]
  exact naming_textName?.not_mem_flatMap (by decide) (by decide) _

theorem quote_not_mem_escapeAttribute (s : String) : '"' ∉ (escapeAttribute s).toList := by
  rw [toList_escapeAttribute]
  exact naming_attributeName?.not_mem_flatMap (by decide) (by decide) _

end ChunkConfig.Text
