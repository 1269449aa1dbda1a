import ChunkConfig.Decimal.Float
import ChunkConfig.Proofs.Decimal.Integer
import ChunkConfig.Proofs.Text.Tokens

namespace ChunkConfig.Decimal

theorem plain_of_isDigit {c : Char} (h : c.isDigit = true) : Text.Plain c := by
  refine ⟨isBlank_eq_false_of_isDigit h, ?_⟩
  rintro rfl
  exact absurd h (by decide)

theorem toString_ne_empty (n : Nat) : toString n ≠ "" := by
  rw [Nat.toString_eq_repr, Ne, ← String.toList_eq_nil_iff, Nat.toList_repr]
  exact Nat.toDigits_ne_nil

theorem plain_of_mem_toString {n : Nat} {c : Char} (h : c ∈ (toString n).toList) : Text.Plain c :=
  plain_of_isDigit (isDigit_of_mem_toString h)

theorem quote?_int64Text (n : Int64) : Text.quote? (int64Text n) = some (int64Text n) := by
  have hm : Text.Plain '-' := by
    rw [Text.Plain]
    decide
  rw [int64Text_eq]
  split
  · exact Text.quote?_of_plain (toString_ne_empty _) fun _ => plain_of_mem_toString
  · refine Text.quote?_of_plain ?_ fun c hc => ?_
    · rw [Ne, String.append_eq_empty_iff]
      intro h
      exact toString_ne_empty _ h.2
    · rw [String.toList_append, List.mem_append] at hc
      rcases hc with hc | hc
      · rw [List.mem_singleton.mp hc]
        exact hm
      · exact plain_of_mem_toString hc

theorem isDigit_of_mem_padded {digits : List Char} (hd : ∀ c ∈ digits, c.isDigit = true)
    (m n : Nat) {c : Char}
    (h : c ∈ List.replicate m '0' ++ (digits ++ List.replicate n '0')) : c.isDigit = true := by
  rw [List.mem_append, List.mem_append] at h
  rcases h with h | h | h
  · rw [List.eq_of_mem_replicate h]
    decide
  · exact hd c h
  · rw [List.eq_of_mem_replicate h]
    decide

/-- A number without exponent begins with a digit and holds but digits and a point. -/
theorem Scientific.positional_plain (d : Scientific) :
    d.positional ≠ "" ∧ ∀ c ∈ d.positional.toList, Text.Plain c := by
  have hpoint : Text.Plain '.' := by
    rw [Text.Plain]
    decide
  unfold Scientific.positional
  extract_lets digits whole places padded fraction front
  have hd : ∀ c ∈ padded, Text.Plain c := fun c hc =>
    plain_of_isDigit (isDigit_of_mem_padded (fun _ => isDigit_of_mem_toString) _ _ hc)
  have hl : places + 1 ≤ padded.length := by
    rw [List.length_append, List.length_replicate]
    omega
  have hfront : front ≠ [] := by
    rw [Ne, List.take_eq_nil_iff, not_or]
    refine ⟨by omega, fun h => ?_⟩
    rw [h, List.length_nil] at hl
    omega
  have hf : ∀ c ∈ front, Text.Plain c := fun c hc => hd c (List.mem_of_mem_take hc)
  have hr : ∀ c ∈ fraction.reverse, Text.Plain c := by
    intro c hc
    have hw := (List.dropWhile_suffix _).mem (List.mem_reverse.mp hc)
    exact hd c (List.mem_of_mem_drop (List.mem_reverse.mp hw))
  refine ⟨?_, fun c hc => ?_⟩
  · rw [Ne, ← String.toList_eq_nil_iff, String.toList_ofList]
    split
    · exact hfront
    · intro h
      exact hfront (List.append_eq_nil_iff.mp h).1
  · rw [String.toList_ofList] at hc
    split at hc
    · exact hf c hc
    · rcases List.mem_append.mp hc with hc | hc
      · exact hf c hc
      · rcases List.mem_cons.mp hc with rfl | hc
        · exact hpoint
        · exact hr c hc

theorem quote?_floatText (x : Float) : Text.quote? (floatText x) = some (floatText x) := by
  have hminus : Text.Plain '-' := by
    rw [Text.Plain]
    decide
  unfold floatText
  extract_lets bits exponent fraction sign significand narrow
  have hsign : ∀ c ∈ sign.toList, Text.Plain c := by
    intro c hc
    unfold sign at hc
    split at hc
    · cases hc
    · rw [List.mem_singleton.mp hc]
      exact hminus
  have happend {s : String} (hs : s ≠ "" ∧ ∀ c ∈ s.toList, Text.Plain c) :
      Text.quote? (sign ++ s) = some (sign ++ s) := by
    refine Text.quote?_of_plain ?_ fun c hc => ?_
    · rw [Ne, String.append_eq_empty_iff]
      intro h
      exact hs.1 h.2
    · rw [String.toList_append, List.mem_append] at hc
      exact hc.elim (hsign c) (hs.2 c)
  have hword (s : String) (hs : s ≠ "")
      (hc : (s.toList.all fun c => !Text.isBlank c && decide (c ≠ '"')) = true) :
      s ≠ "" ∧ ∀ c ∈ s.toList, Text.Plain c := by
    refine ⟨hs, fun c hm => ?_⟩
    have hp := List.all_eq_true.mp hc c hm
    rw [Bool.and_eq_true, Bool.not_eq_true', decide_eq_true_iff] at hp
    exact hp
  split
  · split
    · exact happend (hword "inf" (by decide) (by decide))
    · rfl
  · split
    · split
      · exact happend (hword "0" (by decide) (by decide))
      · exact happend (Scientific.positional_plain _)
    · exact happend (Scientific.positional_plain _)

end ChunkConfig.Decimal
