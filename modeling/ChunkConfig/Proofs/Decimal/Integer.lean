import ChunkConfig.Decimal.Integer
import ChunkConfig.Text.Blank

namespace ChunkConfig.Decimal

theorem isBlank_eq_false_of_isDigit {c : Char} (h : c.isDigit = true) :
    Text.isBlank c = false := by
  have hr : 48 ≤ c.toNat ∧ c.toNat ≤ 57 := Char.isDigit_iff_toNat.mp h
  simp only [Text.isBlank, Text.blankRanges, List.any_cons, List.any_nil, Bool.or_false,
    Bool.or_eq_false_iff, Bool.and_eq_false_iff, decide_eq_false_iff_not]
  omega

theorem toLower_of_isDigit {c : Char} (h : c.isDigit = true) : c.toLower = c := by
  have hr : 48 ≤ c.toNat ∧ c.toNat ≤ 57 := Char.isDigit_iff_toNat.mp h
  have hu : ¬ (c.val ≥ 65 ∧ c.val ≤ 90) := by
    intro hc
    have := UInt32.le_iff_toNat_le.mp hc.1
    change 65 ≤ c.toNat at this
    omega
  exact dif_neg hu

theorem toList_toString (n : Nat) : (toString n).toList = Nat.toDigits 10 n := by
  rw [Nat.toString_eq_repr, Nat.toList_repr]

theorem isDigit_of_mem_toString {n : Nat} {c : Char} (h : c ∈ (toString n).toList) :
    c.isDigit = true := by
  rw [toList_toString] at h
  exact Nat.isDigit_of_mem_toDigits (by decide) (by decide) h

theorem natural?_toDigits (n : Nat) : natural? (Nat.toDigits 10 n) = some n := by
  have he : (Nat.toDigits 10 n).isEmpty = false := by
    simp only [List.isEmpty_eq_false_iff]
    exact Nat.toDigits_ne_nil
  have hd : (Nat.toDigits 10 n).all Char.isDigit = true :=
    List.all_eq_true.mpr fun _ hc => Nat.isDigit_of_mem_toDigits (by decide) (by decide) hc
  have hv : value (Nat.toDigits 10 n) = n := by
    rw [value, ← Nat.ofDigitChars_eq_foldl, Nat.ofDigitChars_ten_toDigits]
  simp only [natural?, he, hd, hv, Bool.not_true, Bool.or_false, Bool.false_eq_true, if_false]

theorem count?_toString (n : Nat) : count? (toString n) = some n := by
  rw [count?]
  split
  · next cs hc =>
    have hp : '+' ∈ (toString n).toList := by simp only [hc, List.mem_cons_self]
    exact absurd (isDigit_of_mem_toString hp) (by decide)
  · rw [toList_toString, natural?_toDigits]

theorem splitSign_of_isDigit {cs : List Char} (h : ∀ c ∈ cs, c.isDigit = true) :
    splitSign cs = (false, cs) := by
  unfold splitSign
  split
  · exact absurd (h '-' (.head _)) (by decide)
  · exact absurd (h '+' (.head _)) (by decide)
  · rfl

theorem int64Text_eq (n : Int64) : int64Text n =
    if 0 ≤ n.toInt then toString n.toInt.toNat else "-" ++ toString (-n.toInt).toNat :=
  Int.repr_eq_if

/-- A written integer reads back. -/
theorem int64?_int64Text (n : Int64) : int64? (int64Text n) = some n := by
  have hinteger : integer? (int64Text n).toList = some n.toInt := by
    by_cases h : 0 ≤ n.toInt
    · rw [int64Text_eq, if_pos h, integer?,
        splitSign_of_isDigit fun _ => isDigit_of_mem_toString, toList_toString]
      simp only [natural?_toDigits]
      exact congrArg some (Int.toNat_of_nonneg h)
    · have hsplit : splitSign ("-".toList ++ Nat.toDigits 10 (-n.toInt).toNat) =
          (true, Nat.toDigits 10 (-n.toInt).toNat) := rfl
      have hneg : -((-n.toInt).toNat : Int) = n.toInt := by omega
      rw [int64Text_eq, if_neg h, String.toList_append, toList_toString, integer?, hsplit]
      simp only [natural?_toDigits]
      exact congrArg some hneg
  have hrange : Int64.minValue.toInt ≤ n.toInt ∧ n.toInt ≤ Int64.maxValue.toInt :=
    ⟨n.minValue_le_toInt, n.toInt_le⟩
  rw [int64?, hinteger, Option.filter_some, if_pos (decide_eq_true hrange), Option.map_some,
    Int64.ofInt_toInt]

end ChunkConfig.Decimal
