import ChunkConfig.Text.Utf8

namespace ChunkConfig.Text

theorem lead?_one {n : Nat} (h : n < 0x80) : lead? (.ofNat n) = some ⟨n, 0, 0x80, 0xBF⟩ := by
  revert n
  decide

theorem lead?_two {n : Nat} (h : n < 0x20) (hn : 2 ≤ n) :
    lead? (.ofNat (n + 0xC0)) = some ⟨n, 1, 0x80, 0xBF⟩ := by
  revert n
  decide

theorem lead?_three {n : Nat} (h : n < 0x10) : lead? (.ofNat (n + 0xE0)) =
    some ⟨n, 2, if n = 0 then 0xA0 else 0x80, if n = 0xD then 0x9F else 0xBF⟩ := by
  revert n
  decide

theorem lead?_four {n : Nat} (h : n < 5) : lead? (.ofNat (n + 0xF0)) =
    some ⟨n, 3, if n = 0 then 0x90 else 0x80, if n = 4 then 0x8F else 0xBF⟩ := by
  revert n
  decide

section Tail

variable {index seen more n value : Nat} {low high : UInt8} {rest : Bytes}

theorem toNat_tail (hn : n < 0x40) : (UInt8.ofNat (n + 0x80)).toNat = n + 0x80 := by
  rw [UInt8.toNat_ofNat', Nat.mod_eq_of_lt (by omega)]

theorem within_tail (hn : n < 0x40) (hl : low.toNat ≤ n + 0x80) (hh : n + 0x80 ≤ high.toNat) :
    low ≤ .ofNat (n + 0x80) ∧ .ofNat (n + 0x80) ≤ high := by
  rw [UInt8.le_iff_toNat_le, UInt8.le_iff_toNat_le, toNat_tail hn]
  exact ⟨hl, hh⟩

theorem decodeTail_last (hn : n < 0x40) (hl : low.toNat ≤ n + 0x80) (hh : n + 0x80 ≤ high.toNat) :
    decodeTail index seen 0 low high value (.ofNat (n + 0x80) :: rest) =
      (Char.ofNat (value * 64 + n) :: ·) <$> decodeFrom (index + seen + 1) rest := by
  rw [decodeTail, if_pos (within_tail hn hl hh), toNat_tail hn, Nat.add_sub_cancel]

theorem decodeTail_more (hn : n < 0x40) (hl : low.toNat ≤ n + 0x80) (hh : n + 0x80 ≤ high.toNat) :
    decodeTail index seen (more + 1) low high value (.ofNat (n + 0x80) :: rest) =
      decodeTail index (seen + 1) more 0x80 0xBF (value * 64 + n) rest := by
  rw [decodeTail, if_pos (within_tail hn hl hh), toNat_tail hn, Nat.add_sub_cancel]

end Tail

section Lead

variable {n m k l index : Nat} {rest : Bytes}

theorem le_low (n : Nat) : (0x80 : UInt8).toNat ≤ n + 0x80 :=
  Nat.le_add_left 0x80 n

theorem le_high (hn : n < 0x40) : n + 0x80 ≤ (0xBF : UInt8).toNat := by
  change _ ≤ 0xBF
  omega

theorem decodeFrom_three (hn : n < 0x10) (hm : m < 0x40) (hk : k < 0x40)
    (hfirst : n = 0 → 0x20 ≤ m) (hsurrogate : n = 0xD → m < 0x20) :
    decodeFrom index (.ofNat (n + 0xE0) :: .ofNat (m + 0x80) :: .ofNat (k + 0x80) :: rest) =
      (Char.ofNat ((n * 64 + m) * 64 + k) :: ·) <$> decodeFrom (index + 2 + 1) rest := by
  have hl : (if n = 0 then 0xA0 else 0x80 : UInt8).toNat ≤ m + 0x80 := by
    split
    · next h =>
      have hm := hfirst h
      change 0xA0 ≤ _
      omega
    · exact le_low m
  have hh : m + 0x80 ≤ (if n = 0xD then 0x9F else 0xBF : UInt8).toNat := by
    split
    · next h =>
      have hm := hsurrogate h
      change _ ≤ 0x9F
      omega
    · exact le_high hm
  rw [decodeFrom, lead?_three hn]
  simp only
  rw [decodeTail_more hm hl hh, decodeTail_last hk (le_low k) (le_high hk)]

theorem decodeFrom_four (hn : n < 5) (hm : m < 0x40) (hk : k < 0x40) (hl : l < 0x40)
    (hfirst : n = 0 → 0x10 ≤ m) (hlast : n = 4 → m < 0x10) :
    decodeFrom index
        (.ofNat (n + 0xF0) :: .ofNat (m + 0x80) :: .ofNat (k + 0x80) :: .ofNat (l + 0x80) :: rest) =
      (Char.ofNat (((n * 64 + m) * 64 + k) * 64 + l) :: ·) <$>
        decodeFrom (index + 3 + 1) rest := by
  have hlow : (if n = 0 then 0x90 else 0x80 : UInt8).toNat ≤ m + 0x80 := by
    split
    · next h =>
      have hm := hfirst h
      change 0x90 ≤ _
      omega
    · exact le_low m
  have hhigh : m + 0x80 ≤ (if n = 4 then 0x8F else 0xBF : UInt8).toNat := by
    split
    · next h =>
      have hm := hlast h
      change _ ≤ 0x8F
      omega
    · exact le_high hm
  rw [decodeFrom, lead?_four hn]
  simp only
  rw [decodeTail_more hm hlow hhigh, decodeTail_more hk (le_low k) (le_high hk),
    decodeTail_last hl (le_low l) (le_high hl)]

end Lead

/-- The bytes of a character read back as that character, whatever follows them. -/
theorem decodeFrom_encodeChar (index : Nat) (c : Char) (rest : Bytes) :
    ∃ next, decodeFrom index (String.utf8EncodeChar c ++ rest) =
      (c :: ·) <$> decodeFrom next rest := by
  have hv : c.val.toNat < 0xD800 ∨ 0xDFFF < c.val.toNat ∧ c.val.toNat < 0x110000 := c.valid
  have hc {n : Nat} (h : n = c.val.toNat) : Char.ofNat n = c := by
    rw [h]
    exact Char.ofNat_toNat c
  unfold String.utf8EncodeChar
  simp only
  generalize c.val.toNat = v at hv hc
  have hm : v % 0x40 < 0x40 := Nat.mod_lt _ (by decide)
  have hm₆ : v / 64 % 0x40 < 0x40 := Nat.mod_lt _ (by decide)
  have hm₁₂ : v / 4096 % 0x40 < 0x40 := Nat.mod_lt _ (by decide)
  split
  · refine ⟨index + 1, ?_⟩
    rw [List.cons_append, decodeFrom, lead?_one (by omega), List.nil_append]
    simp only [hc]
  split
  · refine ⟨index + 1 + 1, ?_⟩
    rw [List.cons_append, List.cons_append, decodeFrom, lead?_two (by omega) (by omega)]
    simp only
    rw [decodeTail_last hm (le_low _) (le_high hm), hc (by omega), List.nil_append]
  split
  · refine ⟨index + 2 + 1, ?_⟩
    apply Eq.trans (decodeFrom_three (by omega) hm₆ hm (by omega) (by omega))
    rw [hc (by omega)]
    rfl
  · refine ⟨index + 3 + 1, ?_⟩
    apply Eq.trans (decodeFrom_four (by omega) hm₁₂ hm₆ hm (by omega) (by omega))
    rw [hc (by omega)]
    rfl

/-- The bytes that write characters. -/
def encodeChars (cs : List Char) : Bytes :=
  cs.flatMap String.utf8EncodeChar

theorem decode_encodeChars (cs : List Char) : decode (encodeChars cs) = .ok cs := by
  have hd (index : Nat) : decodeFrom index (encodeChars cs) = .ok cs := by
    induction cs generalizing index with
    | nil => rw [encodeChars, List.flatMap_nil, decodeFrom]
    | cons c cs ih =>
      obtain ⟨next, hn⟩ := decodeFrom_encodeChar index c (encodeChars cs)
      rw [encodeChars, List.flatMap_cons, ← encodeChars, hn, ih]
      rfl
  exact hd 0

end ChunkConfig.Text
