import ChunkConfig.Proofs.Outcome
import ChunkConfig.Proofs.Text.Utf8

namespace ChunkConfig.Text

theorem lead?_none_low {n : Nat} (h : n < 0x42) : lead? (.ofNat (n + 0x80)) = none := by
  revert n
  decide

theorem lead?_none_high {n : Nat} (h : n < 0xB) : lead? (.ofNat (n + 0xF5)) = none := by
  revert n
  decide

theorem lead?_cases (a : UInt8) :
    lead? a = none ∨
      (∃ n, n < 0x80 ∧ a = .ofNat n ∧ lead? a = some ⟨n, 0, 0x80, 0xBF⟩) ∨
      (∃ n, 2 ≤ n ∧ n < 0x20 ∧ a = .ofNat (n + 0xC0) ∧ lead? a = some ⟨n, 1, 0x80, 0xBF⟩) ∨
      (∃ n, n < 0x10 ∧ a = .ofNat (n + 0xE0) ∧ lead? a = some
        ⟨n, 2, if n = 0 then 0xA0 else 0x80, if n = 0xD then 0x9F else 0xBF⟩) ∨
      ∃ n, n < 5 ∧ a = .ofNat (n + 0xF0) ∧ lead? a = some
        ⟨n, 3, if n = 0 then 0x90 else 0x80, if n = 4 then 0x8F else 0xBF⟩ := by
  have ha : UInt8.ofNat a.toNat = a := UInt8.ofNat_toNat
  have hlt : a.toNat < 0x100 := a.toNat_lt
  generalize a.toNat = v at ha hlt
  subst ha
  by_cases h₁ : v < 0x80
  · exact .inr (.inl ⟨v, h₁, rfl, lead?_one h₁⟩)
  by_cases h₂ : v < 0xC2
  · obtain ⟨n, rfl⟩ : ∃ n, v = n + 0x80 := ⟨v - 0x80, by omega⟩
    exact .inl (lead?_none_low (by omega))
  by_cases h₃ : v < 0xE0
  · obtain ⟨n, rfl⟩ : ∃ n, v = n + 0xC0 := ⟨v - 0xC0, by omega⟩
    exact .inr (.inr (.inl ⟨n, by omega, by omega, rfl, lead?_two (by omega) (by omega)⟩))
  by_cases h₄ : v < 0xF0
  · obtain ⟨n, rfl⟩ : ∃ n, v = n + 0xE0 := ⟨v - 0xE0, by omega⟩
    exact .inr (.inr (.inr (.inl ⟨n, by omega, rfl, lead?_three (by omega)⟩)))
  by_cases h₅ : v < 0xF5
  · obtain ⟨n, rfl⟩ : ∃ n, v = n + 0xF0 := ⟨v - 0xF0, by omega⟩
    exact .inr (.inr (.inr (.inr ⟨n, by omega, rfl, lead?_four (by omega)⟩)))
  · obtain ⟨n, rfl⟩ : ∃ n, v = n + 0xF5 := ⟨v - 0xF5, by omega⟩
    exact .inl (lead?_none_high (by omega))

section Tail

variable {index seen more value : Nat} {low high : UInt8} {input : Bytes} {cs : List Char}

theorem exists_of_within {b : UInt8} (hlow : 0x80 ≤ low.toNat) (h : low ≤ b ∧ b ≤ high) :
    ∃ n, b = .ofNat (n + 0x80) ∧ b.toNat - 0x80 = n ∧ low.toNat ≤ n + 0x80 ∧
      n + 0x80 ≤ high.toNat := by
  rw [UInt8.le_iff_toNat_le, UInt8.le_iff_toNat_le] at h
  have hb : b.toNat - 0x80 + 0x80 = b.toNat := by omega
  refine ⟨b.toNat - 0x80, ?_, rfl, by omega, by omega⟩
  rw [hb, UInt8.ofNat_toNat]

theorem exists_of_decodeTail_last (hlow : 0x80 ≤ low.toNat)
    (h : decodeTail index seen 0 low high value input = .ok cs) :
    ∃ n rest ds, input = .ofNat (n + 0x80) :: rest ∧ low.toNat ≤ n + 0x80 ∧
      n + 0x80 ≤ high.toNat ∧ cs = Char.ofNat (value * 64 + n) :: ds ∧
      decodeFrom (index + seen + 1) rest = .ok ds := by
  cases input with
  | nil => cases h
  | cons b rest =>
    rw [decodeTail] at h
    split at h
    · next hb =>
      obtain ⟨n, hn, hv, hl, hh⟩ := exists_of_within hlow hb
      rw [hv] at h
      obtain ⟨ds, hr, rfl⟩ := exists_of_map_eq_ok h
      exact ⟨n, rest, ds, by rw [hn], hl, hh, rfl, hr⟩
    · cases h

theorem exists_of_decodeTail_more (hlow : 0x80 ≤ low.toNat)
    (h : decodeTail index seen (more + 1) low high value input = .ok cs) :
    ∃ n rest, input = .ofNat (n + 0x80) :: rest ∧ low.toNat ≤ n + 0x80 ∧
      n + 0x80 ≤ high.toNat ∧
      decodeTail index (seen + 1) more 0x80 0xBF (value * 64 + n) rest = .ok cs := by
  cases input with
  | nil => cases h
  | cons b rest =>
    rw [decodeTail] at h
    split at h
    · next hb =>
      obtain ⟨n, hn, hv, hl, hh⟩ := exists_of_within hlow hb
      rw [hv] at h
      exact ⟨n, rest, by rw [hn], hl, hh, h⟩
    · cases h

end Tail

theorem lt_of_high {n m : Nat} {p : Prop} [Decidable p] (h : n < 0xC0)
    (hm : m + 0x80 ≤ (if p then UInt8.ofNat n else 0xBF).toNat) : m < 0x40 := by
  have hn : (UInt8.ofNat n).toNat = n := by
    rw [UInt8.toNat_ofNat', Nat.mod_eq_of_lt (by omega)]
  split at hm
  · omega
  · change _ ≤ 0xBF at hm
    omega

section Encode

theorem toNat_val_ofNat {n : Nat} (h : n.isValidChar) : (Char.ofNat n).val.toNat = n := by
  rw [Char.ofNat]
  rw [dif_pos h]
  rfl

theorem utf8EncodeChar_one {n : Nat} (h : n < 0x80) :
    String.utf8EncodeChar (Char.ofNat n) = [.ofNat n] := by
  have hv : n.isValidChar := .inl (by omega)
  simp only [String.utf8EncodeChar, toNat_val_ofNat hv, if_pos (show n ≤ 0x7f by omega)]

theorem utf8EncodeChar_two {n m : Nat} (hn : 2 ≤ n) (hn' : n < 0x20) (hm : m < 0x40) :
    String.utf8EncodeChar (Char.ofNat (n * 64 + m)) = [.ofNat (n + 0xC0), .ofNat (m + 0x80)] := by
  have hv : (n * 64 + m).isValidChar := .inl (by omega)
  have h₁ : ¬ n * 64 + m ≤ 0x7f := by omega
  have h₂ : n * 64 + m ≤ 0x7ff := by omega
  have hd : (n * 64 + m) / 64 % 0x20 = n := by omega
  have hr : (n * 64 + m) % 0x40 = m := by omega
  simp only [String.utf8EncodeChar, toNat_val_ofNat hv, if_neg h₁, if_pos h₂, hd, hr]

theorem utf8EncodeChar_three {n m k : Nat} (hn : n < 0x10) (hm : m < 0x40) (hk : k < 0x40)
    (hl : 0x800 ≤ (n * 64 + m) * 64 + k) (hv : ((n * 64 + m) * 64 + k).isValidChar) :
    String.utf8EncodeChar (Char.ofNat ((n * 64 + m) * 64 + k)) =
      [.ofNat (n + 0xE0), .ofNat (m + 0x80), .ofNat (k + 0x80)] := by
  have h₁ : ¬ (n * 64 + m) * 64 + k ≤ 0x7f := by omega
  have h₂ : ¬ (n * 64 + m) * 64 + k ≤ 0x7ff := by omega
  have h₃ : (n * 64 + m) * 64 + k ≤ 0xffff := by omega
  have hq : ((n * 64 + m) * 64 + k) / 4096 % 0x10 = n := by omega
  have hd : ((n * 64 + m) * 64 + k) / 64 % 0x40 = m := by omega
  have hr : ((n * 64 + m) * 64 + k) % 0x40 = k := by omega
  simp only [String.utf8EncodeChar, toNat_val_ofNat hv, if_neg h₁, if_neg h₂, if_pos h₃, hq, hd, hr]

theorem utf8EncodeChar_four {n m k l : Nat} (hn : n < 5) (hm : m < 0x40) (hk : k < 0x40)
    (hl : l < 0x40) (hg : 0x10000 ≤ ((n * 64 + m) * 64 + k) * 64 + l)
    (hv : (((n * 64 + m) * 64 + k) * 64 + l).isValidChar) :
    String.utf8EncodeChar (Char.ofNat (((n * 64 + m) * 64 + k) * 64 + l)) =
      [.ofNat (n + 0xF0), .ofNat (m + 0x80), .ofNat (k + 0x80), .ofNat (l + 0x80)] := by
  have h₁ : ¬ ((n * 64 + m) * 64 + k) * 64 + l ≤ 0x7f := by omega
  have h₂ : ¬ ((n * 64 + m) * 64 + k) * 64 + l ≤ 0x7ff := by omega
  have h₃ : ¬ ((n * 64 + m) * 64 + k) * 64 + l ≤ 0xffff := by omega
  have hp : (((n * 64 + m) * 64 + k) * 64 + l) / 262144 % 0x08 = n := by omega
  have hq : (((n * 64 + m) * 64 + k) * 64 + l) / 4096 % 0x40 = m := by omega
  have hd : (((n * 64 + m) * 64 + k) * 64 + l) / 64 % 0x40 = k := by omega
  have hr : (((n * 64 + m) * 64 + k) * 64 + l) % 0x40 = l := by omega
  simp only [String.utf8EncodeChar, toNat_val_ofNat hv, if_neg h₁, if_neg h₂, if_neg h₃, hp, hq,
    hd, hr]

end Encode

section Lead

variable {n index : Nat} {input : Bytes} {cs : List Char}

theorem exists_of_decodeTail_three (hn : n < 0x10)
    (h : decodeTail index 1 1 (if n = 0 then 0xA0 else 0x80) (if n = 0xD then 0x9F else 0xBF) n
      input = .ok cs) :
    ∃ c ds rest next, cs = c :: ds ∧
      .ofNat (n + 0xE0) :: input = String.utf8EncodeChar c ++ rest ∧
      decodeFrom next rest = .ok ds := by
  have hlow : 0x80 ≤ (if n = 0 then 0xA0 else 0x80 : UInt8).toNat := by
    split <;> decide
  obtain ⟨m, input, rfl, hml, hmh, h⟩ := exists_of_decodeTail_more hlow h
  obtain ⟨k, rest, ds, rfl, hkl, hkh, rfl, hr⟩ := exists_of_decodeTail_last (Nat.le_refl _) h
  change _ ≤ 0xBF at hkh
  have hm : m < 0x40 := lt_of_high (by decide) hmh
  have hfirst : n = 0 → 0x20 ≤ m := by
    rintro rfl
    change 0xA0 ≤ _ at hml
    omega
  have hsurrogate : n = 0xD → m < 0x20 := by
    rintro rfl
    change _ ≤ 0x9F at hmh
    omega
  have hv : ((n * 64 + m) * 64 + k).isValidChar := by
    rw [Nat.isValidChar]
    omega
  refine ⟨_, ds, rest, _, rfl, ?_, hr⟩
  rw [utf8EncodeChar_three hn hm (by omega) (by omega) hv]
  rfl

theorem exists_of_decodeTail_four (hn : n < 5)
    (h : decodeTail index 1 2 (if n = 0 then 0x90 else 0x80) (if n = 4 then 0x8F else 0xBF) n
      input = .ok cs) :
    ∃ c ds rest next, cs = c :: ds ∧
      .ofNat (n + 0xF0) :: input = String.utf8EncodeChar c ++ rest ∧
      decodeFrom next rest = .ok ds := by
  have hlow : 0x80 ≤ (if n = 0 then 0x90 else 0x80 : UInt8).toNat := by
    split <;> decide
  obtain ⟨m, input, rfl, hml, hmh, h⟩ := exists_of_decodeTail_more hlow h
  obtain ⟨k, input, rfl, hkl, hkh, h⟩ := exists_of_decodeTail_more (Nat.le_refl _) h
  obtain ⟨l, rest, ds, rfl, hll, hlh, rfl, hr⟩ := exists_of_decodeTail_last (Nat.le_refl _) h
  change _ ≤ 0xBF at hkh hlh
  have hm : m < 0x40 := lt_of_high (by decide) hmh
  have hfirst : n = 0 → 0x10 ≤ m := by
    rintro rfl
    change 0x90 ≤ _ at hml
    omega
  have hlast : n = 4 → m < 0x10 := by
    rintro rfl
    change _ ≤ 0x8F at hmh
    omega
  have hv : (((n * 64 + m) * 64 + k) * 64 + l).isValidChar := by
    rw [Nat.isValidChar]
    omega
  refine ⟨_, ds, rest, _, rfl, ?_, hr⟩
  rw [utf8EncodeChar_four hn hm (by omega) (by omega) (by omega) hv]
  rfl

end Lead

theorem exists_of_decodeFrom_eq {index : Nat} {input : Bytes} {cs : List Char}
    (h : decodeFrom index input = .ok cs) :
    (input = [] ∧ cs = []) ∨ ∃ c ds rest next, cs = c :: ds ∧
      input = String.utf8EncodeChar c ++ rest ∧ decodeFrom next rest = .ok ds := by
  cases input with
  | nil =>
    cases h
    exact .inl ⟨rfl, rfl⟩
  | cons a input =>
    right
    rw [decodeFrom] at h
    rcases lead?_cases a with hn | ⟨n, hn, rfl, hl⟩ | ⟨n, hn, hn', rfl, hl⟩ | ⟨n, hn, rfl, hl⟩ |
      ⟨n, hn, rfl, hl⟩
    · rw [hn] at h
      cases h
    · rw [hl] at h
      obtain ⟨ds, hr, rfl⟩ := exists_of_map_eq_ok h
      exact ⟨_, ds, input, _, rfl, by rw [utf8EncodeChar_one hn]; rfl, hr⟩
    · rw [hl] at h
      obtain ⟨m, rest, ds, rfl, hml, hmh, rfl, hr⟩ := exists_of_decodeTail_last (Nat.le_refl _) h
      change _ ≤ 0xBF at hmh
      exact ⟨_, ds, rest, _, rfl, by rw [utf8EncodeChar_two hn hn' (by omega)]; rfl, hr⟩
    · rw [hl] at h
      exact exists_of_decodeTail_three hn h
    · rw [hl] at h
      exact exists_of_decodeTail_four hn h

/-- Bytes that read as characters are the bytes that write these characters. -/
theorem encodeChars_of_decode_eq {input : Bytes} {cs : List Char} (h : decode input = .ok cs) :
    encodeChars cs = input := by
  have hd (size index : Nat) {input : Bytes} {cs : List Char} (hs : input.length ≤ size)
      (h : decodeFrom index input = .ok cs) : encodeChars cs = input := by
    induction size generalizing index input cs with
    | zero =>
      rcases exists_of_decodeFrom_eq h with ⟨rfl, rfl⟩ | ⟨c, ds, rest, next, rfl, rfl, hr⟩
      · rfl
      · have hne := String.utf8EncodeChar_ne_nil (c := c)
        rw [Nat.le_zero, List.length_eq_zero_iff, List.append_eq_nil_iff] at hs
        exact absurd hs.1 hne
    | succ size ih =>
      rcases exists_of_decodeFrom_eq h with ⟨rfl, rfl⟩ | ⟨c, ds, rest, next, rfl, rfl, hr⟩
      · rfl
      · have hpos := List.length_pos_iff.mpr (String.utf8EncodeChar_ne_nil (c := c))
        rw [List.length_append] at hs
        rw [encodeChars, List.flatMap_cons, ← encodeChars, ih next (by omega) hr]
  exact hd input.length 0 (Nat.le_refl _) h

end ChunkConfig.Text
