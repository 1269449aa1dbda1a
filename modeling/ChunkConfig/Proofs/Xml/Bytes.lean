import ChunkConfig.Proofs.Span
import ChunkConfig.Proofs.Text.Escape
import ChunkConfig.Proofs.Text.Utf8
import ChunkConfig.Xml.Tag

namespace ChunkConfig

namespace Text

theorem encode_append (s t : String) : encode (s ++ t) = encode s ++ encode t := by
  rw [encode, String.toList_append, List.flatMap_append]
  rfl

theorem decode_encode (s : String) : decode (encode s) = .ok s.toList :=
  decode_encodeChars s.toList

theorem utf8EncodeChar_cases (c : Char) :
    (c.toNat < 0x80 ∧ String.utf8EncodeChar c = [c.toUInt8]) ∨
      (0x80 ≤ c.toNat ∧ ∀ b ∈ String.utf8EncodeChar c, 0x80 ≤ b) := by
  have hv : c.toNat < 0x110000 := by
    rcases c.valid with h | h
    · exact Nat.lt_trans h (by decide)
    · exact h.2
  have high {n : Nat} (hl : 0x80 ≤ n) (hh : n < 0x100) : 0x80 ≤ UInt8.ofNat n := by
    rw [UInt8.le_iff_toNat_le, UInt8.toNat_ofNat', Nat.mod_eq_of_lt hh]
    exact hl
  change _ < 0x110000 at hv
  rw [String.utf8EncodeChar]
  simp only [Char.toNat] at hv ⊢
  generalize hn : c.val.toNat = v at hv ⊢
  split
  · refine .inl ⟨by omega, ?_⟩
    rw [← hn]
    rfl
  · refine .inr ⟨by omega, ?_⟩
    split
    · simp only [List.mem_cons, List.not_mem_nil, or_false]
      rintro b (rfl | rfl) <;> exact high (by omega) (by omega)
    split
    · simp only [List.mem_cons, List.not_mem_nil, or_false]
      rintro b (rfl | rfl | rfl) <;> exact high (by omega) (by omega)
    · simp only [List.mem_cons, List.not_mem_nil, or_false]
      rintro b (rfl | rfl | rfl | rfl) <;> exact high (by omega) (by omega)

theorem utf8EncodeChar_ascii {c : Char} (hc : c.toNat < 0x80) :
    String.utf8EncodeChar c = [c.toUInt8] := by
  rcases utf8EncodeChar_cases c with ⟨-, he⟩ | ⟨hn, -⟩
  · exact he
  · exact absurd hc (Nat.not_lt_of_le hn)

/-- What holds of the bytes above ASCII and of the ASCII characters of a text holds of all its
bytes. -/
theorem forall_mem_encode {P : UInt8 → Prop} {s : String} (hh : ∀ b, 0x80 ≤ b → P b)
    (hl : ∀ c ∈ s.toList, c.toNat < 0x80 → P c.toUInt8) : ∀ b ∈ encode s, P b := by
  intro b hb
  obtain ⟨c, hc, hb⟩ := List.mem_flatMap.mp hb
  rcases utf8EncodeChar_cases c with ⟨hn, he⟩ | ⟨-, hn⟩
  · rw [he, List.mem_singleton] at hb
    rw [hb]
    exact hl c hc hn
  · exact hh b (hn b hb)

theorem toUInt8_ne {c d : Char} (h : c ≠ d) (hc : c.toNat < 0x80) (hd : d.toNat < 0x80) :
    c.toUInt8 ≠ d.toUInt8 := by
  intro he
  have hm : c.toNat % 256 = d.toNat % 256 := congrArg UInt8.toNat he
  rw [Nat.mod_eq_of_lt (by omega), Nat.mod_eq_of_lt (by omega)] at hm
  exact h (Char.toNat_inj.mp hm)

theorem not_le_toUInt8 {d : Char} (hd : d.toNat < 0x80) : ¬ 0x80 ≤ d.toUInt8 := by
  have hm : d.toUInt8.toNat = d.toNat % 256 := rfl
  rw [UInt8.le_iff_toNat_le, hm, Nat.mod_eq_of_lt (by omega)]
  exact Nat.not_le_of_lt hd

theorem ne_of_mem_encode {s : String} {d : Char} (hd : d.toNat < 0x80) (h : d ∉ s.toList) :
    ∀ b ∈ encode s, b ≠ d.toUInt8 := by
  refine forall_mem_encode (fun b hb he => ?_) fun c hc hn => ?_
  · rw [he] at hb
    exact not_le_toUInt8 hd hb
  · exact toUInt8_ne (fun he => h (he ▸ hc)) hn hd

theorem mem_utf8EncodeChar_iff {c d : Char} (hd : d.toNat < 0x80) :
    d.toUInt8 ∈ String.utf8EncodeChar c ↔ d = c := by
  rcases utf8EncodeChar_cases c with ⟨hc, he⟩ | ⟨hc, he⟩
  · rw [he, List.mem_singleton]
    refine ⟨fun h => ?_, congrArg _⟩
    exact Decidable.byContradiction fun hn => toUInt8_ne hn hd hc h
  · refine iff_of_false (fun h => not_le_toUInt8 hd (he _ h)) ?_
    rintro rfl
    exact Nat.not_le_of_lt hd hc

theorem mem_encode_iff {s : String} {d : Char} (hd : d.toNat < 0x80) :
    d.toUInt8 ∈ encode s ↔ d ∈ s.toList := by
  refine List.mem_flatMap.trans ⟨?_, fun h => ⟨d, h, (mem_utf8EncodeChar_iff hd).mpr rfl⟩⟩
  rintro ⟨c, hc, hb⟩
  rwa [(mem_utf8EncodeChar_iff hd).mp hb]

theorem head?_encode_iff {s : String} {d : Char} (hd : d.toNat < 0x80) :
    (encode s).head? = some d.toUInt8 ↔ s.toList.head? = some d := by
  have he : encode s = encodeChars s.toList := rfl
  rw [he]
  cases s.toList with
  | nil => exact iff_of_false nofun nofun
  | cons c cs =>
    obtain ⟨b, bs, hb⟩ := List.exists_cons_of_ne_nil (String.utf8EncodeChar_ne_nil (c := c))
    rw [encodeChars, List.flatMap_cons, hb, List.cons_append, List.head?_cons, List.head?_cons,
      Option.some_inj, Option.some_inj]
    constructor
    · rintro rfl
      exact ((mem_utf8EncodeChar_iff hd).mp (hb ▸ .head _)).symm
    · rintro rfl
      rw [utf8EncodeChar_ascii hd] at hb
      exact (List.cons.inj hb).1.symm

theorem getLast?_encode_iff {s : String} {d : Char} (hd : d.toNat < 0x80) :
    (encode s).getLast? = some d.toUInt8 ↔ s.toList.getLast? = some d := by
  have he : encode s = encodeChars s.toList := rfl
  rw [he]
  rcases List.eq_nil_or_concat s.toList with he | ⟨cs, c, he⟩
  · rw [he]
    exact iff_of_false nofun nofun
  · obtain ⟨b, hb⟩ : ∃ b, (String.utf8EncodeChar c).getLast? = some b :=
      ⟨_, List.getLast?_eq_some_getLast String.utf8EncodeChar_ne_nil⟩
    rw [he, List.concat_eq_append, encodeChars, List.flatMap_append, List.flatMap_singleton,
      List.getLast?_append, hb, Option.some_or, List.getLast?_concat, Option.some_inj,
      Option.some_inj]
    constructor
    · rintro rfl
      exact ((mem_utf8EncodeChar_iff hd).mp (List.mem_of_getLast? hb)).symm
    · rintro rfl
      rw [utf8EncodeChar_ascii hd] at hb
      exact (Option.some.inj hb).symm

theorem encode_inj {s t : String} : encode s = encode t ↔ s = t := by
  refine ⟨fun h => ?_, congrArg encode⟩
  have hd := congrArg decode h
  rw [decode_encode, decode_encode] at hd
  exact String.toList_inj.mp (Except.ok.inj hd)

theorem encode_eq_nil_iff {s : String} : encode s = [] ↔ s = "" :=
  encode_inj (t := "")

section Pattern

variable {pat : List Char}

theorem isPrefix_of_map_toUInt8 {cs : List Char} (hp : ∀ d ∈ pat, d.toNat < 0x80)
    (h : pat.map Char.toUInt8 <+: encodeChars cs) : pat <+: cs := by
  induction pat generalizing cs with
  | nil => exact List.nil_prefix
  | cons d pat ih =>
    cases cs with
    | nil => exact absurd (List.prefix_nil.mp h) (List.cons_ne_nil _ _)
    | cons c cs =>
      have hd := hp d (.head _)
      rw [encodeChars, List.flatMap_cons] at h
      rcases utf8EncodeChar_cases c with ⟨hc, he⟩ | ⟨hc, he⟩
      · rw [he, List.map_cons, List.singleton_append, List.cons_prefix_cons] at h
        by_cases hcd : d = c
        · rw [hcd, List.cons_prefix_cons]
          exact ⟨rfl, ih (fun e he => hp e (.tail _ he)) h.2⟩
        · exact absurd h.1 (toUInt8_ne hcd hd hc)
      · obtain ⟨b, bs, hb⟩ := List.exists_cons_of_ne_nil (String.utf8EncodeChar_ne_nil (c := c))
        rw [hb, List.map_cons, List.cons_append, List.cons_prefix_cons] at h
        exact absurd (he b (hb ▸ .head _)) (h.1 ▸ not_le_toUInt8 hd)

theorem infix_of_map_toUInt8 {cs : List Char} (hp : ∀ d ∈ pat, d.toNat < 0x80)
    (h : pat.map Char.toUInt8 <:+: encodeChars cs) : pat <:+: cs := by
  cases pat with
  | nil => exact List.nil_infix
  | cons d pat =>
    induction cs with
    | nil => exact absurd (List.infix_nil.mp h) (List.cons_ne_nil _ _)
    | cons c cs ih =>
      rcases utf8EncodeChar_cases c with ⟨hc, he⟩ | ⟨hc, he⟩
      · have hs : encodeChars (c :: cs) = c.toUInt8 :: encodeChars cs := by
          rw [encodeChars, List.flatMap_cons, he]
          rfl
        rw [hs, List.infix_cons_iff, ← hs] at h
        rcases h with h | h
        · exact (isPrefix_of_map_toUInt8 hp h).isInfix
        · exact (ih h).trans (List.suffix_cons c cs).isInfix
      · rw [encodeChars, List.flatMap_cons] at h
        have hd : d.toUInt8 ∉ String.utf8EncodeChar c :=
          fun hm => not_le_toUInt8 (hp d (.head _)) (he _ hm)
        exact (ih (infix_of_infix_append hd h)).trans (List.suffix_cons c cs).isInfix

theorem map_toUInt8_infix {cs : List Char} (hp : ∀ d ∈ pat, d.toNat < 0x80)
    (h : pat <:+: cs) : pat.map Char.toUInt8 <:+: encodeChars cs := by
  have he : encodeChars pat = pat.map Char.toUInt8 := by
    clear h
    induction pat with
    | nil => rfl
    | cons d pat ih =>
      rcases utf8EncodeChar_cases d with ⟨-, hd⟩ | ⟨hd, -⟩
      · rw [encodeChars, List.flatMap_cons, hd, List.map_cons, ← ih fun e he => hp e (.tail _ he)]
        rfl
      · exact absurd (hp d (.head _)) (Nat.not_lt_of_le hd)
  obtain ⟨before, rest, rfl⟩ := h
  refine ⟨encodeChars before, encodeChars rest, ?_⟩
  rw [← he]
  simp only [encodeChars, List.flatMap_append]

end Pattern

end Text

namespace Xml

theorem decodeRaw_encode (s : String) : decodeRaw (Text.encode s) = .ok s := by
  rw [decodeRaw, Text.decode_encode]
  exact congrArg Except.ok (String.ofList_toList)

theorem decodeText_encode {s t : String} (h : Text.expand t.toList = .ok s.toList) :
    decodeText (Text.encode t) = .ok s := by
  rw [decodeText, Text.decode_encode]
  simp only [h, String.ofList_toList]

end Xml

end ChunkConfig
