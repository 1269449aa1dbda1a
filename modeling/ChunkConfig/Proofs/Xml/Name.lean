import ChunkConfig.Proofs.Xml.Bytes

namespace ChunkConfig.Xml

/-- The ranges of code points with which a name may begin. -/
def nameStartRanges : List (Nat × Nat) :=
  [(0x3A, 0x3A), (0x41, 0x5A), (0x5F, 0x5F), (0x61, 0x7A), (0xC0, 0xD6), (0xD8, 0xF6),
    (0xF8, 0x2FF), (0x370, 0x37D), (0x37F, 0x1FFF), (0x200C, 0x200D), (0x2070, 0x218F),
    (0x2C00, 0x2FEF), (0x3001, 0xD7FF), (0xF900, 0xFDCF), (0xFDF0, 0xFFFD), (0x10000, 0xEFFFF)]

/-- The ranges of code points that may only stand inside a name: dash and point, digits, the middle
dot, combining marks and ties. -/
def nameInnerRanges : List (Nat × Nat) :=
  [(0x2D, 0x2E), (0x30, 0x39), (0xB7, 0xB7), (0x300, 0x36F), (0x203F, 0x2040)]

def isNameStart (c : Char) : Bool :=
  nameStartRanges.any fun r => r.1 ≤ c.toNat && c.toNat ≤ r.2

def isNameChar (c : Char) : Bool :=
  isNameStart c || nameInnerRanges.any fun r => r.1 ≤ c.toNat && c.toNat ≤ r.2

/-- Whether text is a name of XML. -/
def isName (s : String) : Bool :=
  s.toList.head?.any isNameStart && s.toList.all isNameChar

/-- The characters that end names or have a meaning of their own in markup. -/
def delimiters : List Char :=
  [' ', '\t', '\r', '\n', '<', '>', '/', '=', '"', '\'', '!', '?']

theorem not_mem_of_isName {s : String} (h : isName s = true) {d : Char} (hd : d ∈ delimiters) :
    d ∉ s.toList := by
  intro hm
  rw [isName, Bool.and_eq_true, List.all_eq_true] at h
  have hn : ∀ c ∈ delimiters, isNameChar c = false := forall_mem_of_all (by decide)
  have hc := h.2 d hm
  rw [hn d hd] at hc
  cases hc

theorem ne_of_mem_encode_name {s : String} (h : isName s = true) {d : Char}
    (hd : d ∈ delimiters) : ∀ b ∈ Text.encode s, b ≠ ascii d := by
  have hn : ∀ c ∈ delimiters, c.toNat < 0x80 := forall_mem_of_all (by decide)
  exact Text.ne_of_mem_encode (hn d hd) (not_mem_of_isName h hd)

theorem isSpace_of_mem_encode_name {s : String} (h : isName s = true) {b : UInt8}
    (hb : b ∈ Text.encode s) : isSpace b = false := by
  have hs : b ≠ ascii ' ' := ne_of_mem_encode_name h (by decide) b hb
  have ht : b ≠ ascii '\t' := ne_of_mem_encode_name h (by decide) b hb
  have hr : b ≠ ascii '\r' := ne_of_mem_encode_name h (by decide) b hb
  have hn : b ≠ ascii '\n' := ne_of_mem_encode_name h (by decide) b hb
  simp only [isSpace, Bool.or_eq_false_iff, decide_eq_false_iff_not]
  exact ⟨⟨⟨hs, ht⟩, hr⟩, hn⟩

theorem ne_of_isName {s : String} (h : isName s = true) : s ≠ "" := by
  rintro rfl
  cases h

theorem encode_name_eq_cons {s : String} (h : isName s = true) :
    ∃ b rest, Text.encode s = b :: rest :=
  List.exists_cons_of_ne_nil fun hs => ne_of_isName h (Text.encode_eq_nil_iff.mp hs)

/-- The characters that are blanks of markup. -/
def spaces : List Char :=
  [' ', '\t', '\r', '\n']

theorem toNat_of_mem_spaces : ∀ d ∈ spaces, d.toNat < 0x80 :=
  forall_mem_of_all (by decide)

theorem isSpace_iff {b : UInt8} : isSpace b = true ↔ ∃ d ∈ spaces, b = ascii d := by
  simp only [isSpace, spaces, Bool.or_eq_true, decide_eq_true_iff, List.mem_cons,
    List.not_mem_nil, or_false, exists_eq_or_imp, exists_eq_left, or_assoc]
  exact Iff.rfl

/-- Text at which no tag that holds it is cut: none of its characters closes a tag or opens a quote,
and it does not begin as comments and instructions do. -/
structure Uncut (s : String) : Prop where
  inner : ∀ d ∈ ['>', '"', '\''], d ∉ s.toList
  start : ∀ d ∈ ['!', '?'], s.toList.head? ≠ some d

/-- Text that stands in a tag as its name: there is some, and no blank of markup at its end. -/
structure Enclosed (s : String) : Prop extends Uncut s where
  ne : s ≠ ""
  last : ∀ d ∈ spaces, s.toList.getLast? ≠ some d

/-- Text that is read as the name of a tag: no blank ends it early, and it does not begin as the
ends of elements do. -/
structure Legible (s : String) : Prop where
  unbroken : ∀ d ∈ spaces, d ∉ s.toList
  first : s.toList.head? ≠ some '/'

theorem enclosed_of_isName {s : String} (h : isName s = true) : Enclosed s := by
  have hs : ∀ d ∈ spaces, d ∈ delimiters := forall_mem_of_all (by decide)
  have hi : ∀ d ∈ ['>', '"', '\''], d ∈ delimiters := forall_mem_of_all (by decide)
  have hf : ∀ d ∈ ['!', '?'], d ∈ delimiters := forall_mem_of_all (by decide)
  exact {
    inner d hd := not_mem_of_isName h (hi d hd)
    start d hd hm := not_mem_of_isName h (hf d hd) (List.mem_of_head? hm)
    ne := ne_of_isName h
    last d hd hm := not_mem_of_isName h (hs d hd) (List.mem_of_getLast? hm) }

theorem legible_of_isName {s : String} (h : isName s = true) : Legible s := by
  have hs : ∀ d ∈ spaces, d ∈ delimiters := forall_mem_of_all (by decide)
  exact {
    unbroken d hd := not_mem_of_isName h (hs d hd)
    first hm := not_mem_of_isName h (d := '/') (by decide) (List.mem_of_head? hm) }

section Bytes

variable {s : String}

theorem Uncut.of_mem (h : Uncut s) {b : UInt8} (hb : b ∈ Text.encode s) :
    b ≠ ascii '>' ∧ b ≠ ascii '"' ∧ b ≠ ascii '\'' :=
  ⟨Text.ne_of_mem_encode (by decide) (h.inner '>' (by decide)) b hb,
    Text.ne_of_mem_encode (by decide) (h.inner '"' (by decide)) b hb,
    Text.ne_of_mem_encode (by decide) (h.inner '\'' (by decide)) b hb⟩

theorem Enclosed.isSpace_last (h : Enclosed s) :
    ∀ b ∈ (Text.encode s).getLast?, isSpace b = false := by
  intro b hb
  rw [Bool.eq_false_iff, Ne, isSpace_iff]
  rintro ⟨d, hd, rfl⟩
  exact h.last d hd ((Text.getLast?_encode_iff (toNat_of_mem_spaces d hd)).mp hb)

theorem Enclosed.exists_eq_cons (h : Enclosed s) :
    ∃ b bs, Text.encode s = b :: bs ∧ b ≠ ascii '!' ∧ b ≠ ascii '?' := by
  obtain ⟨b, bs, hb⟩ := List.exists_cons_of_ne_nil (mt Text.encode_eq_nil_iff.mp h.ne)
  have hh {d : Char} (hd : d.toNat < 0x80) (hn : s.toList.head? ≠ some d) : b ≠ ascii d := by
    rintro rfl
    exact hn ((Text.head?_encode_iff hd).mp (hb ▸ rfl))
  exact ⟨b, bs, hb, hh (by decide) (h.start '!' (by decide)),
    hh (by decide) (h.start '?' (by decide))⟩

theorem unbroken_iff : (∀ d ∈ spaces, d ∉ s.toList) ↔ ∀ b ∈ Text.encode s, isSpace b = false := by
  constructor
  · intro h b hb
    rw [Bool.eq_false_iff, Ne, isSpace_iff]
    rintro ⟨d, hd, rfl⟩
    exact h d hd ((Text.mem_encode_iff (toNat_of_mem_spaces d hd)).mp hb)
  · intro h d hd hm
    have hb := h _ ((Text.mem_encode_iff (toNat_of_mem_spaces d hd)).mpr hm)
    exact absurd (isSpace_iff.mpr ⟨d, hd, rfl⟩) (Bool.eq_false_iff.mp hb)

end Bytes

end ChunkConfig.Xml
