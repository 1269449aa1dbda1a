namespace ChunkConfig

abbrev Bytes := List UInt8

namespace Text

/-- Why a sequence of bytes is no UTF-8: from `index` on, `length` bytes cannot belong together,
or the bytes end inside a character. -/
inductive Utf8Fault where
  | invalid (index length : Nat)
  | incomplete (index : Nat)
  deriving DecidableEq

def Utf8Fault.message : Utf8Fault → String
  | .invalid index length => s!"invalid utf-8 sequence of {length} bytes from index {index}"
  | .incomplete index => s!"incomplete utf-8 byte sequence from index {index}"

/-- What a leading byte says: its share of the code point, how many bytes follow it, and the
bounds of the first of them. The bounds keep out longer forms than needed, surrogates and numbers
above the last code point. -/
structure Lead where
  value : Nat
  more : Nat
  low : UInt8
  high : UInt8
  deriving DecidableEq

def lead? (a : UInt8) : Option Lead :=
  if a ≤ 0x7F then some ⟨a.toNat, 0, 0x80, 0xBF⟩
  else if 0xC2 ≤ a ∧ a ≤ 0xDF then some ⟨a.toNat - 0xC0, 1, 0x80, 0xBF⟩
  else if a = 0xE0 then some ⟨0, 2, 0xA0, 0xBF⟩
  else if a = 0xED then some ⟨0xD, 2, 0x80, 0x9F⟩
  else if 0xE1 ≤ a ∧ a ≤ 0xEF then some ⟨a.toNat - 0xE0, 2, 0x80, 0xBF⟩
  else if a = 0xF0 then some ⟨0, 3, 0x90, 0xBF⟩
  else if 0xF1 ≤ a ∧ a ≤ 0xF3 then some ⟨a.toNat - 0xF0, 3, 0x80, 0xBF⟩
  else if a = 0xF4 then some ⟨4, 3, 0x80, 0x8F⟩
  else none

mutual

/-- Reads characters from the byte at `index` on. -/
def decodeFrom (index : Nat) : Bytes → Except Utf8Fault (List Char)
  | [] => .ok []
  | a :: rest =>
    match lead? a with
    | none => .error (.invalid index 1)
    | some ⟨value, 0, _, _⟩ => (Char.ofNat value :: ·) <$> decodeFrom (index + 1) rest
    | some ⟨value, more + 1, low, high⟩ => decodeTail index 1 more low high value rest

/-- Reads the rest of a character that began at `index`, `seen` bytes ago. After the next byte,
which has to lie within the bounds, `more` bytes follow. -/
def decodeTail (index seen more : Nat) (low high : UInt8) (value : Nat) :
    Bytes → Except Utf8Fault (List Char)
  | [] => .error (.incomplete index)
  | b :: rest =>
    if low ≤ b ∧ b ≤ high then
      match more with
      | 0 => (Char.ofNat (value * 64 + (b.toNat - 0x80)) :: ·) <$>
          decodeFrom (index + seen + 1) rest
      | more + 1 =>
        decodeTail index (seen + 1) more 0x80 0xBF (value * 64 + (b.toNat - 0x80)) rest
    else .error (.invalid index seen)

end

def decode (bytes : Bytes) : Except Utf8Fault (List Char) :=
  decodeFrom 0 bytes

def encode (s : String) : Bytes :=
  s.toList.flatMap String.utf8EncodeChar

end Text

end ChunkConfig
