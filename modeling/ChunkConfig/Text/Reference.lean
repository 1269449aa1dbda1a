namespace ChunkConfig.Text

/-- Why the number of a character reference names no character. -/
inductive NumberFault where
  | sign
  | empty
  | badDigit
  | tooLarge
  | zero
  | noCodePoint (n : Nat)
  deriving DecidableEq

def NumberFault.message : NumberFault → String
  | .sign => "unexpected number sign"
  | .empty => "cannot parse integer from empty string"
  | .badDigit => "invalid digit found in string"
  | .tooLarge => "number too large to fit in target type"
  | .zero => "0x0 character is not permitted in XML"
  | .noCodePoint n => s!"`{n}` is not a valid codepoint"

/-- Why a reference in text cannot be replaced. The ranges count bytes of the text. -/
inductive ReferenceFault where
  | unterminated (start stop : Nat)
  | unknown (start stop : Nat) (name : String)
  | number (fault : NumberFault)
  deriving DecidableEq

def ReferenceFault.message : ReferenceFault → String
  | .unterminated start stop =>
    s!"Error while escaping character at range {start}..{stop}: Cannot find ';' after '&'"
  | .unknown start stop name => s!"at {start}..{stop}: unrecognized entity `{name}`"
  | .number fault => s!"invalid character reference: {fault.message}"

/-- The value of one digit, in a radix of at most 16. -/
def digit? (radix : Nat) (c : Char) : Option Nat :=
  let value :=
    if c.isDigit then some (c.toNat - '0'.toNat)
    else if 'a' ≤ c ∧ c ≤ 'f' then some (c.toNat - 'a'.toNat + 10)
    else if 'A' ≤ c ∧ c ≤ 'F' then some (c.toNat - 'A'.toNat + 10)
    else none
  value.filter (· < radix)

/-- Reads digits after those that made `n`, as long as the number fits in 32 bits. -/
def readDigits (radix n : Nat) : List Char → Except NumberFault Nat
  | [] => .ok n
  | c :: cs =>
    match digit? radix c with
    | none => .error .badDigit
    | some d => if n * radix + d < UInt32.size then readDigits radix (n * radix + d) cs
      else .error .tooLarge

def readNumber (radix : Nat) : List Char → Except NumberFault Nat
  | [] => .error .empty
  | c :: cs => if c = '+' ∨ c = '-' then .error .sign else readDigits radix 0 (c :: cs)

/-- The character with the given number. -/
def character (n : Nat) : Except NumberFault Char :=
  if n = 0 then .error .zero
  else if n.isValidChar then .ok (Char.ofNat n)
  else .error (.noCodePoint n)

/-- The five characters that have names. -/
def entity? (name : List Char) : Option Char :=
  match String.ofList name with
  | "lt" => some '<'
  | "gt" => some '>'
  | "amp" => some '&'
  | "apos" => some '\''
  | "quot" => some '"'
  | _ => none

/-- The character that a reference stands for, given what is between `&` and `;`. -/
def resolve (start stop : Nat) (name : List Char) : Except ReferenceFault Char :=
  match name with
  | '#' :: 'x' :: digits => ((readNumber 16 digits).bind character).mapError .number
  | '#' :: digits => ((readNumber 10 digits).bind character).mapError .number
  | name =>
    match entity? name with
    | some c => .ok c
    | none => .error (.unknown start stop (.ofList name))

mutual

/-- Replaces references in text of `size` bytes, from the byte at `index` on. -/
def expandFrom (size index : Nat) : List Char → Except ReferenceFault (List Char)
  | [] => .ok []
  | c :: cs =>
    if c = '&' then expandName size index (index + 1) [] cs
    else (c :: ·) <$> expandFrom size (index + c.utf8Size) cs

/-- Reads the name of the reference that began at `start`. Its characters so far are in `name`,
the last one first. -/
def expandName (size start index : Nat) (name : List Char) :
    List Char → Except ReferenceFault (List Char)
  | [] => .error (.unterminated start size)
  | c :: cs =>
    if c = ';' then
      match resolve (start + 1) index name.reverse with
      | .error e => .error e
      | .ok r => (r :: ·) <$> expandFrom size (index + 1) cs
    else if c = '&' then .error (.unterminated start size)
    else expandName size start (index + c.utf8Size) (c :: name) cs

end

/-- How many bytes text takes. -/
def utf8Size : List Char → Nat
  | [] => 0
  | c :: cs => c.utf8Size + utf8Size cs

/-- Text with every reference replaced by its character. -/
def expand (cs : List Char) : Except ReferenceFault (List Char) :=
  expandFrom (utf8Size cs) 0 cs

end ChunkConfig.Text
