namespace ChunkConfig.Decimal

/-- The number that a row of digits writes. -/
def value (digits : List Char) : Nat :=
  digits.foldl (fun n c => 10 * n + (c.toNat - '0'.toNat)) 0

/-- A row of at least one digit, and nothing else. -/
def natural? (cs : List Char) : Option Nat :=
  if cs.isEmpty || !cs.all Char.isDigit then none else some (value cs)

/-- Splits off one sign, and says whether it was a minus. -/
def splitSign : List Char → Bool × List Char
  | '-' :: cs => (true, cs)
  | '+' :: cs => (false, cs)
  | cs => (false, cs)

def integer? (cs : List Char) : Option Int :=
  let (negative, digits) := splitSign cs
  (natural? digits).map fun n => if negative then -(n : Int) else n

/-- An integer of 64 bits, written with or without a sign. -/
def int64? (s : String) : Option Int64 :=
  ((integer? s.toList).filter fun n => Int64.minValue.toInt ≤ n ∧ n ≤ Int64.maxValue.toInt).map
    .ofInt

/-- A count may have a plus sign, but no minus sign, not even before zero. -/
def count? (s : String) : Option Nat :=
  match s.toList with
  | '+' :: cs => natural? cs
  | cs => natural? cs

def int64Text (n : Int64) : String :=
  toString n.toInt

end ChunkConfig.Decimal
