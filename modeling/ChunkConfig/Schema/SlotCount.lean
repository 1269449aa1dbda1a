import ChunkConfig.Decimal.Integer
import ChunkConfig.ModelError
import ChunkConfig.Text.Blank
import ChunkConfig.Text.Folding

namespace ChunkConfig

/-- How many slots a property has. -/
inductive SlotCount where
  | fixed (n : Nat)
  | variable
  deriving DecidableEq

namespace SlotCount

/-- The greatest fixed count that a schema may declare. -/
def limit : Nat := 4096

def read (text : String) : Except ModelError SlotCount :=
  let text := Text.trim text
  if Text.same text "var" ∨ Text.same text "variable" then .ok .variable
  else
    match (Decimal.count? text).filter (· ≤ limit) with
    | some n => .ok (fixed n)
    | none => .error (.invalidCount text)

def text : SlotCount → String
  | fixed n => toString n
  | .variable => "var"

/-- The count as a number, which is negative for a variable count. -/
def signed : SlotCount → Int
  | fixed n => n
  | .variable => -1

end SlotCount

end ChunkConfig
