import ChunkConfig.Decimal.Float
import ChunkConfig.ModelError
import ChunkConfig.Text.Tokens

namespace ChunkConfig

def ValueKind.read (text : String) : Except ModelError ValueKind :=
  match Text.fold (Text.trim text) with
  | "int" | "integer" => .ok .int
  | "float" | "double" => .ok .float
  | "bool" | "boolean" => .ok .bool
  | "string" => .ok .string
  | "chunk" => .ok .chunk
  | "embeddedchunk" => .ok .embedded
  | _ => .error (.unknownValueKind (Text.trim text))

/-- A value of a property that may embed things of type `α`. A slot for them can be unfilled. -/
inductive Value (α : Type) where
  | int (n : Int64)
  | float (x : Float)
  | bool (b : Bool)
  | string (s : String)
  | chunk (name : String)
  | embedded (content : Option α)

namespace Value

variable {α : Type}

def kind : Value α → ValueKind
  | int _ => .int
  | float _ => .float
  | bool _ => .bool
  | string _ => .string
  | chunk _ => .chunk
  | embedded _ => .embedded

/-- The value that a slot holds before any other is stored there. -/
def empty : ValueKind → Value α
  | .int => int 0
  | .float => float 0
  | .bool => bool false
  | .string => string ""
  | .chunk => chunk ""
  | .embedded => embedded none

@[simp]
theorem kind_empty (k : ValueKind) : (empty k : Value α).kind = k := by
  cases k <;> rfl

def readBool? (text : String) : Option Bool :=
  if Text.same text "true" ∨ text = "1" then some true
  else if Text.same text "false" ∨ text = "0" then some false
  else none

def literal? (k : ValueKind) (text : String) : Option (Value α) :=
  match k with
  | .int => (Decimal.int64? text).map int
  | .float => (Decimal.float? text).map float
  | .bool => (readBool? text).map bool
  | .string => some (string text)
  | .chunk => some (chunk text)
  | .embedded => none

/-- Reads a literal. Embedded values have none. -/
def read (k : ValueKind) (text : String) : Except ModelError (Value α) :=
  match literal? k text with
  | some v => .ok v
  | none => .error (.invalidLiteral k text)

theorem kind_of_literal? {k : ValueKind} {text : String} {v : Value α}
    (h : literal? k text = some v) : v.kind = k := by
  cases k <;> grind [literal?, kind, Option.map_eq_some_iff]

theorem kind_of_read {k : ValueKind} {text : String} {v : Value α} (h : read k text = .ok v) :
    v.kind = k := by
  unfold read at h
  split at h
  · next v' hv =>
    cases h
    exact kind_of_literal? hv
  · cases h

/-- The token that reads back as the value. Embedded values have none, nor has text that cannot
stand as a single token. -/
def token? : Value α → Option String
  | int n => some (Decimal.int64Text n)
  | float x => some (Decimal.floatText x)
  | bool b => some (if b then "true" else "false")
  | string s | chunk s => Text.quote? s
  | embedded _ => none

/-- A value as it is shown, where embedded things are shown by their names. -/
def text (name : α → String) : Value α → String
  | int n => Decimal.int64Text n
  | float x => Decimal.floatText x
  | bool b => if b then "true" else "false"
  | string s | chunk s => s
  | embedded (some a) => "<" ++ name a ++ ">"
  | embedded none => "<none>"

end Value

end ChunkConfig
