namespace ChunkConfig

/-- What kind of value a property holds: a number, a truth value, text, the name of a chunk, or a
whole chunk. -/
inductive ValueKind where
  | int
  | float
  | bool
  | string
  | chunk
  | embedded
  deriving DecidableEq, Inhabited

namespace ValueKind

def all : List ValueKind := [int, float, bool, string, chunk, embedded]

def token : ValueKind → String
  | int => "int"
  | float => "float"
  | bool => "bool"
  | string => "string"
  | chunk => "chunk"
  | embedded => "embeddedchunk"

/-- Primitive values have a literal form. -/
def isPrimitive (k : ValueKind) : Bool :=
  k ≠ embedded

end ValueKind

end ChunkConfig
