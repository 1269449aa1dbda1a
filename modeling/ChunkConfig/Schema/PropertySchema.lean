import ChunkConfig.Schema.SlotCount
import ChunkConfig.Value

namespace ChunkConfig

/-- Whom a property is meant for. -/
inductive Audience where
  | beginner
  | expert
  deriving DecidableEq

namespace Audience

def token : Audience → String
  | beginner => "beginner"
  | expert => "expert"

def read? (text : String) : Option Audience :=
  if Text.same text "beginner" then some beginner
  else if Text.same text "expert" then some expert
  else none

def number : Audience → Nat
  | beginner => 0
  | expert => 1

end Audience

/-- A label that stands for a value. One with a blank value stands for itself. -/
structure Alias where
  label : String
  value : String
  deriving DecidableEq

def Alias.literal (a : Alias) : String :=
  if Text.allBlank a.value then a.label else a.value

/-- What one property of a chunk type holds. -/
structure PropertySchema where
  token : String := ""
  givenName : String := ""
  kind : ValueKind := .string
  count : SlotCount := .fixed 1
  aliases : List Alias := []
  labels : List String := []
  help : String := ""
  audience : Audience := .beginner
  deriving DecidableEq

namespace PropertySchema

/-- The name to show, which is the token when no name was given. -/
def name (p : PropertySchema) : String :=
  if p.givenName.isEmpty then p.token else p.givenName

/-- The literal that a token stands for: that of the first alias with this label, or itself. -/
def literal (p : PropertySchema) (token : String) : String :=
  ((p.aliases.find? (·.label = token)).map Alias.literal).getD token

/-- The value that a token stands for. -/
def resolve {α : Type} (p : PropertySchema) (token : String) : Except ModelError (Value α) :=
  Value.read p.kind (p.literal token)

end PropertySchema

end ChunkConfig
