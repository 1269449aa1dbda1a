import ChunkConfig.Problem
import ChunkConfig.Schema.PropertySchema

namespace ChunkConfig

/-- The values of one property. -/
structure Property (α : Type) where
  schema : PropertySchema
  values : List (Value α)

namespace Property

variable {α : Type}

/-- A property with nothing stored in it. -/
def ofSchema (schema : PropertySchema) : Property α :=
  match schema.count with
  | .fixed n => ⟨schema, List.replicate n (.empty schema.kind)⟩
  | .variable => ⟨schema, []⟩

/-- Stores a value in a slot. A property of variable count grows up to the slot, a fixed one does
not. -/
def set (p : Property α) (index : Nat) (v : Value α) : Except ModelError (Property α) :=
  if v.kind ≠ p.schema.kind then .error (.kindMismatch p.schema.kind v.kind)
  else
    match p.schema.count with
    | .fixed capacity =>
      if index < capacity then .ok { p with values := p.values.set index v }
      else .error (.indexOutOfRange p.schema.token index capacity)
    | .variable =>
      if index < p.values.length then .ok { p with values := p.values.set index v }
      else
        let gap := List.replicate (index - p.values.length) (.empty p.schema.kind)
        .ok { p with values := p.values ++ gap ++ [v] }

/-- Takes all values out. A property of fixed count keeps its slots. -/
def clear (p : Property α) : Property α :=
  match p.schema.count with
  | .fixed _ => { p with values := p.values.map fun _ => .empty p.schema.kind }
  | .variable => { p with values := [] }

/-- A property that is about to be filled from its first slot on. Values of a variable count do not
mix with those from before. -/
def restart (p : Property α) : Property α :=
  match p.schema.count with
  | .fixed _ => p
  | .variable => p.clear

/-- What value text leaves behind: the property, the slot after the last value that was stored,
and what ended the text early. -/
structure Filled (α : Type) where
  property : Property α
  next : Nat
  problem : Option Problem

/-- The value of a token. Names of chunks stand for themselves. -/
def coerce (p : Property α) (token : String) : Except Problem (Value α) :=
  match p.schema.kind with
  | .chunk => .ok (.chunk token)
  | .embedded => .error (.textForEmbedded p.schema.token)
  | .int | .float | .bool | .string =>
    (p.schema.resolve token).mapError (.invalidLiteral p.schema.token)

/-- Why a token was not stored. -/
def refusal (p : Property α) (token : String) : ModelError → Problem
  | .indexOutOfRange _ _ capacity => .tooManyValues p.schema.token capacity token
  | e => .notStored p.schema.token e

/-- Stores the values of tokens from a slot on, up to the first one that is refused. -/
def storeTokens (p : Property α) (slot : Nat) : List String → Filled α
  | [] => ⟨p, slot, none⟩
  | token :: rest =>
    match p.coerce token with
    | .error problem => ⟨p, slot, some problem⟩
    | .ok v =>
      match p.set slot v with
      | .error e => ⟨p, slot, some (p.refusal token e)⟩
      | .ok p => p.storeTokens (slot + 1) rest

def fill (p : Property α) (slot : Nat) (text : String) : Filled α :=
  p.storeTokens slot (Text.tokens text)

end Property

end ChunkConfig
