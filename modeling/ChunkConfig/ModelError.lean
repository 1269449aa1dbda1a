import ChunkConfig.ValueKind

namespace ChunkConfig

/-- Why an operation on chunks and their schemas is refused. -/
inductive ModelError where
  | unknownChunkType (token : String)
  | unknownValueKind (name : String)
  | invalidCount (text : String)
  | invalidLiteral (kind : ValueKind) (text : String)
  | kindMismatch (expected found : ValueKind)
  | indexOutOfRange (property : String) (index capacity : Nat)
  deriving DecidableEq

def ModelError.message : ModelError → String
  | unknownChunkType token => s!"no ChunkDesc known for type '{token}'"
  | unknownValueKind name => s!"unknown value type '{name}'"
  | invalidCount text => s!"invalid value count '{text}'"
  | invalidLiteral kind text => s!"cannot read '{text}' as a {kind.token} value"
  | kindMismatch expected found =>
    s!"type mismatch: expected {expected.token}, found {found.token}"
  | indexOutOfRange property index capacity =>
    s!"index {index} out of range for property '{property}' ({capacity} values)"

end ChunkConfig
