import ChunkConfig.Chunk

namespace ChunkConfig

/-- The chunk types that chunks can be made of, with the default chunks of those that have one. -/
structure Registry where
  schemas : TokenMap ChunkSchema
  defaults : TokenMap Chunk

namespace Registry

def empty : Registry :=
  ⟨.empty, .empty⟩

def schema? (r : Registry) (token : String) : Option ChunkSchema :=
  r.schemas.find? token

def default? (r : Registry) (token : String) : Option Chunk :=
  r.defaults.find? token

def size (r : Registry) : Nat :=
  r.schemas.values.length

/-- The tokens of all types, in the order of their code points. -/
def tokens (r : Registry) : List String :=
  (r.schemas.values.map ChunkSchema.token).mergeSort (· ≤ ·)

/-- Makes a chunk of a type. A populated one holds every property of the type, with the values of
the default chunk if there is one. -/
def create (r : Registry) (token : String) (populate : Bool) : Except ModelError Chunk :=
  match r.schema? token with
  | none => .error (.unknownChunkType token)
  | some s =>
    if populate then
      match r.default? token with
      | some d => .ok ((Chunk.full s).adopt d)
      | none => .ok (.full s)
    else .ok (.bare s)

end Registry

end ChunkConfig
