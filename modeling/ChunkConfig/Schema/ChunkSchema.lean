import ChunkConfig.Schema.PropertySchema
import ChunkConfig.Xml.Tree

namespace ChunkConfig

/-- What a chunk type holds. Properties stand in the order of their declaration. The template of
the default values stays a tree until every type it may use is known. -/
structure ChunkSchema where
  token : String := ""
  givenName : String := ""
  properties : List PropertySchema := []
  help : String := ""
  defaults : Option Xml.Element := none
  deriving DecidableEq

/-- Puts a property in the place of the one with the same token, or after all others. Gives the
property that had to leave. -/
def PropertySchema.insertInto (p : PropertySchema) :
    List PropertySchema → Option PropertySchema × List PropertySchema
  | [] => (none, [p])
  | q :: qs =>
    if Text.same q.token p.token then (some q, p :: qs)
    else
      let (displaced, qs) := p.insertInto qs
      (displaced, q :: qs)

namespace ChunkSchema

/-- The name to show, which is the token when no name was given. -/
def name (s : ChunkSchema) : String :=
  if s.givenName.isEmpty then s.token else s.givenName

def property? (s : ChunkSchema) (token : String) : Option PropertySchema :=
  s.properties.find? fun p => Text.same p.token token

/-- Declares a property. A later declaration of a token displaces the earlier one. -/
def declare (s : ChunkSchema) (p : PropertySchema) : Option PropertySchema × ChunkSchema :=
  let (displaced, properties) := p.insertInto s.properties
  (displaced, { s with properties })

end ChunkSchema

/-- Chunk types in the order in which they were described. Tokens may repeat. -/
abbrev Catalog := List ChunkSchema

/-- The first chunk type with the given token. -/
def Catalog.schema? (c : Catalog) (token : String) : Option ChunkSchema :=
  c.find? fun s => Text.same s.token token

end ChunkConfig
