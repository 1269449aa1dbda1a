import ChunkConfig.Chunk
import ChunkConfig.Reported

namespace ChunkConfig

namespace Chunk

/-- The token of a value. One that has no token is written as an empty token, so that the values
after it keep their slots. -/
def tokenOf (owner property : String) (index : Nat) (v : Value Chunk) : Reported String :=
  match v.token? with
  | some token => pure token
  | none => ⟨"\"\"", [.unwritableValue index property owner]⟩

/-- The children of a property element: first its chunks, then its tokens as one text. -/
def content (chunks : List Xml.Node) (tokens : List String) : List Xml.Node :=
  if tokens.isEmpty then chunks else chunks ++ [.text (" ".intercalate tokens)]

mutual

/-- The element of a chunk, named after its type, with the properties it holds in the order of
their declaration. -/
def node : Chunk → Reported Xml.Node
  | ⟨schema, name, ⟨entries⟩⟩ => do
    let nodes : TokenMap (Reported Xml.Node) := ⟨propertyNodes name entries⟩
    let children ← (schema.properties.filterMap fun p => nodes.find? p.token).mapM id
    return .element schema.token [⟨"name", name⟩] children

/-- The elements of all properties of a chunk, under the keys of the properties. -/
def propertyNodes (owner : String) :
    List (String × Property Chunk) → List (String × Reported Xml.Node)
  | [] => []
  | (key, ⟨schema, values⟩) :: rest =>
    let written : Reported Xml.Node := do
      let (chunks, tokens) ← valueNodes owner schema.token 0 values
      return .element schema.token [] (content chunks tokens)
    (key, written) :: propertyNodes owner rest

/-- The chunks and the tokens among the values from a slot on. Unfilled slots leave no trace. -/
def valueNodes (owner property : String) (index : Nat) :
    List (Value Chunk) → Reported (List Xml.Node × List String)
  | [] => pure ([], [])
  | .embedded (some c) :: rest => do
    let node ← c.node
    let (chunks, tokens) ← valueNodes owner property (index + 1) rest
    return (node :: chunks, tokens)
  | .embedded none :: rest => valueNodes owner property (index + 1) rest
  | v :: rest => do
    let token ← tokenOf owner property index v
    let (chunks, tokens) ← valueNodes owner property (index + 1) rest
    return (chunks, token :: tokens)

end

end Chunk

/-- The document of a database, with a problem for each value that will not read back. -/
def Database.document (db : Database) : Reported Xml.Node := do
  return .document [.element "ConfigChunkDB" [] (← db.mapM Chunk.node)]

end ChunkConfig
