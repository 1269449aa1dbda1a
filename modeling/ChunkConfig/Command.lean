import ChunkConfig.Building

namespace ChunkConfig

/-- What a command document asks a running application to do. -/
inductive Command where
  | applyChunks (db : Database)
  | removeChunks (db : Database)
  | requestCurrentChunks
  | requestCurrentSchemas

namespace Command

/-- The name of the protocol of command documents. -/
def acceptsProtocol (name : String) : Bool :=
  Text.same name "xml_config"

/-- The command of an element. Removing chunk types is refused without a word. -/
def ofElement (r : Registry) (name : String) (children : List Xml.Node) :
    Reported (List Command) :=
  match Text.fold name with
  | "apply_chunks" => do return [.applyChunks (← r.buildEach true children)]
  | "remove_chunks" => do return [.removeChunks (← r.buildEach true children)]
  | "request_current_chunks" => pure [.requestCurrentChunks]
  | "request_current_descs" => pure [.requestCurrentSchemas]
  | "remove_descs" => pure []
  | _ => do
    report (.unrecognizedCommand name)
    return []

mutual

/-- The commands of a document in their order. -/
def ofNode (r : Registry) : Xml.Node → Reported (List Command)
  | .document children | .fragment children => ofNodes r children
  | .element name _ children => ofElement r name children
  | _ => pure []

def ofNodes (r : Registry) : List Xml.Node → Reported (List Command)
  | [] => pure []
  | child :: rest => do
    let commands ← ofNode r child
    return commands ++ (← ofNodes r rest)

end

end Command

end ChunkConfig
