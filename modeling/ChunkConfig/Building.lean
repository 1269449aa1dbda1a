import ChunkConfig.Registry
import ChunkConfig.Reported

namespace ChunkConfig

def reportUnexpected (node : Xml.Node) : Reported Unit :=
  report (.unexpectedNode node.kind node.name)

namespace Chunk

def reportNoProperty (c : Chunk) (token : String) : Reported Unit :=
  report (.noSuchProperty token c.name c.schema.token)

/-- Fills a property with value text and lets the chunk hold it. -/
def fill (c : Chunk) (p : Property Chunk) (token text : String) : Reported Chunk :=
  let filled := p.fill 0 text
  ⟨c.hold token filled.property, filled.problem.toList⟩

/-- Takes an attribute of a chunk element over. Embedded chunks have no text form, and the chunk
keeps those it has. -/
def applyAttribute (c : Chunk) (a : Xml.Attribute) : Reported Chunk :=
  if Text.same a.name "name" then pure { c with name := a.value }
  else
    match c.schema.property? a.name, c.open? a.name with
    | some schema, some p =>
      c.fill (if schema.kind = .embedded then p else p.restart) a.name a.value
    | _, _ => do
      c.reportNoProperty a.name
      return c

/-- Fills a property with the text among the children of its element, where each text goes on
after the slot at which the one before it stopped. -/
def fillContent (p : Property Chunk) (slot : Nat) (element : String) :
    List Xml.Node → Reported (Property Chunk)
  | [] => pure p
  | .text content :: rest => do
    let filled := p.fill slot content
    let q ← (⟨filled.property, filled.problem.toList⟩ : Reported (Property Chunk))
    fillContent q filled.next element rest
  | node :: rest => do
    report (.unexpectedInValue node.kind node.name element)
    fillContent p slot element rest

/-- Stores chunks from a slot on, up to the first one that is refused. -/
def storeChunks (p : Property Chunk) (slot : Nat) : List Chunk → Reported (Property Chunk)
  | [] => pure p
  | c :: rest =>
    match p.set slot (.embedded (some c)) with
    | .ok p => storeChunks p (slot + 1) rest
    | .error (.indexOutOfRange _ _ capacity) =>
      ⟨p, [.tooManyChunks p.schema.token capacity]⟩
    | .error e => ⟨p, [.notStored p.schema.token e]⟩

end Chunk

namespace Registry

mutual

/-- The chunk that a node describes: an element of its type's name, or the first child of a
document. `nested` says whether embedded chunks are populated, `populate` whether this one is. -/
def buildChunk (r : Registry) (nested populate : Bool) : Xml.Node → Reported (Option Chunk)
  | .document [] | .fragment [] => pure none
  | .document (child :: _) | .fragment (child :: _) => r.buildChunk nested populate child
  | .element name attributes children =>
    match r.create name populate with
    | .error e => do
      report (.unknownChunkType e)
      return none
    | .ok c => do
      let c ← attributes.foldlM Chunk.applyAttribute c
      return some (← r.applyAll nested c children)
  | .text _ | .comment _ | .instruction .. | .notationName _ => pure none
  | node => do
    reportUnexpected node
    return none

/-- Takes the children of a chunk element over. -/
def applyAll (r : Registry) (nested : Bool) (c : Chunk) : List Xml.Node → Reported Chunk
  | [] => pure c
  | child :: rest => do r.applyAll nested (← r.applyNode nested c child) rest

/-- Takes one attribute or child element of a chunk element over. -/
def applyNode (r : Registry) (nested : Bool) (c : Chunk) : Xml.Node → Reported Chunk
  | .attr a => c.applyAttribute a
  | .element name _ children =>
    match c.schema.property? name, c.open? name with
    | some schema, some p =>
      if schema.kind = .embedded then do
        let chunks ← r.buildAll nested children
        return c.hold name (← Chunk.storeChunks p.restart 0 chunks)
      else return c.hold name (← Chunk.fillContent p.restart 0 name children)
    | _, _ => do
      c.reportNoProperty name
      return c
  | .text _ | .comment _ | .instruction .. | .notationName _ => pure c
  | node => do
    reportUnexpected node
    return c

/-- The chunks that nodes describe, without those that describe none. -/
def buildAll (r : Registry) (nested : Bool) : List Xml.Node → Reported (List Chunk)
  | [] => pure []
  | child :: rest => do
    let c ← r.buildChunk nested nested child
    return c.toList ++ (← r.buildAll nested rest)

end

/-- The chunks of the elements among nodes. -/
def buildElements (r : Registry) (populate : Bool) : List Xml.Node → Reported Database
  | [] => pure []
  | .element name attributes children :: rest => do
    let c ← r.buildChunk populate populate (.element name attributes children)
    return c.toList ++ (← r.buildElements populate rest)
  | _ :: rest => r.buildElements populate rest

mutual

/-- The chunks of all databases in a document. -/
def build (r : Registry) (populate : Bool) : Xml.Node → Reported Database
  | .document children | .fragment children => r.buildEach populate children
  | .element name _ children =>
    if Text.same name "ConfigChunkDB" then r.buildElements populate children
    else do
      report (.unrecognizedElement name)
      return []
  | .text _ | .comment _ | .instruction .. | .notationName _ => pure []
  | node => do
    reportUnexpected node
    return []

def buildEach (r : Registry) (populate : Bool) : List Xml.Node → Reported Database
  | [] => pure []
  | child :: rest => do
    let db ← r.build populate child
    return db ++ (← r.buildEach populate rest)

end

end Registry

end ChunkConfig
