import ChunkConfig.Xml.Tree

namespace ChunkConfig.Xml

/-- One step through a document from its start to its end. -/
inductive Event where
  | declaration
  | start (name : String) (attributes : List Attribute)
  | empty (name : String) (attributes : List Attribute)
  | finish (name : String)
  | text (content : String)
  | cdata (content : String)
  | comment (content : String)
  | instruction (target data : String)
  | doctype (content : String)
  deriving DecidableEq

/-- The names of the open elements after an event, the innermost first. -/
def Event.nest (opened : List String) : Event → List String
  | start name _ => name :: opened
  | finish _ => opened.tail
  | _ => opened

end ChunkConfig.Xml
