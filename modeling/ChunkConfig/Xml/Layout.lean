import ChunkConfig.Text.Escape
import ChunkConfig.Xml.Event

namespace ChunkConfig.Xml

structure WriteOptions where
  /-- Blanks for each level of nesting; without any, all stands on one line. -/
  indent : Nat := 2
  declaration : Bool := true

mutual

/-- The events that write a node. Blank text is left to the layout, and the kinds of nodes that
have no place in the text of a document are passed over. -/
def Node.events : Node → List Event
  | .document cs | .fragment cs => allEvents cs
  | .element name attributes cs =>
    if cs.all Node.isBlankText then [.empty name attributes]
    else .start name attributes :: allEvents cs ++ [.finish name]
  | .text content => if Text.allBlank content then [] else [.text content]
  | .comment content => [.comment content]
  | .instruction target data => [.instruction target data]
  | .attr _ | .notationName _ | .other _ => []

def allEvents : List Node → List Event
  | [] => []
  | c :: cs => c.events ++ allEvents cs

end

def Attribute.markup (a : Attribute) : String :=
  " " ++ a.name ++ "=\"" ++ Text.escapeAttribute a.value ++ "\""

def tagMarkup (name : String) (attributes : List Attribute) : String :=
  name ++ String.join (attributes.map Attribute.markup)

/-- The characters of one event. -/
def Event.markup : Event → String
  | declaration => "<?xml version=\"1.0\" encoding=\"UTF-8\"?>"
  | start name attributes => "<" ++ tagMarkup name attributes ++ ">"
  | empty name attributes => "<" ++ tagMarkup name attributes ++ "/>"
  | finish name => "</" ++ name ++ ">"
  | text content => Text.escapeText content
  | cdata content => "<![CDATA[" ++ content ++ "]]>"
  | comment content => "<!--" ++ content ++ "-->"
  | instruction target data => "<?" ++ target ++ " " ++ data ++ "?>"
  | doctype content => "<!DOCTYPE " ++ content ++ ">"

def Event.isText : Event → Bool
  | text _ => true
  | _ => false

/-- The depth at which the line of an event starts. -/
def Event.lineDepth (depth : Nat) : Event → Nat
  | finish _ => depth - 1
  | _ => depth

def Event.depthAfter (depth : Nat) : Event → Nat
  | start .. => depth + 1
  | finish _ => depth - 1
  | _ => depth

/-- A new line for an event. There is none next to text, and none at all without indentation. -/
def lineBreak (indent depth : Nat) (fresh : Bool) (e : Event) : String :=
  if indent = 0 ∨ !fresh ∨ e.isText then ""
  else .ofList ('\n' :: List.replicate (indent * e.lineDepth depth) ' ')

/-- The characters of events from a given depth on. A line may begin when `fresh` is set. -/
def layOut (indent depth : Nat) (fresh : Bool) : List Event → String
  | [] => ""
  | e :: es =>
    lineBreak indent depth fresh e ++ e.markup ++
      layOut indent (e.depthAfter depth) (!e.isText) es

/-- The text of a document, which ends with a new line. -/
def write (options : WriteOptions) (node : Node) : String :=
  let events := if options.declaration then .declaration :: node.events else node.events
  layOut options.indent 0 false events ++ "\n"

end ChunkConfig.Xml
