import ChunkConfig.Xml.Event

namespace ChunkConfig.Xml

/-- An element whose end has not come yet. Its children so far stand last one first. -/
structure Frame where
  name : String
  attributes : List Attribute
  children : List Node

/-- A document that is being put together: the open elements, the innermost first, and the nodes
outside of all elements, the last one first. -/
structure Assembly where
  frames : List Frame
  top : List Node

namespace Assembly

/-- Changes the children of the innermost open element, or the nodes outside of all elements. -/
def modify (a : Assembly) (f : List Node → List Node) : Assembly :=
  match a.frames with
  | [] => { a with top := f a.top }
  | frame :: frames => { a with frames := { frame with children := f frame.children } :: frames }

def add (a : Assembly) (node : Node) : Assembly :=
  a.modify (node :: ·)

/-- Joins text to text that stands directly before it. -/
def joinText (content : String) : List Node → List Node
  | .text before :: nodes => .text (before ++ content) :: nodes
  | nodes => .text content :: nodes

/-- Blank text outside of all elements is dropped. -/
def addText (a : Assembly) (content : String) : Assembly :=
  if a.frames.isEmpty ∧ Text.allBlank content then a else a.modify (joinText content)

/-- Closes the innermost open element. -/
def close (a : Assembly) : Assembly :=
  match a.frames with
  | [] => a
  | frame :: frames =>
    { a with frames := frames }.add (.element frame.name frame.attributes frame.children.reverse)

/-- Takes one event over. Blanks around the data of instructions and around document types mean
nothing. -/
def step (a : Assembly) : Event → Assembly
  | .declaration => a
  | .start name attributes => { a with frames := ⟨name, attributes, []⟩ :: a.frames }
  | .empty name attributes => a.add (.element name attributes [])
  | .finish _ => a.close
  | .text content | .cdata content => a.addText content
  | .comment content => a.add (.comment content)
  | .instruction target data => a.add (.instruction target (Text.trim data))
  | .doctype content => a.add (.other (Text.trim content))

end Assembly

/-- Puts the nodes of a document together, or gives the name of the innermost element that is
never closed. -/
def assemble (events : List Event) : Except String (List Node) :=
  let a := events.foldl Assembly.step ⟨[], []⟩
  match a.frames with
  | [] => .ok a.top.reverse
  | frame :: _ => .error frame.name

end ChunkConfig.Xml
