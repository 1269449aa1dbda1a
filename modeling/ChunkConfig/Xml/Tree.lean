import ChunkConfig.Text.Blank
import ChunkConfig.Text.Folding

namespace ChunkConfig.Xml

structure Attribute where
  name : String
  value : String
  deriving DecidableEq, Inhabited

inductive NodeKind where
  | document
  | fragment
  | element
  | attr
  | text
  | comment
  | instruction
  | notationName
  | other
  deriving DecidableEq

def NodeKind.label : NodeKind → String
  | .document => "Document"
  | .fragment => "DocumentFragment"
  | .element => "Element"
  | .attr => "Attribute"
  | .text => "Text"
  | .comment => "Comment"
  | .instruction => "ProcessingInstruction"
  | .notationName => "Notation"
  | .other => "Other"

/-- A node of a document tree. Document type declarations are `other` nodes. -/
inductive Node where
  | document (children : List Node)
  | fragment (children : List Node)
  | element (name : String) (attributes : List Attribute) (children : List Node)
  | attr (a : Attribute)
  | text (content : String)
  | comment (content : String)
  | instruction (target data : String)
  | notationName (name : String)
  | other (content : String)
  deriving Inhabited

/-- The parts of an element node. -/
structure Element where
  name : String
  attributes : List Attribute
  children : List Node

def Element.node (e : Element) : Node :=
  .element e.name e.attributes e.children

/-- The value of the first attribute with the given name. -/
def findAttribute? (attributes : List Attribute) (name : String) : Option String :=
  (attributes.find? fun a => Text.same a.name name).map Attribute.value

namespace Node

def kind : Node → NodeKind
  | document _ => .document
  | fragment _ => .fragment
  | element .. => .element
  | attr _ => .attr
  | text _ => .text
  | comment _ => .comment
  | instruction .. => .instruction
  | notationName _ => .notationName
  | other _ => .other

/-- The name of a node. Kinds without names have a fixed one that begins with `#`. -/
def name : Node → String
  | document _ => "#document"
  | fragment _ => "#document-fragment"
  | element name .. => name
  | attr a => a.name
  | text _ => "#text"
  | comment _ => "#comment"
  | instruction target _ => target
  | notationName name => name
  | other _ => "#other"

def value? : Node → Option String
  | attr a => some a.value
  | text s | comment s | other s => some s
  | instruction _ data => some data
  | document _ | fragment _ | element .. | notationName _ => none

def children : Node → List Node
  | document cs | fragment cs | element _ _ cs => cs
  | _ => []

def element? : Node → Option Element
  | element name attributes cs => some ⟨name, attributes, cs⟩
  | _ => none

/-- Text that only lays out the document. -/
def isBlankText : Node → Bool
  | text s => Text.allBlank s
  | _ => false

mutual

def beq : Node → Node → Bool
  | document cs, document ds | fragment cs, fragment ds => beqAll cs ds
  | element n as cs, element m bs ds => n == m && as == bs && beqAll cs ds
  | attr a, attr b => a == b
  | text s, text t | comment s, comment t | notationName s, notationName t
  | other s, other t => s == t
  | instruction s d, instruction t e => s == t && d == e
  | _, _ => false

def beqAll : List Node → List Node → Bool
  | [], [] => true
  | c :: cs, d :: ds => beq c d && beqAll cs ds
  | _, _ => false

end

mutual

theorem beq_iff (a b : Node) : a.beq b = true ↔ a = b := by
  cases a <;> cases b <;> simp [beq, beqAll_iff, and_assoc]

theorem beqAll_iff (cs ds : List Node) : beqAll cs ds = true ↔ cs = ds := by
  cases cs <;> cases ds <;> simp [beqAll, beq_iff, beqAll_iff]

end

instance : DecidableEq Node := fun a b =>
  decidable_of_iff (a.beq b = true) (beq_iff a b)

end Node

deriving instance DecidableEq for Element

end ChunkConfig.Xml
