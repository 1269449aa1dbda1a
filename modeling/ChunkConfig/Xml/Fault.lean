import ChunkConfig.ReadError
import ChunkConfig.Text.Reference
import ChunkConfig.Text.Utf8

namespace ChunkConfig.Xml

open Text (Utf8Fault ReferenceFault)

/-- Why a piece of text or an attribute value has no characters. -/
inductive TextFault where
  | encoding (fault : Utf8Fault)
  | reference (fault : ReferenceFault)
  deriving DecidableEq

def TextFault.message : TextFault → String
  | .encoding fault => s!"cannot decode input using UTF-8: {fault.message}"
  | .reference fault => fault.message

/-- What is wrong with the attributes of a tag. Positions count from the start of the tag. -/
inductive AttributeFault where
  | noEquals (position : Nat)
  | repeated (position previous : Nat)
  | noValue (position : Nat)
  | unquoted (position : Nat)
  | unclosed (position : Nat) (quote : Char)
  | key (fault : Utf8Fault)
  | value (fault : TextFault)
  deriving DecidableEq

def AttributeFault.message : AttributeFault → String
  | .noEquals p =>
    s!"Attribute error: position {p}: attribute key must be directly followed by `=` or space"
  | .repeated p previous =>
    s!"Attribute error: position {p}: duplicated attribute, previous declaration at position " ++
      toString previous
  | .noValue p =>
    s!"Attribute error: position {p}: `=` must be followed by an attribute value"
  | .unquoted p =>
    s!"Attribute error: position {p}: attribute value must be enclosed in `\"` or `'`"
  | .unclosed p quote =>
    s!"Attribute error: position {p}: missing closing quote `{quote}` in attribute value"
  | .key fault => s!"Attribute key error: {fault.message}"
  | .value fault => s!"Attribute value error: {fault.message}"

/-- What is wrong with markup, apart from where it is. -/
inductive MarkupFault where
  | unknown
  | unclosedComment
  | unclosedCdata
  | unclosedDoctype
  | unclosedInstruction
  | unclosedTag
  | unnamedDoctype
  | strayEnd (name : String)
  | mismatchedEnd (expected found : String)
  deriving DecidableEq

def MarkupFault.message : MarkupFault → String
  | .unknown => "syntax error: unknown or missed symbol in markup"
  | .unclosedComment => "syntax error: comment not closed: `-->` not found before end of input"
  | .unclosedCdata => "syntax error: CDATA not closed: `]]>` not found before end of input"
  | .unclosedDoctype => "syntax error: DOCTYPE not closed: `>` not found before end of input"
  | .unclosedInstruction =>
    "syntax error: processing instruction or xml declaration not closed: " ++
      "`?>` not found before end of input"
  | .unclosedTag => "syntax error: tag not closed: `>` not found before end of input"
  | .unnamedDoctype =>
    "ill-formed document: `<!DOCTYPE>` declaration does not contain a name of a document type"
  | .strayEnd name =>
    s!"ill-formed document: close tag `</{name}>` does not match any open tag"
  | .mismatchedEnd expected found =>
    s!"ill-formed document: expected `</{expected}>`, but `</{found}>` was found"

/-- Why bytes are no document. Positions count bytes of the input; names and attributes of tags
are reported without one. -/
inductive Fault where
  | text (position : Nat) (fault : TextFault)
  | markup (position : Nat) (fault : MarkupFault)
  | tagName (fault : Utf8Fault)
  | attributes (fault : AttributeFault)
  | content (fault : Utf8Fault)
  | unclosedElement (name : String)
  deriving DecidableEq

def Fault.readError : Fault → ReadError
  | .text position fault => .xml position fault.message
  | .markup position fault => .xml position fault.message
  | .tagName fault => .xml 0 s!"Invalid tag name: {fault.message}"
  | .attributes fault => .xml 0 fault.message
  | .content fault => .utf8 fault.message
  | .unclosedElement name => .unbalanced s!"element '{name}' is never closed"

end ChunkConfig.Xml
