import ChunkConfig.ModelError
import ChunkConfig.Xml.Tree

namespace ChunkConfig

/-- How bad a diagnostic is: something was passed over, something was given up, or nothing could be
read at all. -/
inductive Severity where
  | warning
  | error
  | failure
  deriving DecidableEq

namespace Severity

def text : Severity → String
  | warning => "warning"
  | error => "error"
  | failure => "failure"

def rank : Severity → Nat
  | warning => 0
  | error => 1
  | failure => 2

end Severity

/-- The stable codes of diagnostics. -/
inductive Code where
  | unrecognizedElement
  | unexpectedNode
  | noSuchProperty
  | unexpectedChild
  | duplicateProperty
  | tooManyValues
  | extraDefault
  | defaultOfOtherType
  | unwritableValue
  | unknownChunkType
  | unidentifiedAttribute
  | invalidCount
  | unknownValueKind
  | invalidLiteral
  | missingToken
  | coercion
  | readFailure
  | unlisted
  deriving DecidableEq

namespace Code

def all : List Code :=
  [unrecognizedElement, unexpectedNode, noSuchProperty, unexpectedChild, duplicateProperty,
    tooManyValues, extraDefault, defaultOfOtherType, unwritableValue, unknownChunkType,
    unidentifiedAttribute, invalidCount, unknownValueKind, invalidLiteral, missingToken, coercion,
    readFailure]

def text : Code → String
  | unrecognizedElement => "W0001"
  | unexpectedNode => "W0002"
  | noSuchProperty => "W0003"
  | unexpectedChild => "W0004"
  | duplicateProperty => "W0005"
  | tooManyValues => "W0006"
  | extraDefault => "W0007"
  | defaultOfOtherType => "W0008"
  | unwritableValue => "W0009"
  | unknownChunkType => "E0001"
  | unidentifiedAttribute => "E0002"
  | invalidCount => "E0003"
  | unknownValueKind => "E0004"
  | invalidLiteral => "E0005"
  | missingToken => "E0006"
  | coercion => "E0007"
  | readFailure => "F0001"
  | unlisted => "X0000"

/-- The code with the given text. All texts that are no codes have one code together. -/
def ofText (text : String) : Code :=
  (all.find? (·.text = text)).getD unlisted

def severity : Code → Severity
  | unrecognizedElement | unexpectedNode | noSuchProperty | unexpectedChild | duplicateProperty
  | tooManyValues | extraDefault | defaultOfOtherType | unwritableValue => .warning
  | unknownChunkType | unidentifiedAttribute | invalidCount | unknownValueKind | invalidLiteral
  | missingToken | coercion | unlisted => .error
  | readFailure => .failure

end Code

/-- The elements of a property description whose attributes are fixed. -/
inductive FixedElement where
  | label
  | enumeration
  deriving DecidableEq

def FixedElement.text : FixedElement → String
  | label => "value label"
  | enumeration => "enumeration"

/-- A problem that was met while something was built or written, and that did not stop it. -/
inductive Problem where
  | unrecognizedElement (name : String)
  | unrecognizedCommand (name : String)
  | unexpectedNode (kind : Xml.NodeKind) (name : String)
  | noSuchProperty (token chunk type : String)
  | unexpectedInValue (kind : Xml.NodeKind) (name property : String)
  | unexpectedInHelp (kind : Xml.NodeKind) (name owner : String)
  | duplicateProperty (type property : String)
  | tooManyValues (property : String) (capacity : Nat) (token : String)
  | tooManyChunks (property : String) (capacity : Nat)
  | extraDefault (name type : String)
  | defaultOfOtherType (type found : String)
  | unwritableValue (index : Nat) (property chunk : String)
  | unknownChunkType (error : ModelError)
  | unidentifiedAttribute (name : String) (element : FixedElement) (owner : String)
  | invalidCount (owner : String) (error : ModelError)
  | unknownValueKind (owner : String) (error : ModelError)
  | invalidLiteral (property : String) (error : ModelError)
  | chunkTypeWithoutToken (name : String)
  | propertyWithoutToken
  | textForEmbedded (property : String)
  | notStored (property : String) (error : ModelError)
  deriving DecidableEq

namespace Problem

def code : Problem → Code
  | unrecognizedElement _ | unrecognizedCommand _ => .unrecognizedElement
  | unexpectedNode .. => .unexpectedNode
  | noSuchProperty .. => .noSuchProperty
  | unexpectedInValue .. | unexpectedInHelp .. => .unexpectedChild
  | duplicateProperty .. => .duplicateProperty
  | tooManyValues .. | tooManyChunks .. => .tooManyValues
  | extraDefault .. => .extraDefault
  | defaultOfOtherType .. => .defaultOfOtherType
  | unwritableValue .. => .unwritableValue
  | unknownChunkType _ => .unknownChunkType
  | unidentifiedAttribute .. => .unidentifiedAttribute
  | invalidCount .. => .invalidCount
  | unknownValueKind .. => .unknownValueKind
  | invalidLiteral .. => .invalidLiteral
  | chunkTypeWithoutToken _ | propertyWithoutToken => .missingToken
  | textForEmbedded _ | notStored .. => .coercion

def severity (p : Problem) : Severity :=
  p.code.severity

def message : Problem → String
  | unrecognizedElement name => s!"unrecognized element '{name}'"
  | unrecognizedCommand name => s!"unrecognized command '{name}'"
  | unexpectedNode kind name => s!"unexpected {kind.label} node '{name}'"
  | noSuchProperty token chunk type =>
    s!"no such property '{token}' in chunk '{chunk}' of type '{type}'"
  | unexpectedInValue kind name property =>
    s!"unexpected {kind.label} node '{name}' in value of property '{property}'"
  | unexpectedInHelp kind name owner =>
    s!"unexpected {kind.label} node '{name}' in help text of '{owner}'"
  | duplicateProperty type property =>
    s!"ChunkDesc '{type}' declares property '{property}' more than once; keeping the last"
  | tooManyValues property capacity token =>
    s!"property '{property}' takes {capacity} value(s); ignoring '{token}' and any after it"
  | tooManyChunks property capacity =>
    s!"property '{property}' takes {capacity} chunk(s); ignoring the rest"
  | extraDefault name type => s!"ignoring extra default chunk '{name}' in ChunkDesc '{type}'"
  | defaultOfOtherType type found => s!"default chunk for '{type}' has type '{found}'"
  | unwritableValue index property chunk =>
    s!"value {index} of property '{property}' in chunk '{chunk}' mixes quotes and whitespace; " ++
      "writing it as empty"
  | unknownChunkType error => s!"unable to create chunk: {error.message}"
  | unidentifiedAttribute name element owner =>
    s!"unidentified attribute '{name}' in {element.text} of PropertyDesc '{owner}'"
  | invalidCount owner error | unknownValueKind owner error =>
    s!"PropertyDesc '{owner}': {error.message}"
  | invalidLiteral property error | notStored property error =>
    s!"property '{property}': {error.message}"
  | chunkTypeWithoutToken name => s!"ChunkDesc '{name}' has no token"
  | propertyWithoutToken => "PropertyDesc has no token"
  | textForEmbedded property =>
    s!"property '{property}' holds embedded chunks and cannot take text values"

end Problem

end ChunkConfig
