import ChunkConfig.Building

namespace ChunkConfig

/-- The value of the last attribute with the given name, or no text. -/
def lastValue (attributes : List Xml.Attribute) (name : String) : String :=
  (Xml.findAttribute? attributes.reverse name).getD ""

/-- A name that is blank is the token instead. -/
def nameOrToken (name token : String) : String :=
  if Text.allBlank name then token else name

/-- Joins the text among the children of a help element. -/
def helpText (owner : String) : List Xml.Node → Reported String
  | [] => pure ""
  | .text content :: rest => do return content ++ (← helpText owner rest)
  | node :: rest => do
    report (.unexpectedInHelp node.kind node.name owner)
    helpText owner rest

/-- Reports the attributes of a fixed element that have none of the given names. -/
def reportUnidentified (names : List String) (element : FixedElement) (owner : String) :
    List Xml.Attribute → Reported Unit
  | [] => pure ()
  | a :: rest => do
    unless names.any (Text.same a.name) do
      report (.unidentifiedAttribute a.name element owner)
    reportUnidentified names element owner rest

/-- Applies the elements among children, and reports nodes that have no place there. -/
def applyElements {α : Type} (f : α → Xml.Element → Reported α) (a : α) :
    List Xml.Node → Reported α
  | [] => pure a
  | .element name attributes children :: rest => do
    applyElements f (← f a ⟨name, attributes, children⟩) rest
  | .text _ :: rest | .comment _ :: rest | .instruction .. :: rest | .notationName _ :: rest =>
    applyElements f a rest
  | node :: rest => do
    reportUnexpected node
    applyElements f a rest

namespace PropertySchema

/-- Takes one child element of a property description over. -/
def applyElement (p : PropertySchema) (e : Xml.Element) : Reported PropertySchema := do
  if Text.same e.name "label" then
    reportUnidentified ["name"] .label p.token e.attributes
    let label := lastValue e.attributes "name"
    return if label.isEmpty then p else { p with labels := p.labels ++ [label] }
  else if Text.same e.name "enumeration" then
    reportUnidentified ["name", "value"] .enumeration p.token e.attributes
    let label := lastValue e.attributes "name"
    let value := lastValue e.attributes "value"
    return if label.isEmpty then p else { p with aliases := p.aliases ++ [⟨label, value⟩] }
  else if Text.same e.name "help" then
    return { p with help := ← helpText p.token e.children }
  else
    report (.unrecognizedElement e.name)
    return p

/-- Takes one attribute of a property description over. A bad type or count ends it. -/
def applyAttribute (owner : String) (p : PropertySchema) (a : Xml.Attribute) :
    Except Problem PropertySchema :=
  match Text.fold a.name with
  | "token" => .ok { p with token := Text.trim a.value }
  | "name" => .ok { p with givenName := a.value }
  | "type" =>
    match ValueKind.read a.value with
    | .ok kind => .ok { p with kind }
    | .error e => .error (.unknownValueKind owner e)
  | "num" =>
    match SlotCount.read a.value with
    | .ok count => .ok { p with count }
    | .error e => .error (.invalidCount owner e)
  | "userlevel" => .ok { p with audience := (Audience.read? a.value).getD p.audience }
  | _ => .ok p

/-- Reads the attributes of a property description. -/
def ofAttributes (attributes : List Xml.Attribute) : Except Problem PropertySchema := do
  let owner := (Xml.findAttribute? attributes "token").getD ""
  let p ← attributes.foldlM (applyAttribute owner) {}
  if p.token.isEmpty then .error .propertyWithoutToken
  else return { p with givenName := nameOrToken p.givenName p.token }

def ofElement (e : Xml.Element) : Reported (Option PropertySchema) :=
  match ofAttributes e.attributes with
  | .error problem => do
    report problem
    return none
  | .ok p => some <$> applyElements applyElement p e.children

end PropertySchema

namespace ChunkSchema

/-- Takes the first of the default chunks as the template and reports the others. -/
def applyTemplates (s : ChunkSchema) (templates : List Xml.Element) : Reported ChunkSchema :=
  match templates with
  | [] => pure s
  | template :: extras =>
    ⟨{ s with defaults := some template }, extras.map (.extraDefault ·.name s.token)⟩

/-- Takes one child element of the description of a chunk type over. -/
def applyElement (s : ChunkSchema) (e : Xml.Element) : Reported ChunkSchema := do
  if Text.same e.name "PropertyDesc" then
    match ← PropertySchema.ofElement e with
    | none => return s
    | some p =>
      let (displaced, t) := s.declare p
      if displaced.isSome then report (.duplicateProperty s.token p.token)
      return t
  else if Text.same e.name "help" then
    return { s with help := ← helpText s.token e.children }
  else if Text.same e.name "Defaults" then
    s.applyTemplates (e.children.filterMap Xml.Node.element?)
  else
    report (.unrecognizedElement e.name)
    return s

def ofElement (e : Xml.Element) : Reported (Option ChunkSchema) :=
  let token := Text.trim (lastValue e.attributes "token")
  let name := lastValue e.attributes "name"
  if token.isEmpty then do
    report (.chunkTypeWithoutToken name)
    return none
  else
    some <$> applyElements applyElement { token, givenName := nameOrToken name token } e.children

/-- The chunk type that a node describes: a `ChunkDesc` element, or the first child of a
document. -/
def ofNode : Xml.Node → Reported (Option ChunkSchema)
  | .document [] | .fragment [] => pure none
  | .document (child :: _) | .fragment (child :: _) => ofNode child
  | .element name attributes children =>
    if Text.same name "ChunkDesc" then ofElement ⟨name, attributes, children⟩
    else do
      report (.unrecognizedElement name)
      return none
  | .text _ | .comment _ | .instruction .. | .notationName _ => pure none
  | node => do
    reportUnexpected node
    return none

end ChunkSchema

namespace Catalog

def ofChildren : List Xml.Node → Reported Catalog
  | [] => pure []
  | child :: rest => do
    let s ← ChunkSchema.ofNode child
    return s.toList ++ (← ofChildren rest)

mutual

/-- The chunk types of all catalogs in a document. -/
def ofNode : Xml.Node → Reported Catalog
  | .document children | .fragment children => ofNodes children
  | .element name _ children =>
    if Text.same name "ChunkDescDB" then ofChildren children
    else do
      report (.unrecognizedElement name)
      return []
  | .text _ | .comment _ | .instruction .. | .notationName _ => pure []
  | node => do
    reportUnexpected node
    return []

def ofNodes : List Xml.Node → Reported Catalog
  | [] => pure []
  | child :: rest => do
    let c ← ofNode child
    return c ++ (← ofNodes rest)

end

end Catalog

end ChunkConfig
