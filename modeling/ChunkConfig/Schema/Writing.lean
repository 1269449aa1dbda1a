import ChunkConfig.Schema.ChunkSchema

namespace ChunkConfig

open Xml (Node Element Attribute)

/-- A help element, when there is any help. -/
def helpElements (help : String) : List Element :=
  if help.isEmpty then [] else [⟨"help", [], [.text help]⟩]

def labelElement (label : String) : Element :=
  ⟨"label", [⟨"name", label⟩], []⟩

def Alias.element (a : Alias) : Element :=
  let value : List Attribute := if a.value.isEmpty then [] else [⟨"value", a.value⟩]
  ⟨"enumeration", ⟨"name", a.label⟩ :: value, []⟩

def PropertySchema.element (p : PropertySchema) : Element :=
  let level : List Attribute :=
    match p.audience with
    | .beginner => []
    | .expert => [⟨"userlevel", p.audience.token⟩]
  { name := "PropertyDesc"
    attributes :=
      [⟨"token", p.token⟩, ⟨"name", p.name⟩, ⟨"type", p.kind.token⟩, ⟨"num", p.count.text⟩] ++ level
    children :=
      (p.labels.map labelElement ++ p.aliases.map Alias.element ++ helpElements p.help).map
        Element.node }

def ChunkSchema.element (s : ChunkSchema) : Element :=
  let template (e : Element) : Element := ⟨"Defaults", [], [e.node]⟩
  { name := "ChunkDesc"
    attributes := [⟨"token", s.token⟩, ⟨"name", s.name⟩]
    children :=
      (helpElements s.help ++ s.properties.map PropertySchema.element ++
        s.defaults.toList.map template).map Element.node }

def Catalog.document (c : Catalog) : Node :=
  .document [.element "ChunkDescDB" [] (c.map fun s => s.element.node)]

end ChunkConfig
