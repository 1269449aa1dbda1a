import ChunkConfig.Property
import ChunkConfig.Schema.ChunkSchema
import ChunkConfig.TokenMap

namespace ChunkConfig

/-- A named thing of some chunk type with its properties, which may embed further chunks. -/
structure Chunk where
  schema : ChunkSchema
  name : String
  held : TokenMap (Property Chunk)

namespace Chunk

/-- A chunk without properties, named after its type. -/
def bare (schema : ChunkSchema) : Chunk :=
  ⟨schema, schema.token, .empty⟩

def hold (c : Chunk) (token : String) (p : Property Chunk) : Chunk :=
  { c with held := c.held.insert token p }

/-- A chunk with all properties of its type, named after its type. -/
def full (schema : ChunkSchema) : Chunk :=
  schema.properties.foldl (fun c p => c.hold p.token (.ofSchema p)) (bare schema)

def property? (c : Chunk) (token : String) : Option (Property Chunk) :=
  c.held.find? token

/-- A property as it is before something is stored in it: the one that the chunk holds, or else a
new one if its type declares it. -/
def open? (c : Chunk) (token : String) : Option (Property Chunk) :=
  match c.property? token with
  | some p => some p
  | none => (c.schema.property? token).map .ofSchema

/-- Changes a property that the chunk holds or that its type declares. From then on the chunk holds
it, even when it stays as it was. -/
def edit? {β : Type} (c : Chunk) (token : String) (f : Property Chunk → β × Property Chunk) :
    Option (β × Chunk) :=
  (c.open? token).map fun p => ((f p).1, c.hold token (f p).2)

/-- Stores a value in a slot of a property. A value that is refused leaves the property as it
was. -/
def set? (c : Chunk) (token : String) (index : Nat) (v : Value Chunk) :
    Option (Except ModelError Unit × Chunk) :=
  c.edit? token fun p =>
    match p.set index v with
    | .ok q => (.ok (), q)
    | .error e => (.error e, p)

/-- Stores the values of a text in a property, from a slot on. -/
def setText? (c : Chunk) (token : String) (slot : Nat) (text : String) :
    Option (Property.Filled Chunk × Chunk) :=
  c.edit? token fun p => (p.fill slot text, (p.fill slot text).property)

def clear? (c : Chunk) (token : String) : Option Chunk :=
  (c.edit? token fun p => ((), p.clear)).map (·.2)

def value? (c : Chunk) (token : String) (index : Nat) : Option (Value Chunk) :=
  (c.property? token).bind fun p => p.values[index]?

/-- The properties that the chunk holds, in the order of their declaration. -/
def properties (c : Chunk) : List (Property Chunk) :=
  c.schema.properties.filterMap fun p => c.property? p.token

/-- Takes over all properties of another chunk. -/
def adopt (c other : Chunk) : Chunk :=
  { c with held := c.held.union other.held }

mutual

/-- Floats are compared as numbers, everything else for being the same. -/
def beq : Chunk → Chunk → Bool
  | ⟨s, n, ⟨ps⟩⟩, ⟨t, m, ⟨qs⟩⟩ => s == t && n == m && beqEntries ps qs

def beqEntries : List (String × Property Chunk) → List (String × Property Chunk) → Bool
  | [], [] => true
  | (k, ⟨s, vs⟩) :: ps, (l, ⟨t, ws⟩) :: qs =>
    k == l && s == t && beqValues vs ws && beqEntries ps qs
  | _, _ => false

def beqValues : List (Value Chunk) → List (Value Chunk) → Bool
  | [], [] => true
  | v :: vs, w :: ws => beqValue v w && beqValues vs ws
  | _, _ => false

def beqValue : Value Chunk → Value Chunk → Bool
  | .int m, .int n => m == n
  | .float x, .float y => x == y
  | .bool a, .bool b => a == b
  | .string s, .string t | .chunk s, .chunk t => s == t
  | .embedded (some c), .embedded (some d) => beq c d
  | .embedded none, .embedded none => true
  | _, _ => false

end

instance : BEq Chunk := ⟨beq⟩

end Chunk

/-- Chunks in the order in which they were added. Names may repeat. -/
abbrev Database := List Chunk

namespace Database

def isNamed (name : String) (c : Chunk) : Bool :=
  Text.same c.name name

/-- The first chunk with the given name. -/
def chunk? (db : Database) (name : String) : Option Chunk :=
  db.find? (isNamed name)

/-- Puts a chunk in the place of the first one with the given name. -/
def replace (db : Database) (name : String) (c : Chunk) : Database :=
  match db.findIdx? (isNamed name) with
  | some i => db.set i c
  | none => db

/-- Takes out the first chunk with the given name. -/
def remove (db : Database) (name : String) : Database :=
  db.eraseP (isNamed name)

def names (db : Database) : List String :=
  db.map Chunk.name

end Database

end ChunkConfig
