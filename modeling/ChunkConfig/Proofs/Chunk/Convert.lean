import ChunkConfig.Chunk
import ChunkConfig.Proofs.TokenMap

namespace ChunkConfig.Chunk

variable (onType : ChunkSchema → ChunkSchema) (onProperty : PropertySchema → PropertySchema)
  (onValue : Value Chunk → Value Chunk)

mutual

/-- A chunk with its types and its values changed at every depth. -/
def convert : Chunk → Chunk
  | ⟨schema, name, ⟨entries⟩⟩ => ⟨onType schema, name, ⟨convertEntries entries⟩⟩

def convertEntries : List (String × Property Chunk) → List (String × Property Chunk)
  | [] => []
  | (key, ⟨schema, values⟩) :: rest =>
    (key, ⟨onProperty schema, convertValues values⟩) :: convertEntries rest

def convertValues : List (Value Chunk) → List (Value Chunk)
  | [] => []
  | .embedded (some c) :: rest => .embedded (some c.convert) :: convertValues rest
  | v :: rest => onValue v :: convertValues rest

end

def convertValue : Value Chunk → Value Chunk
  | .embedded (some c) => .embedded (some (c.convert onType onProperty onValue))
  | v => onValue v

def convertProperty (p : Property Chunk) : Property Chunk :=
  ⟨onProperty p.schema, p.values.map (convertValue onType onProperty onValue)⟩

theorem convertValues_eq (values : List (Value Chunk)) :
    convertValues onType onProperty onValue values =
      values.map (convertValue onType onProperty onValue) := by
  induction values with
  | nil => rw [convertValues, List.map_nil]
  | cons v rest ih =>
    rcases v with _ | _ | _ | _ | _ | _ | c <;>
      simp only [convertValues, List.map_cons, convertValue, ih]

theorem convertEntries_eq (entries : List (String × Property Chunk)) :
    convertEntries onType onProperty onValue entries =
      entries.map fun e => (e.1, convertProperty onType onProperty onValue e.2) := by
  induction entries with
  | nil => rw [convertEntries, List.map_nil]
  | cons e rest ih =>
    obtain ⟨key, schema, values⟩ := e
    rw [convertEntries, List.map_cons, ih, convertValues_eq]
    rfl

theorem convert_eq (c : Chunk) :
    c.convert onType onProperty onValue =
      ⟨onType c.schema, c.name, c.held.map (convertProperty onType onProperty onValue)⟩ := by
  obtain ⟨schema, name, entries⟩ := c
  rw [convert, convertEntries_eq]
  rfl

end ChunkConfig.Chunk
