import ChunkConfig.Text.Folding

namespace ChunkConfig

/-- A map from tokens, where tokens that differ only in the case of letters are one key. The keys
are folded and the entries stand in the order of their keys, so that maps with the same contents
are the same. -/
structure TokenMap (α : Type) where
  entries : List (String × α)

namespace TokenMap

variable {α : Type}

def empty : TokenMap α := ⟨[]⟩

def find? (m : TokenMap α) (token : String) : Option α :=
  m.entries.lookup (Text.fold token)

def insertEntry (key : String) (a : α) : List (String × α) → List (String × α)
  | [] => [(key, a)]
  | (k, b) :: rest =>
    if key < k then (key, a) :: (k, b) :: rest
    else if key = k then (key, a) :: rest
    else (k, b) :: insertEntry key a rest

def insert (m : TokenMap α) (token : String) (a : α) : TokenMap α :=
  ⟨insertEntry (Text.fold token) a m.entries⟩

def erase (m : TokenMap α) (token : String) : TokenMap α :=
  ⟨m.entries.filter (·.1 ≠ Text.fold token)⟩

def values (m : TokenMap α) : List α :=
  m.entries.map (·.2)

/-- Takes over all entries of another map, whose entries win. -/
def union (m other : TokenMap α) : TokenMap α :=
  ⟨other.entries.foldl (fun entries (k, a) => insertEntry k a entries) m.entries⟩

theorem lookup_insertEntry (key k : String) (a : α) (entries : List (String × α)) :
    (insertEntry key a entries).lookup k = if k = key then some a else entries.lookup k := by
  induction entries with
  | nil => grind [insertEntry]
  | cons e rest ih => grind [insertEntry]

theorem find?_insert (m : TokenMap α) (token t : String) (a : α) :
    (m.insert token a).find? t = if Text.same t token then some a else m.find? t := by
  unfold find? insert Text.same
  rw [lookup_insertEntry]
  simp only [beq_iff_eq]

theorem find?_erase (m : TokenMap α) (token t : String) :
    (m.erase token).find? t = if Text.same t token then none else m.find? t := by
  unfold find? erase Text.same
  simp only [beq_iff_eq]
  generalize Text.fold token = key
  generalize Text.fold t = k
  induction m.entries with
  | nil => simp
  | cons e rest ih => grind

end TokenMap

end ChunkConfig
