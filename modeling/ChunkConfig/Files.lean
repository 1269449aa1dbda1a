import ChunkConfig.Diagnostic
import ChunkConfig.Source

namespace ChunkConfig

/-- The files of one directory that holds no others. -/
structure Files where
  contents : List (String × Bytes)

namespace Files

def empty : Files := ⟨[]⟩

/-- Only plain names are names of files. A path into another directory leads nowhere. -/
def checkPath (path : String) : Except FileError Unit :=
  if path = "." then .error .isDirectory
  else if path.isEmpty ∨ path.toList.contains '/' then .error .notFound
  else .ok ()

def read (files : Files) (path : String) : Except FileError Bytes := do
  checkPath path
  match files.contents.lookup path with
  | some content => return content
  | none => .error .notFound

/-- Writes a file in place of one that has the same name. -/
def write (files : Files) (path : String) (content : Bytes) : Except FileError Files := do
  checkPath path
  return ⟨(path, content) :: files.contents.filter (·.1 ≠ path)⟩

/-- Reads a file as a document of some kind. When there is nothing to read, the only entry of the
log tells why. -/
def load {α : Type} (files : Files) (path : String)
    (read : Bytes → Except ReadError (Reported α)) : Option α × Diagnostics :=
  match (files.read path).mapError .file >>= read with
  | .ok result => (some result.value, .ofProblems result.problems)
  | .error e => (none, [.failure ("cannot read " ++ path) e])

def loadDatabase (files : Files) (path : String) (r : Registry) : Option Database × Diagnostics :=
  files.load path (r.readDatabase true)

def loadCatalog (files : Files) (path : String) : Option Catalog × Diagnostics :=
  files.load path Catalog.read

def saveDatabase (files : Files) (path : String) (db : Database) :
    Except FileError (Files × List Problem) := do
  let written := db.write {}
  return (← files.write path (Text.encode written.value), written.problems)

def saveCatalog (files : Files) (path : String) (c : Catalog) : Except FileError Files :=
  files.write path (Text.encode (c.write {}))

end Files

end ChunkConfig
