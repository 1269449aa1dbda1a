namespace ChunkConfig

/-- Why a file cannot be read or written. -/
inductive FileError where
  | notFound
  | isDirectory
  deriving DecidableEq

def FileError.message : FileError → String
  | .notFound => "No such file or directory (os error 2)"
  | .isDirectory => "Is a directory (os error 21)"

/-- Why a source gives no document at all. -/
inductive ReadError where
  | xml (position : Nat) (detail : String)
  | utf8 (detail : String)
  | unbalanced (detail : String)
  | file (error : FileError)
  deriving DecidableEq

def ReadError.message : ReadError → String
  | .xml position detail => s!"XML error at position {position}: {detail}"
  | .utf8 detail => s!"invalid UTF-8: {detail}"
  | .unbalanced detail => s!"unbalanced document: {detail}"
  | .file error => s!"IO error: {error.message}"

end ChunkConfig
