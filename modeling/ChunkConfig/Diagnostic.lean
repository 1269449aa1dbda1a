import ChunkConfig.Problem
import ChunkConfig.ReadError

namespace ChunkConfig

/-- An entry of a log of problems. A failure has the error that ended the reading as its cause. -/
structure Diagnostic where
  severity : Severity
  code : Code
  message : String
  cause : Option ReadError := none
  deriving DecidableEq

namespace Diagnostic

def ofProblem (p : Problem) : Diagnostic :=
  { severity := p.severity, code := p.code, message := p.message }

def failure (message : String) (cause : ReadError) : Diagnostic :=
  { severity := .failure, code := .readFailure, message, cause }

def text (d : Diagnostic) : String :=
  let cause :=
    match d.cause with
    | some e => " (" ++ e.message ++ ")"
    | none => ""
  d.severity.text ++ "[" ++ d.code.text ++ "]: " ++ d.message ++ cause

end Diagnostic

/-- A log of problems, the first one first. -/
abbrev Diagnostics := List Diagnostic

namespace Diagnostics

def ofProblems (ps : List Problem) : Diagnostics :=
  ps.map Diagnostic.ofProblem

def withSeverity (ds : Diagnostics) (s : Severity) : Diagnostics :=
  ds.filter (·.severity = s)

/-- Whether there is anything worse than a warning. -/
def hasErrors (ds : Diagnostics) : Bool :=
  ds.any (Severity.error.rank ≤ ·.severity.rank)

def hasFailure (ds : Diagnostics) : Bool :=
  ds.any (·.severity = .failure)

def countCode (ds : Diagnostics) (code : String) : Nat :=
  ds.countP (·.code.text = code)

def worst? (ds : Diagnostics) : Option Severity :=
  [.failure, .error, .warning].find? fun s => ds.any (·.severity = s)

/-- One line for each entry. -/
def text (ds : Diagnostics) : String :=
  String.join (ds.map (·.text ++ "\n"))

end Diagnostics

end ChunkConfig
