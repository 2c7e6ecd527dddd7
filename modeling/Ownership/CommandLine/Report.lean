import Ownership.Source.ReadError
import Ownership.Verdict.Json

/-!
What a run of the command line writes: the log, one paragraph for each
diagnostic and a closing count, or all of it as one JSON value.
-/
namespace Ownership.CommandLine

/-- The texts that a run writes to its two outputs, and its exit code. -/
structure Outcome where
  exit : Nat
  out : List String := []
  err : List String := []
  deriving DecidableEq, Repr

namespace Outcome

/-- The lines as one text, each with its end. -/
def text (lines : List String) : String := String.join (lines.map (· ++ "\n"))

end Outcome

def levelName : LogLevel → String
  | .debug => "DEBUG"
  | .info => "INFO"
  | .warning => "WARNING"

/-- How much must be asked for before a line is shown. -/
def levelRank : LogLevel → Nat
  | .debug => 2
  | .info => 1
  | .warning => 0

/-- A line of the log, if it is shown; only a verbose run tells who wrote it. -/
def logText (verbosity : Nat) (l : LogLine) : Option String :=
  if verbosity < levelRank l.level then none
  else if verbosity = 0 then some l.text
  else some (levelName l.level ++ " " ++ l.logger ++ ": " ++ l.text)

def logLines (verbosity : Nat) (log : List LogLine) : List String := log.filterMap (logText verbosity)

/-- A span in front of a message; `file` stands in for a file that is not known. -/
def position (s : Span) (file : String) : String :=
  (nonEmpty? s.file).getD file ++ ":" ++ orUnknown s.line ++ ":" ++ orUnknown s.column

def diagnosticLines (source : String) (d : Diagnostic) : List String :=
  let kind := d.code.elim "" fun code => "[" ++ code ++ "] "
  let file := (nonEmpty? d.span.file).getD source
  [position d.span source ++ ": " ++ d.severity ++ ": " ++ kind ++ d.message] ++
    d.related.map (fun r => "    " ++ position r.span file ++ ": note: " ++ r.label) ++
    d.notes.map fun note => "    note: " ++ note

/-- The code of a function that could not be analyzed. -/
def contractCode : String := "IRContractError"

def contractMessage (v : Verdict) (error : String) : String := v.name ++ ": " ++ error

def contractLines (source : String) (v : Verdict) : List String :=
  v.contractError.toList.map fun e =>
    position {} source ++ ": error: [" ++ contractCode ++ "] " ++ contractMessage v e

def verdictLines (source : String) (v : Verdict) : List String :=
  contractLines source v ++ (v.diagnostics ++ v.warnings).flatMap (diagnosticLines source)

def graphLines (v : Verdict) : List String :=
  v.graph.elim [] fun g => ["cfg of " ++ v.name ++ ":", g.dump]

def regionLines (v : Verdict) : List String :=
  v.solution.elim [] fun r => [r.render]

def countLine (p : ProgramVerdict) : String :=
  toString p.acceptedCount ++ "/" ++ toString p.functions.length ++ " function(s) accepted"

/-- Supplies the source as the file of a diagnostic and of its related spans. -/
def inSource (source : String) (d : Diagnostic) : Diagnostic :=
  { d with
    span := d.span.withFile (some source)
    related := d.related.map fun r => { r with span := r.span.withFile (some source) } }

def contractJson (source : String) (v : Verdict) : List Json :=
  v.contractError.toList.map fun e =>
    .obj [("phase", .str "borrowcheck"), ("kind", .str contractCode),
      ("message", .str (contractMessage v e)), ("severity", .str "error"), ("file", .str source),
      ("line", .null), ("column", .null), ("related", .arr []), ("notes", .arr [])]

def verdictJson (source : String) (v : Verdict) : List Json :=
  contractJson source v ++ (v.diagnostics ++ v.warnings).map fun d => (inSource source d).toJson

def programJson (source : String) (exit : Nat) (p : ProgramVerdict) : Json :=
  .obj [("exit_code", .int exit), ("diagnostics", .arr (p.functions.flatMap (verdictJson source))),
    ("functions", .arr (p.functions.map Verdict.toJson))]

/-- A failure before any function could be checked. -/
structure Failure where
  message : String
  span : Span := {}
  deriving DecidableEq, Repr

namespace Failure

def ofReadError (e : ReadError) : Failure := ⟨e.cause.message, e.loc⟩

def toJson (f : Failure) (source : String) : Json :=
  .obj [("exit_code", .int 1), ("diagnostics", .arr [.obj [("phase", .str "parser"),
    ("message", .str f.message), ("severity", .str "error"),
    ("file", .str ((nonEmpty? f.span.file).getD source)), ("line", .optionalInt f.span.line),
    ("column", .optionalInt f.span.column)]])]

def outcome (f : Failure) (source : String) (json : Bool) : Outcome :=
  if json then { exit := 1, out := [(f.toJson source).render] }
  else { exit := 1, err := [position f.span source ++ ": error: " ++ f.message] }

end Failure

end Ownership.CommandLine
