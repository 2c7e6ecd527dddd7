import Ownership.CommandLine.Arguments
import Ownership.CommandLine.Files
import Ownership.CommandLine.Report
import Ownership.Source.Reader

/-!
The command line: reads a program from a file, checks every function and
reports. The exit code is zero when every function is accepted.
-/
namespace Ownership.CommandLine

/-- Why a call of the command line ends without a reply. -/
inductive Stop where
  | fault (fault : Fault)
  | longNumeral (error : ReadError)
  | valueless (flag : Flag)
  | zeroInPath
  deriving Repr

def Stop.message : Stop → String
  | fault f => f.message
  | longNumeral e => e.cause.message
  | valueless _ => "'<' not supported between instances of 'list' and 'int'"
  | zeroInPath => "embedded null byte"

inductive Reply where
  | help
  | usage (message : String)
  | done (outcome : Outcome)
  deriving DecidableEq, Repr

namespace Options

def config (o : Options) : Config :=
  { jobs := o.jobs, maxIterations := o.maxIterations, reportUnreachable := o.reportUnreachable }

/-- The path of the source as it is printed. -/
def path (o : Options) : String := Path.normalize o.source

/-- The report on a checked program. -/
def report (o : Options) (p : ProgramVerdict) : Outcome :=
  let exit := if p.accepted then 0 else 1
  if o.json then { exit := exit, out := [(programJson o.path exit p).render] }
  else
    { exit := exit
      out := p.functions.flatMap fun v =>
        (if o.dumpGraph then graphLines v else []) ++ (if o.dumpRegions then regionLines v else [])
      err := p.functions.flatMap (verdictLines o.path) ++ [countLine p] }

def openingLine (o : Options) (p : Program) : LogLine :=
  ⟨.info, "ownck", "verifying " ++ toString p.functions.length ++ " function(s) from " ++ o.path⟩

/-- Checks a program; the log comes before the report. -/
def check (o : Options) (config : Config) (p : Program) : Except Fault Outcome := do
  let verdict ← p.verify config
  let report := o.report verdict
  return { report with
    err := logLines o.verbosity (o.openingLine p :: verdict.log) ++ report.err }

/-- Reports why the source is no program; a numeral that is too long stops the run. -/
def refuse (o : Options) (e : ReadError) : Except Stop Outcome :=
  match e.cause with
  | .longNumeral _ => .error (.longNumeral e)
  | _ => .ok ((Failure.ofReadError e).outcome o.path o.json)

/-- Reads the source and checks it. -/
def run (o : Options) (config : Config) (read : String → Except FileFault String) :
    Except Stop Outcome :=
  if o.path.toList.contains '\x00' then .error .zeroInPath
  else match read o.path with
    | .error f =>
      .ok (Failure.outcome ⟨"cannot read " ++ o.path ++ ": " ++ f.message, {}⟩ o.path o.json)
    | .ok text =>
      match readProgram (String.ofList (Lines.unify text.toList)) (some o.path) with
      | .error e => o.refuse e
      | .ok p => (o.check config p).mapError .fault

end Options

/-- Answers a call of the command line, given how files are read. The number of jobs is looked at
before the limit on iterations. -/
def answer (args : List String) (read : String → Except FileFault String) : Except Stop Reply :=
  match readArguments args with
  | .error f => .ok (.usage f.message)
  | .ok .help => .ok .help
  | .ok (.run o) =>
    if o.valueless.contains .jobs then .error (.valueless .jobs)
    else match o.config.check with
      | .error f => .ok (.usage f.message)
      | .ok config =>
        if o.valueless.contains .maxIterations then .error (.valueless .maxIterations)
        else (o.run config read).map .done

/-- The file that a call of the command line reads. -/
def source? (args : List String) : Option String :=
  match readArguments args with
  | .ok (.run o) => some o.path
  | _ => none

def usage : String :=
  "usage: ownck [-h] [--json] [--jobs JOBS] [--max-iterations MAX_ITERATIONS] " ++
    "[--no-unreachable-warnings] [--dump-cfg] [--dump-regions] [-v] source"

end Ownership.CommandLine
