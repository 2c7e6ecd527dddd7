import Ownership.Analysis

/-!
Verdicts. A function is accepted when its analyses find no error. A breach of
contract or an exhausted budget rejects that function only; other functions are
checked all the same, and verdicts come in the order of the program.
-/
namespace Ownership

inductive LogLevel where
  | debug | info | warning
  deriving DecidableEq, Repr

/-- A line of the log, with the name of the component that wrote it. -/
structure LogLine where
  level : LogLevel
  logger : String
  text : String
  deriving DecidableEq, Repr

structure Verdict where
  name : String
  accepted : Bool
  diagnostics : List Diagnostic := []
  warnings : List Diagnostic := []
  regions : OrderedMap String Extent := {}
  contractError : Option String := none
  graph : Option Graph := none
  solution : Option RegionSolution := none
  deriving Inhabited

namespace Verdict

def codes (v : Verdict) : List String := v.diagnostics.map fun d => d.code.getD ""

end Verdict

namespace Analysis

def line (component text : String) : LogLine := ⟨.debug, "ownck.borrowck." ++ component, text⟩

def graphLine (name : String) (g : Graph) : LogLine :=
  line "cfg" ("cfg for " ++ name ++ ": " ++ toString g.blocks.length ++ " blocks, " ++
    toString g.unreachable.length ++ " unreachable, " ++ toString g.loopHeaders.length ++
    " loop headers")

def livenessLine (name : String) (l : Liveness) : LogLine :=
  line "regions" ("liveness for " ++ name ++ ": " ++ toString l.steps ++ " steps, " ++
    toString l.tracked.length ++ " tracked bindings")

def solutionLine (name : String) (r : RegionSolution) : LogLine :=
  line "regions" ("region inference for " ++ name ++ ": " ++ toString r.extents.entries.length ++
    " variables, " ++ toString r.constraints.length ++ " constraints, " ++ toString r.steps ++ " steps")

def movesLine (name : String) (m : MoveResult) : LogLine :=
  line "moves" ("move tracking for " ++ name ++ " converged after " ++ toString m.visits ++
    " block visits")

def loansLine (l : LoanResult) : LogLine :=
  line "loans" ("borrow lattice converged after " ++ toString l.visits ++ " block visits (" ++
    toString l.loans.length ++ " loans)")

/-- The log of the stages that came to an end. -/
def log (a : Analysis) (name : String) : List LogLine :=
  (a.graph.toOption.map (graphLine name)).toList ++
    (a.liveness.toOption.map (livenessLine name)).toList ++
    (a.solution.toOption.map (solutionLine name)).toList ++
    (a.moves.toOption.map (movesLine name)).toList ++
    (a.loans.toOption.map loansLine).toList

end Analysis

/-- One warning for each unreachable block that holds statements of the program. -/
def unreachableFindings (g : Graph) : List Diagnostic :=
  (g.unreachable.filterMap fun b => (g.block b).firstUserStatement?).map fun s =>
    { kind := some .unreachableCode
      message := "unreachable code"
      severity := "warning"
      span := s.loc }

/-- All that the analyses of a function report. -/
def Analysis.report (a : Analysis) (config : Config) : Except Fault Report := do
  let graph ← a.graph
  let dead := if config.reportUnreachable then unreachableFindings graph else []
  let findings := (← a.moves).findings ++ (← a.loans).findings ++ (← a.validity) ++ dead
  return ({} : Report).emitAll findings

namespace Context

/-- The signature under which the function itself can be called. -/
def ownSignature (cx : Context) : Signature :=
  (cx.signatures.get? cx.function.name).getD cx.function.signature

def analysis (cx : Context) (config : Config) : Analysis :=
  let signature := cx.ownSignature
  let graph := do
    signature.validate cx.types
    cx.function.graph
  cx.analyze signature graph config.maxIterations

def accept (cx : Context) (a : Analysis) (config : Config) : Except Fault Verdict := do
  let report ← a.report config
  let solution ← a.solution
  return {
    name := cx.function.name
    accepted := report.errors.isEmpty
    diagnostics := report.errors
    warnings := report.warnings
    regions := solution.regionMap
    graph := some (← a.graph)
    solution := some solution }

/-- The verdict on a function that could not be analyzed. -/
def reject (cx : Context) (fault : Fault) : Verdict :=
  let place := if fault.loc.isKnown then fault.loc.describe ++ ": " else ""
  { name := cx.function.name, accepted := false, contractError := some (place ++ fault.message) }

/-- The verdict on a function, and the log of how it came about. -/
def verdict (cx : Context) (config : Config) : Except Fault (Verdict × List LogLine) :=
  let a := cx.analysis config
  let name := cx.function.name
  match cx.accept a config with
  | .ok v =>
    let closing := name ++ ": " ++ toString v.diagnostics.length ++ " error(s), " ++
      toString v.warnings.length ++ " warning(s)"
    .ok (v, a.log name ++ [Analysis.line "verifier" closing])
  | .error fault =>
    if fault.isLocal then
      let closing := "verification of " ++ name ++ " aborted: " ++ fault.message
      .ok (cx.reject fault, a.log name ++ [⟨.warning, "ownck.borrowck.verifier", closing⟩])
    else .error fault

end Context

/-- The verdicts on a program's functions, in order. -/
structure ProgramVerdict where
  functions : List Verdict
  log : List LogLine
  deriving Inhabited

namespace ProgramVerdict

def accepted (p : ProgramVerdict) : Bool := p.functions.all Verdict.accepted

def acceptedCount (p : ProgramVerdict) : Nat := p.functions.countP Verdict.accepted

def function? (p : ProgramVerdict) (name : String) : Option Verdict :=
  p.functions.find? (·.name = name)

/-- The errors, then the warnings, of one function after the other. -/
def diagnostics (p : ProgramVerdict) : List Diagnostic :=
  p.functions.flatMap fun v => v.diagnostics ++ v.warnings

end ProgramVerdict

namespace Program

def context (p : Program) (signatures : SignatureTable) (f : Function) : Context :=
  { function := f, types := p.types, signatures := signatures }

/-- Checks every function of a program. -/
def verify (p : Program) (config : Config) : Except Fault ProgramVerdict := do
  let signatures ← p.signatures
  let prepared := p.prepare
  let results ← prepared.functions.mapM fun f => (prepared.context signatures f).verdict config
  let verdicts := results.map Prod.fst
  let closing := "verified " ++ toString verdicts.length ++ " function(s): " ++
    toString (verdicts.countP Verdict.accepted) ++ " accepted"
  return {
    functions := verdicts
    log := results.flatMap Prod.snd ++ [⟨.info, "ownck.borrowck.verifier", closing⟩] }

end Program

end Ownership
