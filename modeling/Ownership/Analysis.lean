import Ownership.Graph.Lowering
import Ownership.Loan
import Ownership.Move.Tracking

/-!
The analyses of one function, in order. Each stage needs the ones before it, so
the first fault is the fault of every later stage.
-/
namespace Ownership

structure Analysis where
  graph : Except Fault Graph
  effects : Except Fault EffectMap
  frame : Except Fault RegionFrame
  liveness : Except Fault Liveness
  solution : Except Fault RegionSolution
  moves : Except Fault MoveResult
  loans : Except Fault LoanResult
  validity : Except Fault (List Diagnostic)

namespace Context

/-- The constraints of a function as a problem to solve. -/
def extentProblem (cx : Context) (g : Graph) (effects : EffectMap) (frame : RegionFrame)
    (liveness : Liveness) : Except Fault ExtentProblem := do
  let frame := cx.declareLocals liveness.tracked frame
  let problem : RegionProblem := { types := cx.types, effects := effects, frame := frame }
  let set ← problem.generate g.allPoints
  return {
    frame := frame
    liveness := liveness
    points := g.allPoints
    vars := set.vars
    constraints := set.constraints }

/-- Runs the analyses of a function from its graph on. -/
def analyze (cx : Context) (signature : Signature) (graph : Except Fault Graph)
    (limit : Option Int) : Analysis :=
  let effects := do cx.effects (← graph)
  let frame := do
    let _ ← effects
    cx.declareUniversals signature
  let liveness := do
    let _ ← frame
    cx.liveness (← graph) (← effects) limit
  let solution := do
    let problem ← cx.extentProblem (← graph) (← effects) (← frame) (← liveness)
    problem.solution cx.function limit
  let moves := do
    let _ ← solution
    trackMoves (← graph) cx.function (← effects) limit
  let loans := do
    let _ ← moves
    trackLoans (← graph) (← effects) (← solution) limit
  let validity := do
    return validityFindings (← effects) (← solution) (← loans).inScope
  { graph, effects, frame, liveness, solution, moves, loans, validity }

end Context

end Ownership
