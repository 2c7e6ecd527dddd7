import Ownership.Budget
import Ownership.Effect.Collect

/-!
Liveness of the local bindings that carry references: a backward analysis over
points. A binding is live where some path leads to a use of it before any point
that only defines it.
-/
namespace Ownership

namespace Access

/-- The access gives the whole binding a new value or ends it. -/
def defines (a : Access) : Bool :=
  match a.kind with
  | .init | .declare | .storageDead => true
  | .write => a.place.isRoot
  | _ => false

end Access

/-- The local bindings that carry references. -/
def Context.trackedLocals (cx : Context) : Except Fault (List BindingId) := do
  let entries ← cx.function.bindings.entries.filterM fun (_, b) =>
    if b.kind = .localVar then Fault.ofTypes (cx.types.carriesRefs (some b.ty)) else .ok false
  return entries.map Prod.fst

structure LiveProblem where
  graph : Graph
  effects : EffectMap
  tracked : List BindingId

/-- What is live before the points seen so far, and the points left to look at. -/
structure LiveSearch where
  live : OrderedMap Point (List BindingId)
  queue : List Point
  deriving Inhabited

namespace LiveProblem

def uses (l : LiveProblem) (p : Point) (b : BindingId) : Bool :=
  (l.effects.accesses p).any fun a => a.place.root = b && !a.defines

/-- The point defines the binding and does not use it. -/
def kills (l : LiveProblem) (p : Point) (b : BindingId) : Bool :=
  (l.effects.accesses p).any (fun a => a.place.root = b && a.defines) && !l.uses p b

/-- The live bindings before a point, as far as they are known. -/
def known (s : LiveSearch) (p : Point) : List BindingId := (s.live.get? p).getD []

/-- What is live before a point, from what is live before its successors. -/
def before (l : LiveProblem) (s : LiveSearch) (p : Point) : List BindingId :=
  let after := (l.graph.pointSuccessors p).flatMap (known s)
  l.tracked.filter fun b => l.uses p b || (after.contains b && !l.kills p b)

def enqueue (queue : List Point) (p : Point) : List Point :=
  if queue.contains p then queue else queue ++ [p]

/-- Looks at the first point that is left; a change sends its predecessors back. -/
def next (l : LiveProblem) (s : LiveSearch) : Option LiveSearch :=
  match s.queue with
  | [] => none
  | p :: queue =>
    let live := l.before s p
    if s.live.get? p = some live then some { s with queue := queue }
    else some
      { live := s.live.insert p live
        queue := (l.graph.pointPredecessors p).foldl enqueue queue }

def start (l : LiveProblem) : LiveSearch := { live := {}, queue := l.graph.allPoints.reverse }

/-- A point changes at most once per tracked binding and once at first, and sends back at most all. -/
def stepBound (l : LiveProblem) : Nat :=
  let points := l.graph.allPoints.length
  points * (points * (l.tracked.length + 1) + 1)

end LiveProblem

structure Liveness where
  tracked : List BindingId
  live : OrderedMap Point (List BindingId)
  steps : Nat
  deriving Inhabited

namespace Liveness

/-- The points before which a binding is live. -/
def pointsOf (l : Liveness) (b : BindingId) : List Point :=
  (l.live.entries.filter (·.2.contains b)).map Prod.fst

end Liveness

def Context.liveness (cx : Context) (g : Graph) (effects : EffectMap) (limit : Option Int) :
    Except Fault Liveness := do
  let tracked ← cx.trackedLocals
  let l : LiveProblem := { graph := g, effects := effects, tracked := tracked }
  let (search, budget) ←
    Budget.settle l.next l.stepBound { analysis := "liveness", limit := limit } l.start
  return { tracked := tracked, live := search.live, steps := budget.steps }

end Ownership
