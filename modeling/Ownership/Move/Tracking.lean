import Ownership.Budget
import Ownership.Diagnostic
import Ownership.Effect.Collect
import Ownership.Move.State

/-!
Tracking of moves and initialization: a forward analysis over the graph. It
first finds the state at the start of every block, then goes through the blocks
once more to report what is used while it is gone.
-/
namespace Ownership

/-- Parameters start initialized, every other binding does not. -/
def initialMoves (f : Function) : MoveState :=
  ⟨f.bindings.entries.map fun (id, b) =>
    ⟨{ root := id, name := b.name }, if b.kind = .param then .init else .uninit, none⟩⟩

namespace MoveState

def useOfUninit (f : Function) (p : Place) (a : Access) (what : String) : Diagnostic :=
  { kind := some .useOfUninitialized
    message := what ++ " possibly-uninitialized '" ++ p.render ++ "'"
    span := a.span
    related := ((f.bindings.get? p.root).map fun b =>
      (⟨b.loc, "binding '" ++ b.name ++ "' declared here"⟩ : Related)).toList }

def useAfterMove (p : Place) (a : Access) (what : String) (state : PlaceState)
    (culprit : Option MoveEntry) : Diagnostic :=
  { kind := some .useAfterMove
    message :=
      if state = .partly then what ++ " partially moved value '" ++ p.render ++ "'"
      else "use after move: " ++ what ++ " moved value '" ++ p.render ++ "'"
    span := a.span
    related := (culprit.bind fun e => e.site.map fun site =>
      (⟨site, "value moved here ('" ++ e.place.render ++ "')"⟩ : Related)).toList }

/-- What is wrong with using a place now, if anything is. -/
def complaint (s : MoveState) (f : Function) (p : Place) (a : Access) (allowPartial : Bool)
    (what : String) : Option Diagnostic :=
  match s.lookup p with
  | (.init, _) => none
  | (.uninit, _) => some (useOfUninit f p a what)
  | (.partly, culprit) => if allowPartial then none else some (useAfterMove p a what .partly culprit)
  | (.moved, culprit) => some (useAfterMove p a what .moved culprit)

def moveBehindReference (a : Access) : Diagnostic :=
  { kind := some .useWhileBorrowed
    message := "cannot move out of '" ++ a.place.render ++ "', which is behind a reference"
    span := a.span }

/-- The complaint about an access, if there is one. -/
def objection (s : MoveState) (f : Function) (a : Access) : Option Diagnostic :=
  match a.kind with
  | .declare | .storageDead | .init => none
  | .write => a.place.parent.bind fun parent => s.complaint f parent a true "assign to part of"
  | .inspect => s.complaint f a.place a true "match on"
  | .borrowShared | .borrowMut => s.complaint f a.place a false "borrow of"
  | .read => s.complaint f a.place a false "use of"
  | .move =>
    if a.place.throughDeref then some (moveBehindReference a)
    else s.complaint f a.place a false "use of"

/-- The state after an access; one that is objected to changes nothing. -/
def apply (s : MoveState) (f : Function) (a : Access) : MoveState :=
  if (s.objection f a).isSome then s
  else match a.kind with
    | .declare | .storageDead => s.setUninit a.place
    | .init | .write => s.setInit a.place
    | .move => s.setMoved a.place a.span
    | .inspect | .borrowShared | .borrowMut | .read => s

def applyAll (s : MoveState) (f : Function) (accesses : List Access) : MoveState :=
  accesses.foldl (fun s a => s.apply f a) s

end MoveState

/-- The search for the states at the starts of blocks: what is known so far, and what is left. -/
structure MoveSearch where
  states : OrderedMap Nat MoveState
  worklist : List Nat
  deriving Inhabited

/-- The parts of a function that move tracking looks at. -/
structure MoveProblem where
  graph : Graph
  function : Function
  effects : EffectMap
  order : List Nat

namespace MoveProblem

/-- What tracking of a function's moves solves. -/
abbrev ofEffects (f : Function) (g : Graph) (fx : EffectMap) : MoveProblem :=
  { graph := g, function := f, effects := fx, order := g.reachable }

def start (m : MoveProblem) : MoveSearch :=
  { states := OrderedMap.insert {} m.graph.entry (initialMoves m.function)
    worklist := [m.graph.entry] }

def blockAccesses (m : MoveProblem) (b : Nat) : List Access :=
  (m.graph.points b).flatMap m.effects.accesses

def transfer (m : MoveProblem) (b : Nat) (s : MoveState) : MoveState :=
  s.applyAll m.function (m.blockAccesses b)

/-- Brings the state at the end of a block to the start of a successor, joined with what it has. -/
def propagateBy (join : MoveState → MoveState → MoveState) (out : MoveState) (search : MoveSearch)
    (succ : Nat) : MoveSearch :=
  let previous := search.states.get? succ
  let merged := previous.elim out (join · out)
  if previous.any merged.sameAs then search
  else
    { states := search.states.insert succ merged
      worklist := if search.worklist.contains succ then search.worklist
        else search.worklist ++ [succ] }

/-- The block of a worklist that comes first in reverse postorder. -/
def first? (m : MoveProblem) (worklist : List Nat) : Option Nat :=
  m.order.find? worklist.contains

/-- Visits the first block that is left. -/
def nextBy (join : MoveState → MoveState → MoveState) (m : MoveProblem) (search : MoveSearch) :
    Option MoveSearch :=
  (m.first? search.worklist).map fun b =>
    let out := m.transfer b ((search.states.get? b).getD {})
    let rest := { search with worklist := search.worklist.filter (· ≠ b) }
    ((m.graph.successors b).filter m.graph.isReachable).foldl (propagateBy join out) rest

/-- Every place that an entry can be stored for. -/
def places (m : MoveProblem) : List Place :=
  (initialMoves m.function).entries.map MoveEntry.place ++
    (m.order.flatMap m.blockAccesses).map Access.place

/-- More than the visits of any search: blocks times places bound what can change, and how often. -/
def visitBound (m : MoveProblem) : Nat :=
  Nat.pow 4 ((m.graph.blocks.length + 1) * (m.places.length + 1))

/-- The states at the starts of the reachable blocks. -/
def solveBy (join : MoveState → MoveState → MoveState) (m : MoveProblem) (limit : Option Int) :
    Except Fault (OrderedMap Nat MoveState × Budget) := do
  let (search, budget) ←
    Budget.settle (m.nextBy join) m.visitBound { analysis := "move tracking", limit := limit } m.start
  return (search.states, budget)

abbrev propagate : MoveState → MoveSearch → Nat → MoveSearch := propagateBy MoveState.merged

abbrev next (m : MoveProblem) : MoveSearch → Option MoveSearch := m.nextBy MoveState.merged

abbrev solve (m : MoveProblem) (limit : Option Int) : Except Fault (OrderedMap Nat MoveState × Budget) :=
  m.solveBy MoveState.merged limit

/-- The state before each point of a block, from the state at its start. -/
def statesAlong (m : MoveProblem) : List Point → MoveState → List (Point × MoveState)
  | [], _ => []
  | p :: rest, s => (p, s) :: m.statesAlong rest (s.applyAll m.function (m.effects.accesses p))

/-- The state before every reachable point. -/
def statesBefore (m : MoveProblem) (starts : OrderedMap Nat MoveState) : List (Point × MoveState) :=
  m.order.flatMap fun b => m.statesAlong (m.graph.points b) ((starts.get? b).getD {})

/-- What the accesses of a point are blamed for, from the state before it. -/
def objections (m : MoveProblem) : List Access → MoveState → List Diagnostic
  | [], _ => []
  | a :: rest, s => (s.objection m.function a).toList ++ m.objections rest (s.apply m.function a)

end MoveProblem

structure MoveResult where
  states : List (Point × MoveState)
  findings : List Diagnostic
  visits : Nat

/-- Tracks the moves of a function; `join` says what is known where two ways meet. -/
def trackMovesBy (join : MoveState → MoveState → MoveState) (g : Graph) (f : Function)
    (effects : EffectMap) (limit : Option Int) : Except Fault MoveResult := do
  let m := MoveProblem.ofEffects f g effects
  let (starts, budget) ← m.solveBy join limit
  let states := m.statesBefore starts
  let findings := states.flatMap fun (p, s) => m.objections (effects.accesses p) s
  return { states := states, findings := findings, visits := budget.steps }

/-- Tracks the moves of a function, with the join of move states. -/
def trackMoves (g : Graph) (f : Function) (effects : EffectMap) (limit : Option Int) :
    Except Fault MoveResult :=
  trackMovesBy MoveState.merged g f effects limit

end Ownership
