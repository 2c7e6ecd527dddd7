import Ownership.Region.Solution

/-!
Loans in scope. A borrow creates a loan, which stays in scope along every path
from there for as long as the points lie in its extent. Each access is checked
against the loans in scope when it happens.
-/
namespace Ownership

structure Loan where
  site : Site
  place : Place
  exclusive : Bool
  span : Span
  deriving DecidableEq, Repr

namespace Loan

def region (l : Loan) : RegionVar := .loan l.site

def describe (l : Loan) : String :=
  (if l.exclusive then "&mut " else "&") ++ l.place.render ++ " @ " ++ l.site.render

def sort (loans : List Loan) : List Loan := sortBy (fun a b => a.site.le b.site) loans

end Loan

/-- The loan that an access creates. -/
def Access.loan? (a : Access) : Option Loan :=
  a.loan.map fun site => ⟨site, a.place, a.kind = .borrowMut, a.span⟩

def addLoan (loans : List Loan) (l : Loan) : List Loan :=
  if loans.contains l then loans else loans ++ [l]

structure LoanProblem where
  graph : Graph
  effects : EffectMap
  extentOf : Site → Extent
  order : List Nat

/-- The loans in scope at the starts of the blocks seen so far, and the blocks left to visit. -/
structure LoanSearch where
  states : OrderedMap Nat (List Loan)
  worklist : List Nat
  deriving Inhabited

namespace LoanProblem

/-- What tracking of a function's loans solves. -/
abbrev ofSolution (g : Graph) (effects : EffectMap) (solution : RegionSolution) : LoanProblem :=
  { graph := g, effects := effects, extentOf := solution.loanExtent, order := g.reachable }

/-- The loans that stay in scope when a point is reached. -/
def keep (l : LoanProblem) (p : Point) (loans : List Loan) : List Loan :=
  loans.filter fun loan => (l.extentOf loan.site).points.contains p

/-- The loans in scope after the accesses of a point. -/
def afterPoint (l : LoanProblem) (p : Point) (loans : List Loan) : List Loan :=
  ((l.effects.accesses p).filterMap Access.loan?).foldl addLoan loans

/-- The loans in scope before each point, from those before the first one. -/
def scopesAlong (l : LoanProblem) : List Point → List Loan → List (Point × List Loan)
  | [], _ => []
  | p :: rest, loans =>
    let after := l.afterPoint p loans
    (p, loans) :: l.scopesAlong rest (rest.head?.elim after (l.keep · after))

/-- The loans in scope at the end of a block, from those at its start. -/
def transfer (l : LoanProblem) : List Point → List Loan → List Loan
  | [], loans => loans
  | p :: rest, loans =>
    let after := l.afterPoint p loans
    l.transfer rest (rest.head?.elim after (l.keep · after))

/-- Brings the loans at the end of a block to the start of a successor. -/
def propagate (l : LoanProblem) (out : List Loan) (search : LoanSearch) (succ : Nat) : LoanSearch :=
  let incoming := l.keep ⟨succ, 0⟩ out
  let previous := search.states.get? succ
  if previous.any fun loans => incoming.all loans.contains then search
  else
    { states := search.states.insert succ (incoming.foldl addLoan (previous.getD []))
      worklist := if search.worklist.contains succ then search.worklist
        else search.worklist ++ [succ] }

/-- Visits the block that was added last. -/
def next (l : LoanProblem) (search : LoanSearch) : Option LoanSearch :=
  search.worklist.getLast?.map fun b =>
    let out := l.transfer (l.graph.points b) ((search.states.get? b).getD [])
    let rest := { search with worklist := search.worklist.dropLast }
    ((l.graph.successors b).filter l.graph.isReachable).foldl (l.propagate out) rest

def start (l : LoanProblem) : LoanSearch :=
  { states := OrderedMap.insert {} l.graph.entry [], worklist := [l.graph.entry] }

/-- The loans of the function, in the order of the points. -/
def loans (l : LoanProblem) : List Loan :=
  l.graph.allPoints.flatMap fun p => (l.effects.accesses p).filterMap Access.loan?

/-- A block is visited at first, and again each time a loan comes to it. -/
def visitBound (l : LoanProblem) : Nat :=
  l.graph.blocks.length * (l.loans.length + 1) + 1

def solve (l : LoanProblem) (limit : Option Int) :
    Except Fault (OrderedMap Nat (List Loan) × Budget) := do
  let (search, budget) ←
    Budget.settle l.next l.visitBound { analysis := "borrow lattice", limit := limit } l.start
  return (search.states, budget)

/-- The loans in scope before every reachable point. -/
def scopes (l : LoanProblem) (starts : OrderedMap Nat (List Loan)) : List (Point × List Loan) :=
  l.order.flatMap fun b => l.scopesAlong (l.graph.points b) ((starts.get? b).getD [])

end LoanProblem

namespace Access

def conflictingBorrow (a : Access) (how : String) (l : Loan) : Diagnostic :=
  let held := if l.exclusive then "mutably" else "also"
  { kind := some .conflictingBorrow
    message := "cannot borrow '" ++ a.place.render ++ "' as " ++ how ++ " because it is " ++ held ++
      " borrowed"
    span := a.span
    related := [⟨l.span, "previous borrow of '" ++ l.place.render ++ "' here"⟩] }

def whileBorrowed (a : Access) (verb : String) (l : Loan) : Diagnostic :=
  { kind := some .useWhileBorrowed
    message := "cannot " ++ verb ++ " '" ++ a.place.render ++ "' while it is borrowed"
    span := a.span
    related := [⟨l.span, "borrow of '" ++ l.place.render ++ "' here"⟩] }

/-- What a loan in scope has against an access, if anything. -/
def clash (a : Access) (l : Loan) : Option Diagnostic :=
  if !a.place.conflicts l.place then none
  else match a.kind with
    | .init | .declare | .storageDead => none
    | .borrowMut => some (a.conflictingBorrow "mutable" l)
    | .borrowShared => if l.exclusive then some (a.conflictingBorrow "shared" l) else none
    | .read | .inspect => if l.exclusive then some (a.whileBorrowed "use" l) else none
    | .write =>
      if a.place.overwriteSpares l.place then none else some (a.whileBorrowed "assign to" l)
    | .move => some (a.whileBorrowed "move out of" l)

/-- The first clash with a loan in scope, by the loans' sites. -/
def firstClash (a : Access) (loans : List Loan) : Option Diagnostic :=
  (Loan.sort loans).findSome? a.clash

end Access

/-- The clashes of a point's accesses, each with the loans in scope just before it. -/
def clashes : List Access → List Loan → List Diagnostic
  | [], _ => []
  | a :: rest, loans => (a.firstClash loans).toList ++ clashes rest (a.loan?.toList.foldl addLoan loans)

structure LoanResult where
  loans : List Loan
  inScope : List (Point × List Loan)
  findings : List Diagnostic
  visits : Nat

/-- Tracks the loans of a function. -/
def trackLoans (g : Graph) (effects : EffectMap) (solution : RegionSolution) (limit : Option Int) :
    Except Fault LoanResult := do
  let l := LoanProblem.ofSolution g effects solution
  let (starts, budget) ← l.solve limit
  let inScope := l.scopes starts
  return {
    loans := l.loans
    inScope := inScope
    findings := inScope.flatMap fun (p, loans) => clashes (effects.accesses p) loans
    visits := budget.steps }

/-- A loan of storage that ends while the loan is in scope. -/
def danglingFinding (a : Access) (l : Loan) : Diagnostic :=
  let name := if a.place.name = "" then l.place.render else a.place.name
  { kind := some .danglingReference
    message := "borrowed value '" ++ l.place.render ++ "' does not live long enough"
    span := l.span
    related := [⟨a.span, "'" ++ name ++ "' goes out of scope here while still borrowed"⟩] }

/-- The loans in scope that an end of storage leaves dangling. -/
def danglingAt (a : Access) (loans : List Loan) : List Diagnostic :=
  if a.kind = .storageDead then
    ((Loan.sort loans).filter fun l =>
      l.place.root = a.place.root && !l.place.throughDeref).map (danglingFinding a)
  else []

/-- References that outlive what they point to. -/
def validityFindings (effects : EffectMap) (solution : RegionSolution)
    (inScope : List (Point × List Loan)) : List Diagnostic :=
  (inScope.flatMap fun (p, loans) => (effects.accesses p).flatMap (danglingAt · loans)) ++
    solution.outlivesFindings

end Ownership
