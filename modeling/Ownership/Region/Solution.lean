import Ownership.Diagnostic
import Ownership.Region.Constraints
import Ownership.Region.Outlives

/-!
Solving region constraints: extents start from their seeds and grow along the
constraints until nothing changes. The seed of a local binding is where it is
live; a region of the signature covers every point and its own end.
-/
namespace Ownership

/-- The extents so far, why an end marker came to a variable, and the variables left to look at. -/
structure ExtentSearch where
  extents : OrderedMap RegionVar Extent
  causes : OrderedMap (RegionVar × String) Span
  queue : List RegionVar
  deriving Inhabited

namespace ExtentSearch

def extent (s : ExtentSearch) (v : RegionVar) : Extent := (s.extents.get? v).getD {}

/-- Notes the first cause of a marker: that of the variable it came from, or the constraint's. -/
def addCause (c : Constraint) (s : ExtentSearch) (marker : String) : ExtentSearch :=
  { s with causes :=
    s.causes.insertNew (c.sup, marker) ((s.causes.get? (c.sub, marker)).getD c.span) }

/-- Pushes the points and ends of a constraint's smaller side into the larger one. -/
def push (s : ExtentSearch) (c : Constraint) : ExtentSearch :=
  let sub := s.extent c.sub
  let sup := s.extent c.sup
  let points := sub.points.filter (!sup.points.contains ·)
  let ends := sortTexts (sub.ends.filter (!sup.ends.contains ·))
  if points.isEmpty && ends.isEmpty then s
  else
    let s := ends.foldl (addCause c) s
    { s with
      extents := s.extents.insert c.sup ⟨sup.points ++ points, sup.ends ++ ends⟩
      queue := if s.queue.contains c.sup then s.queue else s.queue ++ [c.sup] }

/-- Looks at the first variable that is left. -/
def next (constraints : List Constraint) (s : ExtentSearch) : Option ExtentSearch :=
  match s.queue with
  | [] => none
  | v :: queue => some ((constraints.filter (·.sub = v)).foldl push { s with queue := queue })

end ExtentSearch

/-- The variables, constraints and seeds that determine the extents. -/
structure ExtentProblem where
  frame : RegionFrame
  liveness : Liveness
  points : List Point
  vars : List RegionVar
  constraints : List Constraint

namespace ExtentProblem

def seed (e : ExtentProblem) : RegionVar → Extent
  | .binding id _ => { points := e.liveness.pointsOf id }
  | .universal name =>
    if e.frame.universals.contains name then { points := e.points, ends := [name] } else {}
  | _ => {}

/-- Every variable, also those that only constraints mention. -/
def allVars (e : ExtentProblem) : List RegionVar :=
  (e.constraints.map Constraint.sup).foldl
    (fun vs v => if vs.contains v then vs else vs ++ [v]) e.vars

def start (e : ExtentProblem) : ExtentSearch :=
  { extents := .tabulate e.seed e.allVars
    causes := {}
    queue := RegionVar.sort e.allVars }

/-- Each variable is looked at once, and again each time its extent grows. -/
def stepBound (e : ExtentProblem) : Nat :=
  e.allVars.length * (e.points.length + e.frame.universals.length + 1)

def solve (e : ExtentProblem) (limit : Option Int) : Except Fault (ExtentSearch × Budget) :=
  Budget.settle (ExtentSearch.next e.constraints) e.stepBound
    { analysis := "region inference", limit := limit } e.start

end ExtentProblem

structure RegionSolution where
  function : Function
  frame : RegionFrame
  constraints : List Constraint
  extents : OrderedMap RegionVar Extent
  causes : OrderedMap (RegionVar × String) Span
  outlives : Outlives
  steps : Nat
  deriving Inhabited

namespace RegionSolution

def extent (r : RegionSolution) (v : RegionVar) : Extent := (r.extents.get? v).getD {}

def loanExtent (r : RegionSolution) (site : Site) : Extent := r.extent (.loan site)

def bindingExtent? (r : RegionSolution) (id : BindingId) : Option Extent :=
  (r.frame.holders.get? id).map r.extent

/-- The name of a binding in reports; names that several bindings share get the id appended. -/
def reportName (names : List String) (id : BindingId) (name : String) : String :=
  if names.count name = 1 then name else name ++ "#" ++ toString id

/-- The bindings that have a region, by id, with their names and variables. -/
def holdersById (r : RegionSolution) : List (BindingId × String × RegionVar) :=
  let named := r.frame.holders.entries.filterMap fun (id, v) =>
    (r.function.bindings.get? id).map fun b => (id, b.name, v)
  sortBy (fun a b => a.1 ≤ b.1) named

/-- The extents of bindings and loans under the names that reports use. -/
def regionMap (r : RegionSolution) : OrderedMap String Extent :=
  let holders := r.holdersById
  let names := holders.map (·.2.1)
  let bindings := holders.map fun (id, name, v) => (reportName names id name, r.extent v)
  let loans := (r.extents.entries.filter (·.1.isLoan)).map fun (v, e) => (v.render, e)
  OrderedMap.ofList (bindings ++ loans)

def render (r : RegionSolution) : String :=
  "\n".intercalate (("regions of " ++ r.function.name ++ ":") ::
    r.regionMap.entries.map fun (name, e) => "  " ++ name ++ ": " ++ e.describe)

/-- The end markers that a region of the signature reaches without being declared to outlive them. -/
def undeclaredEnds (r : RegionSolution) (name : String) : List String :=
  (sortTexts (r.extent (.universal name)).ends).filter fun marker =>
    !(marker = name || name = staticRegion || r.outlives.holds name marker)

def outlivesFinding (r : RegionSolution) (name marker : String) : Diagnostic :=
  { kind := some .danglingReference
    message := "reference with region " ++ name ++ " may outlive its data: requires " ++ name ++
      ": " ++ marker
    span := (r.causes.get? (.universal name, marker)).getD r.function.loc
    related := [⟨r.function.loc, "signature of '" ++ r.function.name ++ "' declares no " ++ name ++
      ": " ++ marker⟩] }

/-- The regions of the signature that would have to outlive others without a declaration. -/
def outlivesFindings (r : RegionSolution) : List Diagnostic :=
  r.frame.universals.flatMap fun name => (r.undeclaredEnds name).map (r.outlivesFinding name)

end RegionSolution

/-- Solves the constraints of a function. -/
def ExtentProblem.solution (e : ExtentProblem) (f : Function) (limit : Option Int) :
    Except Fault RegionSolution := do
  let (search, budget) ← e.solve limit
  return {
    function := f
    frame := e.frame
    constraints := e.constraints
    extents := .tabulate search.extent (RegionVar.sort search.extents.keys)
    causes := search.causes.filter (·.2.isKnown)
    outlives := Outlives.closure f.regionParams (f.outlives ++ e.frame.implied)
    steps := budget.steps }

end Ownership
