import Ownership.Effect.Collect
import Ownership.Region
import Ownership.Region.Liveness

/-!
Region constraints of a function. The regions of its signature come first, then
the variables of its local bindings; flows, reborrows and calls relate them.
What lies behind a reference is invariant, so regions nested in a parameter's
type are related to the argument both ways.
-/
namespace Ownership

/-- The signature's regions, and the variables of the bindings that have one. -/
structure RegionFrame where
  universals : List String := []
  holders : OrderedMap BindingId RegionVar := {}
  implied : List (String × String) := []
  deriving Inhabited

namespace RegionFrame

def addUniversal (r : RegionFrame) (name : String) : RegionFrame :=
  if r.universals.contains name then r else { r with universals := r.universals ++ [name] }

def hold (r : RegionFrame) (id : BindingId) (v : RegionVar) : RegionFrame :=
  { r with holders := r.holders.insert id v }

/-- What lies behind a reference outlives it. -/
def imply (r : RegionFrame) (outer : String) (nested : List String) : RegionFrame :=
  { r with implied := r.implied ++ (nested.filter (· ≠ outer)).map fun n => (n, outer) }

end RegionFrame

/-- The region made up for a parameter that names none. -/
def Param.anonymousRegion (p : Param) : String := "'_" ++ p.name

namespace Context

/-- The region of a parameter that carries references. -/
def paramRegion (cx : Context) (p : Param) : Except Fault String := do
  match ← Fault.ofTypes (cx.types.regionOf (some p.ty)) with
  | none => return p.anonymousRegion
  | some region =>
    if region = staticRegion || cx.function.regionParams.contains region then return region
    else throw (.breach (.parameterRegion p.name region) p.loc)

def declareParam (cx : Context) (r : RegionFrame) (p : Param) : Except Fault RegionFrame := do
  if ← Fault.ofTypes (cx.types.carriesRefs (some p.ty)) then
    let region ← cx.paramRegion p
    let r := (r.addUniversal region).hold p.id (.universal region)
    return r.imply region (← Fault.ofTypes (cx.types.nestedRegions (some p.ty)))
  else return r

/-- The region of a returned value that takes it from a parameter without a named one. -/
def anonymousReturn (cx : Context) (signature : Signature) : Except Fault String := do
  let undetermined : Fault := .breach (.undeterminedReturn cx.function.name) cx.function.loc
  match ← Fault.ofTypes (signature.elisionSource cx.types) with
  | none => throw undetermined
  | some i =>
    match cx.function.params[i]? with
    | none => throw undetermined
    | some p =>
      let carries ← Fault.ofTypes (cx.types.carriesRefs (some p.ty))
      let region ← Fault.ofTypes (cx.types.regionOf (some p.ty))
      if carries && region.isNone then return p.anonymousRegion else throw undetermined

def declareReturn (cx : Context) (signature : Signature) (r : RegionFrame) :
    Except Fault RegionFrame := do
  match cx.function.bindings.get? returnSlot with
  | none => return r
  | some slot =>
    if ← Fault.ofTypes (cx.types.carriesRefs (some slot.ty)) then
      match ← Fault.ofTypes (signature.returnRegion cx.types) with
      | some region => return (r.addUniversal region).hold returnSlot (.universal region)
      | none =>
        let region ← cx.anonymousReturn signature
        return r.hold returnSlot (.universal region)
    else return r

/-- The regions of the signature: the static one, the declared ones, and those of parameters. -/
def declareUniversals (cx : Context) (signature : Signature) : Except Fault RegionFrame := do
  let r := (staticRegion :: cx.function.regionParams).foldl RegionFrame.addUniversal {}
  let r ← cx.function.params.foldlM cx.declareParam r
  cx.declareReturn signature r

/-- The tracked bindings with their names, by id. -/
def localVars (cx : Context) (tracked : List BindingId) : List (BindingId × RegionVar) :=
  let named := tracked.filterMap fun id => (cx.function.bindings.get? id).map fun b => (id, b.name)
  (sortBy (fun a b => a.1 ≤ b.1) named).map fun (id, name) => (id, .binding id name)

def declareLocals (cx : Context) (tracked : List BindingId) (r : RegionFrame) : RegionFrame :=
  (cx.localVars tracked).foldl (fun r (id, v) => r.hold id v) r

end Context

/-- Variables and constraints as far as they have been generated. -/
structure ConstraintSet where
  vars : List RegionVar := []
  constraints : List Constraint := []
  deriving Inhabited

namespace ConstraintSet

def addVar (s : ConstraintSet) (v : RegionVar) : ConstraintSet :=
  if s.vars.contains v then s else { s with vars := s.vars ++ [v] }

/-- Adds a constraint between two variables, once. -/
def add (s : ConstraintSet) (sub sup : RegionVar) (span : Span) : ConstraintSet :=
  if sub = sup || s.constraints.any (fun c => c.sub = sub && c.sup = sup) then s
  else { s with constraints := s.constraints ++ [⟨sub, sup, span⟩] }

def addAll (s : ConstraintSet) (sub : RegionVar) (sups : List RegionVar) (span : Span) :
    ConstraintSet :=
  sups.foldl (fun s sup => s.add sub sup span) s

end ConstraintSet

/-- All that constraint generation looks up. -/
structure RegionProblem where
  types : TypeTable
  effects : EffectMap
  frame : RegionFrame

namespace RegionProblem

def holder? (r : RegionProblem) (id : BindingId) : Option RegionVar := r.frame.holders.get? id

def call? (r : RegionProblem) (site : Site) : Option CallSite :=
  (r.effects.get site.point).calls.find? (·.site = site)

/-- The place that a loan was taken of. -/
def loanPlace? (r : RegionProblem) (site : Site) : Option Place :=
  ((r.effects.accesses site.point).find? (·.loan = some site)).map Access.place

/-- A region of a callee as it is at one call. -/
def instanceVar (site : Site) (region : String) : RegionVar :=
  if region = staticRegion then .universal staticRegion else .call site region

/-- The variable for the region of a parameter at a call, if its type carries references. -/
def paramVar (r : RegionProblem) (site : Site) (ty : TypeId) (i : Nat) :
    Except Fault (Option RegionVar) := do
  if ← Fault.ofTypes (r.types.carriesRefs (some ty)) then
    let region ← Fault.ofTypes (r.types.regionOf (some ty))
    return some (instanceVar site (region.getD ("'_" ++ toString i)))
  else return none

/-- The variable for the region of a call's result. -/
def resultRegion (r : RegionProblem) (call : CallSite) : Except Fault (Option RegionVar) := do
  match ← Fault.ofTypes (call.signature.returnRegion r.types) with
  | some region => return some (instanceVar call.site region)
  | none =>
    match ← Fault.ofTypes (call.signature.elisionSource r.types) with
    | none => throw (.breach (.undeterminedReturn call.signature.name) call.span)
    | some i => (call.signature.params[i]?).elim (.ok none) (r.paramVar call.site · i)

/-- The result of a call; whatever keeps it alive keeps alive what its referent holds. -/
def resultVar (r : RegionProblem) (site : Site) (s : ConstraintSet) :
    Except Fault (Option RegionVar × ConstraintSet) := do
  match r.call? site with
  | none => return (none, s)
  | some call =>
    match ← r.resultRegion call with
    | none => return (none, s)
    | some result =>
      let nested ← Fault.ofTypes (r.types.nestedRegions call.signature.ret)
      let s := nested.foldl (fun s region =>
        let inner := instanceVar site region
        (s.addVar inner).add result inner call.span) (s.addVar result)
      return (some result, s)

mutual

/-- The variable of a source; an aggregate is related to those of its parts. -/
def sourceVar (r : RegionProblem) : Source → ConstraintSet →
    Except Fault (Option RegionVar × ConstraintSet)
  | .loan site, s => .ok (some (.loan site), s.addVar (.loan site))
  | .place p, s => .ok (r.holder? p.root, s)
  | .call site, s => r.resultVar site s
  | .aggregate site parts, s => do
    let s ← r.relateParts (.aggregate site) parts (s.addVar (.aggregate site))
    return (some (.aggregate site), s)

def sourceVars (r : RegionProblem) : List Source → ConstraintSet →
    Except Fault (List RegionVar × ConstraintSet)
  | [], s => .ok ([], s)
  | src :: rest, s => do
    let (v, s) ← r.sourceVar src s
    let (vs, s) ← r.sourceVars rest s
    return (v.toList ++ vs, s)

def relateParts (r : RegionProblem) (aggregate : RegionVar) : List (List Source) → ConstraintSet →
    Except Fault ConstraintSet
  | [], s => .ok s
  | part :: rest, s => do
    let (vs, s) ← r.sourceVars part s
    r.relateParts aggregate rest (s.addAll aggregate vs {})

end

/-- The variable of what an argument points at: for a loan, that of the borrowed binding. -/
def holderVar (r : RegionProblem) (src : Source) (s : ConstraintSet) :
    Except Fault (Option RegionVar × ConstraintSet) :=
  match src with
  | .loan site => .ok ((r.loanPlace? site).bind fun p => r.holder? p.root, s)
  | _ => r.sourceVar src s

def holderVars (r : RegionProblem) (value : Value) (s : ConstraintSet) :
    Except Fault (List RegionVar × ConstraintSet) :=
  value.foldlM (fun (vs, s) src => do
    let (v, s) ← r.holderVar src s
    return (vs ++ (v.toList.filter (!vs.contains ·)), s)) ([], s)

/-- Relates the regions nested in a parameter's type to the holders of the argument, both ways. -/
def relateNested (call : CallSite) (nested : List String) (holders : List RegionVar)
    (s : ConstraintSet) : ConstraintSet :=
  nested.foldl (fun s region =>
    let inner := instanceVar call.site region
    holders.foldl (fun s h => (s.add h inner call.span).add inner h call.span) (s.addVar inner)) s

def relateArg (r : RegionProblem) (call : CallSite) (i : Nat) (ty : TypeId) (arg : Value)
    (s : ConstraintSet) : Except Fault ConstraintSet := do
  match ← r.paramVar call.site ty i with
  | none => return s
  | some param =>
    let (vs, s) ← r.sourceVars arg (s.addVar param)
    let s := s.addAll param vs call.span
    let (holders, s) ← r.holderVars arg s
    let nested ← Fault.ofTypes (r.types.nestedRegions (some ty))
    return relateNested call nested holders s

def relateArgs (r : RegionProblem) (call : CallSite) : Nat → List TypeId → List Value →
    ConstraintSet → Except Fault ConstraintSet
  | i, ty :: types, arg :: args, s => do
    let s ← r.relateArg call i ty arg s
    r.relateArgs call (i + 1) types args s
  | _, _, _, s => .ok s

/-- The outlives pairs of a callee hold of its regions at the call. -/
def relateOutlives (call : CallSite) (s : ConstraintSet) : ConstraintSet :=
  call.signature.outlives.foldl (fun s (longer, shorter) =>
    let longer := instanceVar call.site longer
    let shorter := instanceVar call.site shorter
    ((s.addVar longer).addVar shorter).add shorter longer call.span) s

def relateCall (r : RegionProblem) (s : ConstraintSet) (call : CallSite) :
    Except Fault ConstraintSet := do
  call.signature.validate r.types
  let s ← r.relateArgs call 0 call.signature.params call.args s
  return relateOutlives call s

/-- A loan taken through a reference lives no longer than the reference. -/
def relateLoan (r : RegionProblem) (s : ConstraintSet) (a : Access) : ConstraintSet :=
  match a.loan with
  | none => s
  | some site =>
    let s := s.addVar (.loan site)
    match r.holder? a.place.root with
    | some root => if a.place.throughDeref then s.add (.loan site) root a.span else s
    | none => s

def relateFlow (r : RegionProblem) (s : ConstraintSet) (f : Flow) : Except Fault ConstraintSet := do
  match r.holder? f.dest.root with
  | none => return s
  | some dest =>
    let (vs, s) ← r.sourceVars f.value s
    return s.addAll dest vs f.span

def relatePoint (r : RegionProblem) (s : ConstraintSet) (fx : Effects) :
    Except Fault ConstraintSet := do
  let s := fx.accesses.foldl r.relateLoan s
  let s ← fx.calls.foldlM r.relateCall s
  fx.flows.foldlM r.relateFlow s

/-- The variables that exist before any constraint: the signature's and the local ones. -/
def initialVars (frame : RegionFrame) : List RegionVar :=
  frame.holders.values.foldl (fun vs v => if vs.contains v then vs else vs ++ [v])
    (frame.universals.map .universal)

/-- The constraints of all points, in the order of the points. -/
def generate (r : RegionProblem) (points : List Point) : Except Fault ConstraintSet :=
  points.foldlM (fun s p => r.relatePoint s (r.effects.get p)) { vars := initialVars r.frame }

end RegionProblem

end Ownership
