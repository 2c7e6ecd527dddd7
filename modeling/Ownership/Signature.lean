import Ownership.Fault

/-!
Signatures: all that a caller knows of a function. A result that names no
region takes it from the parameters when these leave no choice.
-/
namespace Ownership

def staticRegion : String := "'static"

structure Signature where
  name : String
  params : List TypeId := []
  ret : Option TypeId := none
  regionParams : List String := []
  outlives : List (String × String) := []
  loc : Span := {}
  deriving DecidableEq, Repr, Inhabited

namespace Signature

def declares (s : Signature) (region : String) : Bool :=
  region = staticRegion || s.regionParams.contains region

/-- The positions of the parameters that carry references. -/
def carrying (s : Signature) (types : TypeTable) : Except TypeFault (List Nat) := do
  let flags ← s.params.mapM fun ty => types.carriesRefs (some ty)
  return (List.range s.params.length).filter fun i => flags[i]? = some true

def paramRegion (s : Signature) (types : TypeTable) (i : Nat) : Except TypeFault (Option String) :=
  types.regionOf s.params[i]?

/-- The parameter that an unnamed result region is taken from: the only one that
carries references, or the first of several that all name one region. -/
def elisionSource (s : Signature) (types : TypeTable) : Except TypeFault (Option Nat) := do
  match ← s.carrying types with
  | [] => return none
  | [i] => return some i
  | i :: rest =>
    let region ← s.paramRegion types i
    let others ← rest.mapM (s.paramRegion types)
    return if region.isSome && others.all (· = region) then some i else none

/-- The region of the result where it has a name: its own, that of the elision
source, or the static one when there is no reference to borrow from. -/
def returnRegion (s : Signature) (types : TypeTable) : Except TypeFault (Option String) := do
  let region ← types.regionOf s.ret
  if region.isSome then return region
  unless ← types.carriesRefs s.ret do return none
  if (← s.carrying types).isEmpty then return some staticRegion
  match ← s.elisionSource types with
  | none => return none
  | some i => s.paramRegion types i

def checkRegions (s : Signature) (types : TypeTable) (ty : Option TypeId) : Except Fault Unit := do
  let regions ← Fault.ofTypes (types.regionsIn ty)
  match regions.find? (!s.declares ·) with
  | some region => throw (.breach (.undeclaredRegion s.name region) s.loc)
  | none => return ()

/-- Every region of the signature is declared, and the result's region is determined. -/
def validate (s : Signature) (types : TypeTable) : Except Fault Unit := do
  (s.params.map some ++ [s.ret]).forM (s.checkRegions types)
  match s.outlives.find? fun p => !(s.declares p.1 && s.declares p.2) with
  | some (a, b) => throw (.breach (.undeclaredOutlives s.name a b) s.loc)
  | none => pure ()
  if ← Fault.ofTypes (types.carriesRefs s.ret) then
    if (← Fault.ofTypes (types.regionOf s.ret)).isNone then
      if (← Fault.ofTypes (s.returnRegion types)).isNone then
        if (← Fault.ofTypes (s.elisionSource types)).isNone then
          throw (.breach (.returnNotElidable s.name) s.loc)

end Signature

/-- The signatures that a program can call, each under its own name. -/
structure SignatureTable where
  signatures : List Signature := []
  deriving Repr, Inhabited

namespace SignatureTable

def get? (t : SignatureTable) (name : String) : Option Signature :=
  t.signatures.find? (·.name = name)

def contains (t : SignatureTable) (name : String) : Bool := (t.get? name).isSome

def add (t : SignatureTable) (s : Signature) : Except Fault SignatureTable :=
  if t.contains s.name then .error (.breach (.duplicateSignature s.name) s.loc)
  else .ok ⟨t.signatures ++ [s]⟩

def ofList (signatures : List Signature) : Except Fault SignatureTable :=
  signatures.foldlM add {}

def require (t : SignatureTable) (name : String) (loc : Span) : Except Fault Signature :=
  match t.get? name with
  | some s => .ok s
  | none => .error (.breach (.missingSignature name) loc)

end SignatureTable

end Ownership
