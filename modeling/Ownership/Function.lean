import Ownership.Signature

/-!
Functions with their binding tables, and programs: the functions to check and
the signatures of everything else they call.
-/
namespace Ownership

inductive BindingKind where
  | param | localVar | returnValue
  deriving DecidableEq, Repr

structure Binding where
  id : BindingId
  name : String
  ty : TypeId
  kind : BindingKind := .localVar
  loc : Span := {}
  deriving DecidableEq, Repr

structure Param where
  name : String
  id : BindingId
  ty : TypeId
  loc : Span := {}
  deriving DecidableEq, Repr

def Param.binding (p : Param) : Binding :=
  { id := p.id, name := p.name, ty := p.ty, kind := .param, loc := p.loc }

structure Function where
  name : String
  params : List Param
  ret : Option TypeId
  body : Block
  bindings : OrderedMap BindingId Binding := {}
  regionParams : List String := []
  outlives : List (String × String) := []
  loc : Span := {}
  deriving Inhabited

namespace Function

/-- Adds the parameters that the binding table lacks. -/
def withParams (f : Function) : Function :=
  { f with bindings := f.params.foldl (fun m p => m.insertNew p.id p.binding) f.bindings }

/-- Adds the slot of the returned value, unless the id is taken. -/
def withReturnSlot (f : Function) (unit : TypeId) : Function :=
  { f with
    bindings := f.bindings.insertNew returnSlot
      { id := returnSlot, name := "<return>", ty := f.ret.getD unit, kind := .returnValue, loc := f.loc } }

def signature (f : Function) : Signature where
  name := f.name
  params := f.params.map Param.ty
  ret := f.ret
  regionParams := f.regionParams
  outlives := f.outlives
  loc := f.loc

def binding (f : Function) (id : BindingId) (loc : Span) : Except Fault Binding :=
  match f.bindings.get? id with
  | some b => .ok b
  | none => .error (.breach (.undeclaredBinding id f.name) loc)

end Function

structure Program where
  types : TypeTable := {}
  functions : List Function := []
  externs : List Signature := []
  source : Option String := none
  deriving Inhabited

namespace Program

def signatures (p : Program) : Except Fault SignatureTable :=
  SignatureTable.ofList (p.functions.map Function.signature ++ p.externs)

def function? (p : Program) (name : String) : Option Function :=
  p.functions.find? (·.name = name)

/-- Gives every function its return slot, and the table the type that an empty one has. -/
def prepare (p : Program) : Program :=
  let (unit, types) := p.types.unit
  { p with types := types, functions := p.functions.map (·.withReturnSlot unit) }

end Program

end Ownership
