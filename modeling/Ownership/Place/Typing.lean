import Ownership.Function

/-!
The type of a place, found by walking its path from the type of its root. A
downcast only selects the variant whose payload a later field step reads.
-/
namespace Ownership

namespace TypeTable

/-- The type one step further in; `pending` is the variant selected last. -/
def step? (t : TypeTable) (ty : TypeId) (pending : Option String) :
    Projection → Except TypeFault (Option TypeId)
  | .field name =>
    match pending with
    | some variant => t.payloadType ty variant name
    | none => t.fieldType ty name
  | .element _ | .anyElement => t.elementType ty
  | .deref => t.pointee ty
  | .downcast _ => .ok (some ty)

/-- The variant that is selected after a step. -/
def pendingAfter (pending : Option String) : Projection → Option String
  | .downcast variant => some variant
  | .field _ => none
  | _ => pending

/-- Walks a path from a type; `place` and `loc` are for the error only. -/
def walk (t : TypeTable) (place : Place) (loc : Span) :
    TypeId → Option String → List Projection → Except Fault TypeId
  | ty, none, [] => .ok ty
  | _, some _, [] => .error (.breach (.bareDowncast place) loc)
  | ty, pending, p :: ps => do
    match ← Fault.ofTypes (t.step? ty pending p) with
    | some next => t.walk place loc next (pendingAfter pending p) ps
    | none =>
      let owner ← Fault.ofTypes (t.describe (some ty))
      throw (.breach (.illTypedStep place owner p) loc)

end TypeTable

def Function.typeOf (f : Function) (types : TypeTable) (place : Place) (loc : Span) :
    Except Fault TypeId := do
  let root ← f.binding place.root loc
  types.walk place loc root.ty none place.path

end Ownership
