import Ownership.Place
import Ownership.Stmt

/-!
Why an analysis stops without an answer. A breach of the program's contract has
a cause and a location; an analysis may also run out of steps, ask the type
table for something it does not have, or meet a projection that starts at no
place.
-/
namespace Ownership

/-- The ways in which a program can break its contract with the checker. -/
inductive Breach where
  | undeclaredRegion (function region : String)
  | undeclaredOutlives (function longer shorter : String)
  | returnNotElidable (function : String)
  | duplicateSignature (name : String)
  | missingSignature (name : String)
  | outsideLoop (form : String)
  | unsupportedStatement (form : String)
  | unexpectedStatement (form : String)
  | unsupportedExpression (form : String)
  | scrutineeNotPlace
  | noArms
  | wildcardBinds
  | undeclaredBinding (id : BindingId) (function : String)
  | illTypedStep (place : Place) (owner : String) (step : Projection)
  | bareDowncast (place : Place)
  | targetNotPlace
  | borrowNotPlace
  | argumentCount (callee : String) (passed expected : Nat)
  | parameterRegion (parameter region : String)
  | undeterminedReturn (function : String)
  deriving DecidableEq, Repr

def Breach.message : Breach → String
  | undeclaredRegion f r => "signature of '" ++ f ++ "' uses undeclared region " ++ r
  | undeclaredOutlives f a b =>
    "signature of '" ++ f ++ "' relates undeclared regions " ++ a ++ ": " ++ b
  | returnNotElidable f =>
    "signature of '" ++ f ++ "' returns a reference without a region and it cannot be elided"
  | duplicateSignature n => "duplicate signature for '" ++ n ++ "'"
  | missingSignature n => "no signature for call target '" ++ n ++ "'"
  | outsideLoop form => form ++ " outside of a loop"
  | unsupportedStatement form => "unsupported statement " ++ form
  | unexpectedStatement form => "unexpected statement " ++ form ++ " in CFG"
  | unsupportedExpression form => "unsupported expression " ++ form
  | scrutineeNotPlace => "match scrutinee must be a place expression"
  | noArms => "match without arms"
  | wildcardBinds => "wildcard arm cannot bind payload fields"
  | undeclaredBinding id f =>
    "reference to undeclared binding #" ++ toString id ++ " in '" ++ f ++ "'"
  | illTypedStep place owner step =>
    "ill-typed place '" ++ place.render ++ "' (" ++ owner ++ " has no " ++ step.render ++ ")"
  | bareDowncast place => "downcast without payload field in '" ++ place.render ++ "'"
  | targetNotPlace => "assignment target is not a place expression"
  | borrowNotPlace => "cannot borrow a non-place expression"
  | argumentCount callee passed expected =>
    "call to '" ++ callee ++ "' passes " ++ toString passed ++ " arguments, signature expects " ++
      toString expected
  | parameterRegion p r => "parameter '" ++ p ++ "' names undeclared region " ++ r
  | undeterminedReturn f => "cannot determine the region of the value returned by '" ++ f ++ "'"

inductive Fault where
  | breach (cause : Breach) (loc : Span)
  | limit (analysis : String) (limit : Int)
  | unsettled (analysis : String)
  | types (fault : TypeFault)
  | projectionOfValue
  deriving DecidableEq, Repr

namespace Fault

def message : Fault → String
  | breach cause _ => cause.message
  | limit analysis n => analysis ++ " did not converge within " ++ toString n ++ " iterations"
  | unsettled analysis => analysis ++ " did not settle"
  | types fault => fault.message
  | projectionOfValue => ""

/-- Where the program broke its contract; unknown for every other fault. -/
def loc : Fault → Span
  | breach _ loc => loc
  | _ => {}

/-- A fault that rejects one function; any other stops the whole run. -/
def isLocal : Fault → Bool
  | breach .. | limit .. | unsettled _ => true
  | types _ | projectionOfValue => false

end Fault

/-- The outcome of a look-up in the type table. -/
def Fault.ofTypes {α : Type} (r : Except TypeFault α) : Except Fault α :=
  match r with
  | .ok a => .ok a
  | .error f => .error (.types f)

theorem Fault.ofTypes_eq_ok {α : Type} {r : Except TypeFault α} {a : α} :
    Fault.ofTypes r = .ok a ↔ r = .ok a := by
  cases r with
  | error f => simp [Fault.ofTypes]
  | ok b => simp [Fault.ofTypes]

end Ownership
