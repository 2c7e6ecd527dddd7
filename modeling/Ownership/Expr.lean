import Ownership.Span
import Ownership.TypeTable

/-!
Expressions of the typed program. Variables, fields, elements, referents and
payload fields are places; everything else only has a value. An expression of
a kind that the checker does not know is `foreign`.
-/
namespace Ownership

abbrev BindingId := Int

/-- The slot that holds the value a function returns. -/
def returnSlot : BindingId := 0

inductive UnaryOp where
  | neg | not
  deriving DecidableEq, Repr

inductive BinaryOp where
  | add | sub | mul | div | eq | ne | lt | le | gt | ge | and | or
  deriving DecidableEq, Repr

/-- Comparisons and connectives yield truth values, the rest integers. -/
def BinaryOp.isLogical : BinaryOp → Bool
  | .add | .sub | .mul | .div => false
  | _ => true

mutual

inductive Expr where
  | var (name : String) (id : BindingId) (loc : Span)
  | field (subject : Expr) (name : String) (loc : Span)
  | index (subject : Expr) (position : Expr) (loc : Span)
  | deref (subject : Expr) (loc : Span)
  | payload (subject : Expr) (variant : String) (field : String) (loc : Span)
  | borrow (subject : Expr) (mutable : Bool) (loc : Span)
  | int (value : Int) (loc : Span)
  | bool (value : Bool) (loc : Span)
  | unit (loc : Span)
  | unary (op : UnaryOp) (operand : Expr) (loc : Span)
  | binary (op : BinaryOp) (left : Expr) (right : Expr) (loc : Span)
  | call (callee : String) (args : List Expr) (loc : Span)
  | construct (ty : TypeId) (fields : List FieldInit) (loc : Span)
  | inject (ty : TypeId) (variant : String) (args : List Expr) (loc : Span)
  | foreign

inductive FieldInit where
  | mk (name : String) (value : Expr)

end

instance : Inhabited Expr := ⟨.foreign⟩

def FieldInit.name : FieldInit → String
  | .mk name _ => name

def FieldInit.value : FieldInit → Expr
  | .mk _ value => value

namespace Expr

def loc : Expr → Span
  | var _ _ l | field _ _ l | index _ _ l | deref _ l | payload _ _ _ l | borrow _ _ l | int _ l
  | bool _ l | unit l | unary _ _ l | binary _ _ _ l | call _ _ l | construct _ _ l
  | inject _ _ _ l => l
  | foreign => {}

def isPlace : Expr → Bool
  | var .. | field .. | index .. | deref .. | payload .. => true
  | _ => false

/-- The span of an expression, or of what surrounds it where its own is unknown. -/
def spanOr (e : Expr) (fallback : Span) : Span :=
  if e.loc.isKnown then e.loc else fallback

end Expr

end Ownership
