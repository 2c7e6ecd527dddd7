import Ownership.Expr

/-!
Statements of the typed program. Each block is a scope: the bindings declared
directly in it end with it. Storage ends are statements of their own, which
lowering adds; a statement of an unknown kind is `foreign`.
-/
namespace Ownership

/-- One payload field of a matched variant, bound to a name. -/
structure PayloadBinding where
  field : String
  name : String
  id : BindingId
  byRef : Bool := false
  mutable : Bool := false
  loc : Span := {}
  deriving DecidableEq, Repr, Inhabited

mutual

inductive Stmt where
  | block (body : Block)
  | declare (name : String) (id : BindingId) (value : Option Expr) (loc : Span)
  | assign (target : Expr) (value : Expr) (loc : Span)
  | eval (expr : Expr) (loc : Span)
  | branch (cond : Expr) (yes : Block) (no : Option Block) (loc : Span)
  | loop (body : Block) (loc : Span)
  | breakLoop (loc : Span)
  | continueLoop (loc : Span)
  | ret (value : Option Expr) (loc : Span)
  | select (scrutinee : Expr) (arms : List Arm) (loc : Span)
  | storageDead (id : BindingId) (name : String) (loc : Span)
  | foreign

inductive Block where
  | mk (statements : List Stmt) (loc : Span)

/-- An arm of a match; one without a variant takes every value. -/
inductive Arm where
  | mk (variant : Option String) (body : Block) (bindings : List PayloadBinding) (loc : Span)

end

instance : Inhabited Stmt := ⟨.foreign⟩
instance : Inhabited Block := ⟨.mk [] {}⟩

namespace Block

def statements : Block → List Stmt
  | .mk ss _ => ss

def loc : Block → Span
  | .mk _ l => l

end Block

namespace Arm

def variant : Arm → Option String
  | .mk v _ _ _ => v

def body : Arm → Block
  | .mk _ b _ _ => b

def bindings : Arm → List PayloadBinding
  | .mk _ _ bs _ => bs

def loc : Arm → Span
  | .mk _ _ _ l => l

/-- The label of the edge that leads to the arm. -/
def label (a : Arm) : String := a.variant.getD "_"

end Arm

namespace Stmt

def loc : Stmt → Span
  | block b => b.loc
  | declare _ _ _ l | assign _ _ l | eval _ l | branch _ _ _ l | loop _ l | breakLoop l
  | continueLoop l | ret _ l | select _ _ l | storageDead _ _ l => l
  | foreign => {}

/-- The name of the statement's form in messages. -/
def form : Stmt → String
  | block _ => "TBlock"
  | declare .. => "TLet"
  | assign .. => "TAssign"
  | eval .. => "TExprStmt"
  | branch .. => "TIf"
  | loop .. => "TLoop"
  | breakLoop _ => "TBreak"
  | continueLoop _ => "TContinue"
  | ret .. => "TReturn"
  | select .. => "TMatch"
  | storageDead .. => "StorageDead"
  | foreign => "TStmt"

def isStorageDead : Stmt → Bool
  | storageDead .. => true
  | _ => false

/-- The binding that a statement adds to the scope around it. -/
def declared : Stmt → List (BindingId × String)
  | declare name id _ _ => [(id, name)]
  | _ => []

end Stmt

end Ownership
