import Ownership.Source.Token
import Ownership.Expr

/-!
The program text as a tree, before names are resolved. Every node knows the
range of text from its first token to its last one.
-/
namespace Ownership.Surface

structure Range where
  start : Position
  stop : Position
  deriving DecidableEq, Repr, Inhabited

inductive Ty where
  | ref (region : Option String) (mutable : Bool) (target : Ty) (range : Range)
  | array (element : Ty) (range : Range)
  | named (name : String) (region : Option String) (range : Range)
  deriving Repr, Inhabited

mutual

inductive Expr where
  | int (digits : String) (range : Range)
  | bool (value : Bool) (range : Range)
  | unit (range : Range)
  | var (name : String) (range : Range)
  | field (subject : Expr) (name : String) (range : Range)
  | index (subject : Expr) (position : Expr) (range : Range)
  | deref (subject : Expr) (range : Range)
  | borrow (subject : Expr) (mutable : Bool) (range : Range)
  | unary (op : UnaryOp) (operand : Expr) (range : Range)
  | binary (op : BinaryOp) (left : Expr) (right : Expr) (range : Range)
  | call (callee : String) (args : List Expr) (range : Range)
  | inject (enum : String) (variant : String) (args : List Expr) (range : Range)
  | construct (struct : String) (region : Option String) (fields : List FieldInit) (range : Range)

inductive FieldInit where
  | mk (name : String) (value : Expr) (range : Range)

end

def Expr.range : Expr → Range
  | .int _ r | .bool _ r | .unit r | .var _ r | .field _ _ r | .index _ _ r | .deref _ r
  | .borrow _ _ r | .unary _ _ r | .binary _ _ _ r | .call _ _ r | .inject _ _ _ r
  | .construct _ _ _ r => r

/-- A payload field in a pattern: passed over, or bound to a name. -/
inductive SubPattern where
  | skip
  | bind (byRef : Bool) (mutable : Bool) (name : String) (range : Range)
  deriving Repr, Inhabited

inductive Pattern where
  | wildcard
  | variant (enum : Option String) (variant : String) (fields : List SubPattern) (range : Range)
  deriving Repr, Inhabited

mutual

inductive Stmt where
  | declare (name : String) (ty : Option Ty) (value : Option Expr) (range : Range)
  | assign (target : Expr) (value : Expr) (range : Range)
  | eval (expr : Expr) (range : Range)
  | branch (branch : Branch)
  | loop (body : Block) (range : Range)
  | whileLoop (cond : Expr) (body : Block) (range : Range)
  | breakLoop (range : Range)
  | continueLoop (range : Range)
  | ret (value : Option Expr) (range : Range)
  | select (scrutinee : Expr) (arms : List Arm) (range : Range)
  | block (body : Block)

inductive Block where
  | mk (statements : List Stmt) (range : Range)

inductive Branch where
  | mk (cond : Expr) (yes : Block) (no : Alternative) (range : Range)

/-- What follows a branch that is not taken. -/
inductive Alternative where
  | nothing
  | block (body : Block)
  | branch (branch : Branch)

inductive Arm where
  | mk (pattern : Pattern) (body : Block) (range : Range)

end

/-- A region parameter and the regions it is declared to outlive. -/
structure RegionDecl where
  name : String
  bounds : List String
  deriving Repr, Inhabited

/-- A named type: a field of a struct or a parameter. -/
structure TypedName where
  name : String
  ty : Ty
  range : Range
  deriving Repr, Inhabited

structure VariantDecl where
  name : String
  payload : List Ty
  deriving Repr, Inhabited

structure Header where
  name : String
  regions : List RegionDecl
  params : List TypedName
  ret : Option Ty
  range : Range
  deriving Repr, Inhabited

inductive Item where
  | struct (copy : Bool) (name : String) (fields : List TypedName) (range : Range)
  | enum (copy : Bool) (name : String) (variants : List VariantDecl) (range : Range)
  | function (header : Header) (body : Block)
  | external (header : Header)

end Ownership.Surface
