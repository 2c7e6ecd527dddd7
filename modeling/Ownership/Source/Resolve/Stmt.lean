import Ownership.Source.Resolve.Expr

/-!
Resolving statements. Every binding gets a declared or an inferred type and an
id of its own; a block ends the scope of the names declared in it. A `while`
becomes a loop around a branch that leaves it.
-/
namespace Ownership

namespace ReadContext

/-- What reading a body adds to: the type table, and the bindings with the next free id. -/
structure BodyState where
  types : TypeTable
  bindings : Bindings := {}
  next : BindingId := returnSlot + 1
  deriving Inhabited

namespace BodyState

def withTypes {α : Type} (s : BodyState) (r : α × TypeTable) : α × BodyState :=
  (r.1, { s with types := r.2 })

def declare (s : BodyState) (name : String) (ty : TypeId) (kind : BindingKind) (loc : Span) :
    BindingId × BodyState :=
  (s.next, { s with
    bindings := s.bindings.insert s.next ⟨s.next, name, ty, kind, loc⟩
    next := s.next + 1 })

end BodyState

/-- The names that statements add to a scope. -/
def scopeWith (scope : Scope) (declared : List (BindingId × String)) : Scope :=
  declared.foldl (fun scope d => (d.2, d.1) :: scope) scope

def stateExpr (cx : ReadContext) (scope : Scope) (e : Surface.Expr) (s : BodyState) :
    Read (Expr × BodyState) :=
  (cx.expr scope e s.types).map s.withTypes

def optionalExpr (cx : ReadContext) (scope : Scope) (e : Option Surface.Expr) (s : BodyState) :
    Read (Option Expr × BodyState) :=
  match e with
  | none => .ok (none, s)
  | some e => (cx.stateExpr scope e s).map fun (e, s) => (some e, s)

/-- The declared type of a binding, or the one inferred from its value. -/
def declaredType (cx : ReadContext) (name : String) (ty : Option TypeId) (value : Option Expr)
    (r : Surface.Range) (s : BodyState) : Read (TypeId × BodyState) :=
  match ty, value with
  | some ty, _ => .ok (ty, s)
  | none, some e => (cx.typeOf s.bindings r e s.types).map s.withTypes
  | none, none => cx.fail (.needsType name) r

def optionalType (cx : ReadContext) (ty : Option Surface.Ty) (s : BodyState) :
    Read (Option TypeId × BodyState) :=
  match ty with
  | none => .ok (none, s)
  | some ty => (cx.type ty s.types).map fun (ty, t) => (some ty, { s with types := t })

/-- A declaration; its value is resolved before its name comes into scope. -/
def declaration (cx : ReadContext) (scope : Scope) (name : String) (ty : Option Surface.Ty)
    (value : Option Surface.Expr) (r : Surface.Range) (s : BodyState) : Read (Stmt × BodyState) := do
  let (ty, s) ← cx.optionalType ty s
  let (value, s) ← cx.optionalExpr scope value s
  let (ty, s) ← cx.declaredType name ty value r s
  let (id, s) := s.declare name ty .localVar (cx.span r)
  return (.declare name id value (cx.span r), s)

/-- The enum that a match looks at, with its name. -/
def matchedEnum (cx : ReadContext) (scrutinee : Expr) (r : Surface.Range) (s : BodyState) :
    Read ((String × OrderedMap String (List TypeId)) × BodyState) := do
  unless scrutinee.isPlace do cx.fail .scrutineeNotPlace r
  let (ty, t) ← cx.typeOf s.bindings r scrutinee s.types
  match ← cx.ofTypes r (t.get ty) with
  | .enum name _ _ => return ((name, ← cx.ofTypes r (t.enumArms name)), { s with types := t })
  | _ => cx.fail (.cannotMatch (← cx.ofTypes r (t.describe (some ty)))) r

/-- Binds the payload fields that a pattern names, from position `i` on. -/
def payloadBindings (cx : ReadContext) : Nat → List Surface.SubPattern → List TypeId → BodyState →
    List PayloadBinding × BodyState
  | i, .skip :: rest, _ :: payload, s => cx.payloadBindings (i + 1) rest payload s
  | i, .bind byRef mutable name r :: rest, ty :: payload, s =>
    let (ty, t) := if byRef then s.types.ref ty mutable none else (ty, s.types)
    let (id, s) := { s with types := t }.declare name ty .localVar (cx.span r)
    let (bindings, s) := cx.payloadBindings (i + 1) rest payload s
    (⟨toString i, name, id, byRef, mutable, cx.span r⟩ :: bindings, s)
  | _, _, _, s => ([], s)

/-- The variant of a pattern and its bindings; a wildcard has neither. -/
def pattern (cx : ReadContext) (enum : String) (arms : OrderedMap String (List TypeId)) :
    Surface.Pattern → BodyState → Read ((Option String × List PayloadBinding) × BodyState)
  | .wildcard, s => .ok ((none, []), s)
  | .variant written variant fields r, s => do
    match written with
    | some w => if w ≠ enum then cx.fail (.patternType w enum) r
    | none => pure ()
    match arms.get? variant with
    | none => cx.fail (.noVariant enum variant) r
    | some payload =>
      if !fields.isEmpty && fields.length ≠ payload.length then
        cx.fail (.patternFields variant payload.length fields.length) r
      let (bindings, s) := cx.payloadBindings 0 fields payload s
      return ((some variant, bindings), s)

mutual

def stmt (cx : ReadContext) (scope : Scope) : Surface.Stmt → BodyState → Read (Stmt × BodyState)
  | .declare name ty value r, s => cx.declaration scope name ty value r s
  | .assign target value r, s => do
    let (resolved, s) ← cx.stateExpr scope target s
    unless resolved.isPlace do cx.fail .targetNotPlace target.range
    let (value, s) ← cx.stateExpr scope value s
    return (.assign resolved value (cx.span r), s)
  | .eval e r, s => do
    let (e, s) ← cx.stateExpr scope e s
    return (.eval e (cx.span r), s)
  | .branch b, s => cx.branch scope b s
  | .loop body r, s => do
    let (body, s) ← cx.block scope body s
    return (.loop body (cx.span r), s)
  | .whileLoop cond body r, s => do
    let (cond, s) ← cx.stateExpr scope cond s
    let (body, s) ← cx.block scope body s
    let loc := cx.span r
    let exit := Block.mk [.breakLoop loc] loc
    return (.loop (.mk [.branch cond body (some exit) loc] loc) loc, s)
  | .breakLoop r, s => .ok (.breakLoop (cx.span r), s)
  | .continueLoop r, s => .ok (.continueLoop (cx.span r), s)
  | .ret value r, s => do
    let (value, s) ← cx.optionalExpr scope value s
    return (.ret value (cx.span r), s)
  | .select scrutinee arms r, s => do
    let (resolved, s) ← cx.stateExpr scope scrutinee s
    let ((enum, layout), s) ← cx.matchedEnum resolved scrutinee.range s
    let (arms, s) ← cx.arms scope enum layout arms s
    return (.select resolved arms (cx.span r), s)
  | .block body, s => do
    let (body, s) ← cx.block scope body s
    return (.block body, s)

def stmts (cx : ReadContext) (scope : Scope) :
    List Surface.Stmt → BodyState → Read (List Stmt × BodyState)
  | [], s => .ok ([], s)
  | x :: rest, s => do
    let (x, s) ← cx.stmt scope x s
    let (rest, s) ← cx.stmts (scopeWith scope x.declared) rest s
    return (x :: rest, s)

def block (cx : ReadContext) (scope : Scope) : Surface.Block → BodyState → Read (Block × BodyState)
  | .mk statements r, s => do
    let (statements, s) ← cx.stmts scope statements s
    return (.mk statements (cx.span r), s)

def branch (cx : ReadContext) (scope : Scope) : Surface.Branch → BodyState → Read (Stmt × BodyState)
  | .mk cond yes no r, s => do
    let (cond, s) ← cx.stateExpr scope cond s
    let (yes, s) ← cx.block scope yes s
    let (no, s) ← cx.alternative scope no s
    return (.branch cond yes no (cx.span r), s)

/-- A branch that follows another one stands alone in a block of the same range. -/
def alternative (cx : ReadContext) (scope : Scope) :
    Surface.Alternative → BodyState → Read (Option Block × BodyState)
  | .nothing, s => .ok (none, s)
  | .block body, s => do
    let (body, s) ← cx.block scope body s
    return (some body, s)
  | .branch b, s => do
    let (b, s) ← cx.branch scope b s
    return (some (.mk [b] b.loc), s)

def arms (cx : ReadContext) (scope : Scope) (enum : String)
    (layout : OrderedMap String (List TypeId)) :
    List Surface.Arm → BodyState → Read (List Arm × BodyState)
  | [], s => .ok ([], s)
  | .mk p body r :: rest, s => do
    let ((variant, bindings), s) ← cx.pattern enum layout p s
    let inner := scopeWith scope (bindings.map fun b => (b.id, b.name))
    let (body, s) ← cx.block inner body s
    let (rest, s) ← cx.arms scope enum layout rest s
    return (.mk variant body bindings (cx.span r) :: rest, s)

end

end ReadContext

end Ownership
