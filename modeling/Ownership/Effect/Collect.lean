import Ownership.Effect
import Ownership.Place.Typing

/-!
Collecting the effects of points. Operands are evaluated left to right, and the
positions inside a place before the place itself is accessed. Loans, calls and
aggregates of one point are numbered together, in the order of evaluation.
-/
namespace Ownership

/-- What the checker knows while it looks at one function. -/
structure Context where
  function : Function
  types : TypeTable
  signatures : SignatureTable

/-- The effects of a point as far as they have been collected. -/
structure Walk where
  point : Point
  ordinal : Nat := 0
  effects : Effects := {}

namespace Walk

def record (w : Walk) (a : Access) : Walk :=
  { w with effects := { w.effects with accesses := w.effects.accesses ++ [a] } }

def recordFlow (w : Walk) (f : Flow) : Walk :=
  { w with effects := { w.effects with flows := w.effects.flows ++ [f] } }

def recordCall (w : Walk) (c : CallSite) : Walk :=
  { w with effects := { w.effects with calls := w.effects.calls ++ [c] } }

/-- The site of what is created next. -/
def site (w : Walk) : Site := ⟨w.point, w.ordinal⟩

def nextSite (w : Walk) : Walk := { w with ordinal := w.ordinal + 1 }

/-- The value of an aggregate; only parts that carry references matter. -/
def aggregate (w : Walk) (parts : List Value) : Value × Walk :=
  let carrying := parts.filter (!·.isEmpty)
  if carrying.isEmpty then ([], w) else ([.aggregate w.site carrying], w.nextSite)

end Walk

namespace Context

def access (cx : Context) (kind : AccessKind) (place : Place) (span : Span) (loan : Option Site)
    (w : Walk) : Except Fault Walk := do
  let ty ← cx.function.typeOf cx.types place span
  return w.record { kind := kind, place := place, span := span, ty := some ty, loan := loan }

/-- A by-value use duplicates the value of a place or moves it away. -/
def usePlace (cx : Context) (place : Place) (span : Span) (w : Walk) :
    Except Fault (Value × Walk) := do
  let ty ← cx.function.typeOf cx.types place span
  let copy ← Fault.ofTypes (cx.types.isCopy (some ty))
  let kind := if copy then AccessKind.read else .move
  let w := w.record { kind := kind, place := place, span := span, ty := some ty }
  let carries ← Fault.ofTypes (cx.types.carriesRefs (some ty))
  return (if carries then [.place place] else [], w)

def borrow (cx : Context) (place : Place) (mutable : Bool) (span : Span) (w : Walk) :
    Except Fault (Value × Walk) := do
  let site := w.site
  let kind := if mutable then AccessKind.borrowMut else .borrowShared
  let w ← cx.access kind place span (some site) w.nextSite
  return ([.loan site], w)

/-- The signature of a callee that is passed this many arguments. -/
def callee (cx : Context) (name : String) (passed : Nat) (span : Span) : Except Fault Signature := do
  let signature ← cx.signatures.require name span
  if signature.params.length ≠ passed then
    throw (.breach (.argumentCount name passed signature.params.length) span)
  return signature

def recordCall (cx : Context) (signature : Signature) (args : List Value) (span : Span) (w : Walk) :
    Except Fault (Value × Walk) := do
  let site := w.site
  let w := w.nextSite.recordCall { site := site, signature := signature, args := args, span := span }
  let carries ← Fault.ofTypes (cx.types.carriesRefs signature.ret)
  return (if carries then [.call site] else [], w)

/-- The place that a by-value use of a place expression reads. -/
def placeOf (e : Expr) : Except Fault Place :=
  (Place.ofExpr? e).elim (.error .projectionOfValue) .ok

mutual

/-- Evaluates an expression by value. -/
def operand (cx : Context) : Expr → Span → Walk → Except Fault (Value × Walk)
  | e@(.var _ _ _), fallback, w => do
    cx.usePlace (← placeOf e) (e.spanOr fallback) w
  | e@(.field subject _ _), fallback, w => do
    let place ← placeOf e
    let w ← cx.positions subject (e.spanOr fallback) w
    cx.usePlace place (e.spanOr fallback) w
  | e@(.index subject position _), fallback, w => do
    let place ← placeOf e
    let w ← cx.positions subject (e.spanOr fallback) w
    let (_, w) ← cx.operand position (e.spanOr fallback) w
    cx.usePlace place (e.spanOr fallback) w
  | e@(.deref subject _), fallback, w => do
    let place ← placeOf e
    let w ← cx.positions subject (e.spanOr fallback) w
    cx.usePlace place (e.spanOr fallback) w
  | e@(.payload subject _ _ _), fallback, w => do
    let place ← placeOf e
    let w ← cx.positions subject (e.spanOr fallback) w
    cx.usePlace place (e.spanOr fallback) w
  | e@(.borrow subject mutable _), fallback, w => do
    let span := e.spanOr fallback
    match Place.ofExpr? subject with
    | none => throw (.breach .borrowNotPlace span)
    | some place => cx.borrow place mutable span (← cx.positions subject span w)
  | .int _ _, _, w => .ok ([], w)
  | .bool _ _, _, w => .ok ([], w)
  | .unit _, _, w => .ok ([], w)
  | e@(.unary _ inner _), fallback, w => do
    let (_, w) ← cx.operand inner (e.spanOr fallback) w
    return ([], w)
  | e@(.binary _ left right _), fallback, w => do
    let (_, w) ← cx.operand left (e.spanOr fallback) w
    let (_, w) ← cx.operand right (e.spanOr fallback) w
    return ([], w)
  | e@(.call name args _), fallback, w => do
    let span := e.spanOr fallback
    let signature ← cx.callee name args.length span
    let (values, w) ← cx.operands args span w
    cx.recordCall signature values span w
  | e@(.construct _ fields _), fallback, w => do
    let (parts, w) ← cx.fieldOperands fields (e.spanOr fallback) w
    return w.aggregate parts
  | e@(.inject _ _ args _), fallback, w => do
    let (parts, w) ← cx.operands args (e.spanOr fallback) w
    return w.aggregate parts
  | .foreign, fallback, _ => .error (.breach (.unsupportedExpression "TExpr") fallback)

def operands (cx : Context) : List Expr → Span → Walk → Except Fault (List Value × Walk)
  | [], _, w => .ok ([], w)
  | e :: rest, span, w => do
    let (value, w) ← cx.operand e span w
    let (values, w) ← cx.operands rest span w
    return (value :: values, w)

def fieldOperands (cx : Context) : List FieldInit → Span → Walk → Except Fault (List Value × Walk)
  | [], _, w => .ok ([], w)
  | .mk _ e :: rest, span, w => do
    let (value, w) ← cx.operand e span w
    let (values, w) ← cx.fieldOperands rest span w
    return (value :: values, w)

/-- Evaluates the positions inside a place expression, those of its base first. -/
def positions (cx : Context) : Expr → Span → Walk → Except Fault Walk
  | .field subject _ _, span, w => cx.positions subject span w
  | .deref subject _, span, w => cx.positions subject span w
  | .payload subject _ _ _, span, w => cx.positions subject span w
  | .index subject position _, span, w => do
    let w ← cx.positions subject span w
    let (_, w) ← cx.operand position span w
    return w
  | _, _, w => .ok w

end

def statement (cx : Context) (w : Walk) : Stmt → Except Fault Walk
  | .storageDead id name loc => do
    let _ ← cx.function.binding id loc
    return w.record { kind := .storageDead, place := { root := id, name := name }, span := loc }
  | .declare name id none loc => cx.access .declare { root := id, name := name } loc none w
  | .declare name id (some value) loc => do
    let dest : Place := { root := id, name := name }
    let (value, w) ← cx.operand value loc w
    let w ← cx.access .init dest loc none w
    return w.recordFlow { dest := dest, value := value, span := loc }
  | .assign target value loc =>
    match Place.ofExpr? target with
    | none => throw (.breach .targetNotPlace loc)
    | some dest => do
      let (value, w) ← cx.operand value loc w
      let w ← cx.positions target loc w
      let w ← cx.access .write dest (target.spanOr loc) none w
      return w.recordFlow { dest := dest, value := value, span := loc }
  | .eval expr loc => do
    let (_, w) ← cx.operand expr loc w
    return w
  | s => throw (.breach (.unexpectedStatement s.form) s.loc)

def inspect (cx : Context) (scrutinee : Expr) (loc : Span) (w : Walk) : Except Fault Walk :=
  match Place.ofExpr? scrutinee with
  | none => throw (.breach .scrutineeNotPlace loc)
  | some place => do
    let w ← cx.positions scrutinee loc w
    cx.access .inspect place (scrutinee.spanOr loc) none w

def terminator (cx : Context) (w : Walk) (t : Terminator) : Except Fault Walk :=
  match t.kind, t.cond, t.scrutinee with
  | .branch, some cond, _ => do
    let (_, w) ← cx.operand cond t.loc w
    return w
  | .switch, _, some scrutinee => cx.inspect scrutinee t.loc w
  | _, _, _ => .ok w

/-- The effects of the points of a block. -/
def blockEffects (cx : Context) (g : Graph) (b : Nat) : Except Fault (List (Point × Effects)) := do
  let block := g.block b
  let statements ← block.statements.zipIdx.mapM fun (s, i) => do
    let w ← cx.statement { point := ⟨b, i⟩ } s
    return (w.point, w.effects)
  let last : Walk := { point := ⟨b, block.statements.length⟩ }
  let w ← block.terminator.elim (.ok last) (cx.terminator last)
  return statements ++ [(w.point, w.effects)]

def effects (cx : Context) (g : Graph) : Except Fault EffectMap := do
  let blocks ← g.reachable.mapM (cx.blockEffects g)
  return ⟨blocks.flatten⟩

end Context

end Ownership
