import Ownership.Function
import Ownership.Sorting
import Ownership.Source.ReadError
import Ownership.Source.Surface

/-!
Resolving types and expressions: names become bindings of the innermost scope
that declares them, and layouts decide which fields and variants there are.
-/
namespace Ownership

/-- What the reader knows before it reads a body. -/
structure ReadContext where
  file : Option String
  signatures : List Signature := []
  functionName : String := ""
  deriving Inhabited

namespace ReadContext

def span (cx : ReadContext) (r : Surface.Range) : Span where
  file := cx.file
  line := some r.start.line
  column := some r.start.column
  endLine := some r.stop.line
  endColumn := some r.stop.column

def fail {α : Type} (cx : ReadContext) (cause : ReadCause) (r : Surface.Range) : Read α :=
  .error ⟨cause, cx.span r⟩

/-- The outcome of a look-up in the type table. -/
def ofTypes {α : Type} (cx : ReadContext) (r : Surface.Range) (result : Except TypeFault α) : Read α :=
  match result with
  | .ok a => .ok a
  | .error f => cx.fail (.types f) r

def type (cx : ReadContext) : Surface.Ty → TypeTable → Read (TypeId × TypeTable)
  | .ref region mutable target _, t => do
    let (target, t) ← cx.type target t
    return t.ref target mutable region
  | .array element _, t => do
    let (element, t) ← cx.type element t
    return t.array element
  | .named name region range, t =>
    if name = "Int" then .ok t.int
    else if name = "Bool" then .ok t.bool
    else if name = "Unit" then .ok t.unit
    else if t.hasStruct name then cx.ofTypes range (t.struct name region)
    else if t.hasEnum name then cx.ofTypes range (t.enum name region)
    else cx.fail (.unknownType name) range

/-- The names in scope, the latest declaration first. -/
abbrev Scope := List (String × BindingId)

/-- The value of a run of digits. -/
def digitsValue (digits : String) : Nat :=
  digits.toList.foldl (fun n d => 10 * n + (d.toNat - '0'.toNat)) 0

/-- The fields of a layout that no initializer names, sorted. -/
def missing (layout : OrderedMap String TypeId) (fields : List FieldInit) : List String :=
  sortBy (fun a b => a ≤ b) (layout.keys.filter fun f => !(fields.map FieldInit.name).contains f)

mutual

def expr (cx : ReadContext) (scope : Scope) : Surface.Expr → TypeTable → Read (Expr × TypeTable)
  | .int digits r, t =>
    if digits.length ≤ Numeral.maxDigits then .ok (.int (digitsValue digits) (cx.span r), t)
    else cx.fail (.longNumeral digits.length) r
  | .bool value r, t => .ok (.bool value (cx.span r), t)
  | .unit r, t => .ok (.unit (cx.span r), t)
  | .var name r, t =>
    match scope.lookup name with
    | some id => .ok (.var name id (cx.span r), t)
    | none => cx.fail (.unknownName name cx.functionName) r
  | .field subject name r, t => do
    let (subject, t) ← cx.expr scope subject t
    return (.field subject name (cx.span r), t)
  | .index subject position r, t => do
    let (subject, t) ← cx.expr scope subject t
    let (position, t) ← cx.expr scope position t
    return (.index subject position (cx.span r), t)
  | .deref subject r, t => do
    let (subject, t) ← cx.expr scope subject t
    return (.deref subject (cx.span r), t)
  | .borrow subject mutable r, t => do
    let (subject, t) ← cx.expr scope subject t
    unless subject.isPlace do cx.fail .borrowNotPlace r
    return (.borrow subject mutable (cx.span r), t)
  | .unary op operand r, t => do
    let (operand, t) ← cx.expr scope operand t
    return (.unary op operand (cx.span r), t)
  | .binary op left right r, t => do
    let (left, t) ← cx.expr scope left t
    let (right, t) ← cx.expr scope right t
    return (.binary op left right (cx.span r), t)
  | .call callee args r, t => do
    let (args, t) ← cx.exprs scope args t
    return (.call callee args (cx.span r), t)
  | .inject enum variant args r, t => do
    match t.enums.get? enum with
    | none => cx.fail (.unknownEnum enum) r
    | some arms =>
      match arms.get? variant with
      | none => cx.fail (.noVariant enum variant) r
      | some payload =>
        let (args, t) ← cx.exprs scope args t
        if args.length ≠ payload.length then cx.fail (.argumentCount variant payload.length) r
        let (ty, t) ← cx.ofTypes r (t.enum enum none)
        return (.inject ty variant args (cx.span r), t)
  | .construct struct region fields r, t => do
    match t.structs.get? struct with
    | none => cx.fail (.unknownStruct struct) r
    | some layout =>
      let (fields, t) ← cx.fieldInits scope struct layout fields t
      unless (missing layout fields).isEmpty do
        cx.fail (.missingFields (missing layout fields) struct) r
      let (ty, t) ← cx.ofTypes r (t.struct struct region)
      return (.construct ty fields (cx.span r), t)

def exprs (cx : ReadContext) (scope : Scope) :
    List Surface.Expr → TypeTable → Read (List Expr × TypeTable)
  | [], t => .ok ([], t)
  | e :: rest, t => do
    let (e, t) ← cx.expr scope e t
    let (rest, t) ← cx.exprs scope rest t
    return (e :: rest, t)

def fieldInits (cx : ReadContext) (scope : Scope) (struct : String)
    (layout : OrderedMap String TypeId) :
    List Surface.FieldInit → TypeTable → Read (List FieldInit × TypeTable)
  | [], t => .ok ([], t)
  | .mk name value r :: rest, t => do
    unless layout.contains name do cx.fail (.noField struct name) r
    let (value, t) ← cx.expr scope value t
    let (rest, t) ← cx.fieldInits scope struct layout rest t
    return (.mk name value :: rest, t)

end

abbrev Bindings := OrderedMap BindingId Binding

/-- The type of a part of a place, or an error about the type it is a part of. -/
def partType (cx : ReadContext) (r : Surface.Range) (t : TypeTable) (base : TypeId)
    (part : Except TypeFault (Option TypeId)) : Read (TypeId × TypeTable) := do
  match ← cx.ofTypes r part with
  | some ty => return (ty, t)
  | none => cx.fail (.illTyped (← cx.ofTypes r (t.describe (some base)))) r

/-- The type of an expression, enough to give an unannotated declaration its type. -/
def typeOf (cx : ReadContext) (bindings : Bindings) (r : Surface.Range) :
    Expr → TypeTable → Read (TypeId × TypeTable)
  | .var _ id _, t =>
    match bindings.get? id with
    | some b => .ok (b.ty, t)
    | none => cx.fail (.cannotInfer "TVar") r
  | .field subject name _, t => do
    let (base, t) ← cx.typeOf bindings r subject t
    cx.partType r t base (t.fieldType base name)
  | .index subject _ _, t => do
    let (base, t) ← cx.typeOf bindings r subject t
    cx.partType r t base (t.elementType base)
  | .deref subject _, t => do
    let (base, t) ← cx.typeOf bindings r subject t
    cx.partType r t base (t.pointee base)
  | .payload subject variant field _, t => do
    let (base, t) ← cx.typeOf bindings r subject t
    cx.partType r t base (t.payloadType base variant field)
  | .borrow subject mutable _, t => do
    let (target, t) ← cx.typeOf bindings r subject t
    return t.ref target mutable none
  | .int _ _, t => .ok t.int
  | .bool _ _, t => .ok t.bool
  | .unit _, t => .ok t.unit
  | .unary op _ _, t => .ok (if op = .not then t.bool else t.int)
  | .binary op _ _ _, t => .ok (if op.isLogical then t.bool else t.int)
  | .call callee _ _, t =>
    match cx.signatures.find? (·.name = callee) with
    | none => .ok t.unknown
    | some s => .ok (s.ret.elim t.unit fun ty => (ty, t))
  | .construct ty _ _, t => .ok (ty, t)
  | .inject ty _ _ _, t => .ok (ty, t)
  | .foreign, _ => cx.fail (.cannotInfer "TExpr") r

end ReadContext

end Ownership
