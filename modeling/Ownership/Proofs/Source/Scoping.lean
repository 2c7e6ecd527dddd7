import Mathlib.Data.List.Forall2
import Ownership.Proofs.Graph.Scopes
import Ownership.Proofs.Source.Reading

/-!
Lexical scoping of the reader. What is in sight at a position of a body is a
stack of frames, one for each scope around it. A resolved body is the written
one, with every variable bound to the innermost declaration of its name in
sight; a declaration comes into sight behind itself only. The bindings that a
body makes get ids one after the other, so none is made twice.
-/
namespace Ownership

open Outcome

/-- The declarations in sight, scope by scope; inner scopes and later declarations come first. -/
abbrev Frames := List ReadContext.Scope

namespace Frames

/-- The innermost declaration of a name. -/
def find? (fs : Frames) (name : String) : Option BindingId := fs.findSome? (·.lookup name)

/-- A scope with these declarations, made in this order. -/
def frame (bindings : List (BindingId × String)) : ReadContext.Scope := (bindings.map Prod.swap).reverse

/-- The innermost scope gets more declarations. -/
def declare (fs : Frames) (bindings : List (BindingId × String)) : Frames :=
  (frame bindings ++ fs.headD []) :: fs.tail

def ids (fs : Frames) : List BindingId := fs.flatten.map Prod.snd

/-- Searching the frames one by one is searching all declarations, the latest first. -/
theorem lookup_flatten (fs : Frames) (name : String) : fs.flatten.lookup name = fs.find? name := by
  unfold find?
  induction fs with
  | nil => rfl
  | cons f fs ih =>
    rw [List.flatten_cons, List.lookup_append, List.findSome?_cons, ih]
    cases f.lookup name <;> rfl

theorem scopeWith_eq (scope : ReadContext.Scope) (bindings : List (BindingId × String)) :
    ReadContext.scopeWith scope bindings = frame bindings ++ scope := by
  unfold ReadContext.scopeWith frame
  induction bindings generalizing scope with
  | nil => rfl
  | cons b bindings ih =>
    rw [List.foldl_cons, ih, List.map_cons, List.reverse_cons, List.append_assoc]
    rfl

@[simp] theorem flatten_declare (fs : Frames) (bindings : List (BindingId × String)) :
    (fs.declare bindings).flatten = ReadContext.scopeWith fs.flatten bindings := by
  rw [scopeWith_eq, declare]
  cases fs <;> simp

theorem mem_ids_of_find? {fs : Frames} {name : String} {id : BindingId} (h : fs.find? name = some id) :
    id ∈ fs.ids := by
  rw [← lookup_flatten] at h
  obtain ⟨before, after, heq, _⟩ := List.lookup_eq_some_iff.mp h
  exact List.mem_map.mpr ⟨(name, id), by simp [heq], rfl⟩

theorem ids_declare (fs : Frames) (bindings : List (BindingId × String)) :
    (fs.declare bindings).ids = (bindings.map Prod.fst).reverse ++ fs.ids := by
  rw [ids, flatten_declare, scopeWith_eq, List.map_append, frame, List.map_reverse, List.map_map]
  rfl

end Frames

namespace Surface

mutual

/-- The expression is the written one, with each variable bound to the innermost declaration of
its name in sight. -/
inductive Expr.Resolves (fs : Frames) : Surface.Expr → Ownership.Expr → Prop where
  | int {digits : String} {r : Range} {loc : Span} :
      Expr.Resolves fs (.int digits r) (.int (ReadContext.digitsValue digits) loc)
  | bool {value : Bool} {r : Range} {loc : Span} : Expr.Resolves fs (.bool value r) (.bool value loc)
  | unit {r : Range} {loc : Span} : Expr.Resolves fs (.unit r) (.unit loc)
  | var {name : String} {id : BindingId} {r : Range} {loc : Span} (h : fs.find? name = some id) :
      Expr.Resolves fs (.var name r) (.var name id loc)
  | field {e : Surface.Expr} {e' : Ownership.Expr} {name : String} {r : Range} {loc : Span}
      (h : Expr.Resolves fs e e') : Expr.Resolves fs (.field e name r) (.field e' name loc)
  | index {e i : Surface.Expr} {e' i' : Ownership.Expr} {r : Range} {loc : Span} (h : Expr.Resolves fs e e')
      (hi : Expr.Resolves fs i i') : Expr.Resolves fs (.index e i r) (.index e' i' loc)
  | deref {e : Surface.Expr} {e' : Ownership.Expr} {r : Range} {loc : Span} (h : Expr.Resolves fs e e') :
      Expr.Resolves fs (.deref e r) (.deref e' loc)
  | borrow {e : Surface.Expr} {e' : Ownership.Expr} {mutable : Bool} {r : Range} {loc : Span}
      (h : Expr.Resolves fs e e') : Expr.Resolves fs (.borrow e mutable r) (.borrow e' mutable loc)
  | unary {op : UnaryOp} {e : Surface.Expr} {e' : Ownership.Expr} {r : Range} {loc : Span}
      (h : Expr.Resolves fs e e') : Expr.Resolves fs (.unary op e r) (.unary op e' loc)
  | binary {op : BinaryOp} {a b : Surface.Expr} {a' b' : Ownership.Expr} {r : Range} {loc : Span}
      (ha : Expr.Resolves fs a a') (hb : Expr.Resolves fs b b') :
      Expr.Resolves fs (.binary op a b r) (.binary op a' b' loc)
  | call {callee : String} {args : List Surface.Expr} {args' : List Ownership.Expr} {r : Range} {loc : Span}
      (h : Expr.ResolvesAll fs args args') : Expr.Resolves fs (.call callee args r) (.call callee args' loc)
  | inject {enum variant : String} {ty : TypeId} {args : List Surface.Expr} {args' : List Ownership.Expr}
      {r : Range} {loc : Span} (h : Expr.ResolvesAll fs args args') :
      Expr.Resolves fs (.inject enum variant args r) (.inject ty variant args' loc)
  | construct {struct : String} {region : Option String} {ty : TypeId} {fields : List Surface.FieldInit}
      {fields' : List Ownership.FieldInit} {r : Range} {loc : Span} (h : FieldInit.ResolvesAll fs fields fields') :
      Expr.Resolves fs (.construct struct region fields r) (.construct ty fields' loc)

inductive Expr.ResolvesAll (fs : Frames) : List Surface.Expr → List Ownership.Expr → Prop where
  | nil : Expr.ResolvesAll fs [] []
  | cons {e : Surface.Expr} {e' : Ownership.Expr} {es : List Surface.Expr} {es' : List Ownership.Expr}
      (h : Expr.Resolves fs e e') (hrest : Expr.ResolvesAll fs es es') : Expr.ResolvesAll fs (e :: es) (e' :: es')

inductive FieldInit.ResolvesAll (fs : Frames) : List Surface.FieldInit → List Ownership.FieldInit → Prop where
  | nil : FieldInit.ResolvesAll fs [] []
  | cons {name : String} {r : Range} {e : Surface.Expr} {e' : Ownership.Expr} {es : List Surface.FieldInit}
      {es' : List Ownership.FieldInit} (h : Expr.Resolves fs e e') (hrest : FieldInit.ResolvesAll fs es es') :
      FieldInit.ResolvesAll fs (.mk name e r :: es) (.mk name e' :: es')

end

inductive Expr.ResolvesOptional (fs : Frames) : Option Surface.Expr → Option Ownership.Expr → Prop where
  | none : Expr.ResolvesOptional fs none none
  | some {e : Surface.Expr} {e' : Ownership.Expr} (h : Expr.Resolves fs e e') :
      Expr.ResolvesOptional fs (some e) (some e')

mutual

/-- The statement is the written one, with each variable bound to the innermost declaration of its
name in sight. A declared name is not in sight of its own value. -/
inductive Stmt.Resolves : Frames → Surface.Stmt → Ownership.Stmt → Prop where
  | declare {fs : Frames} {name : String} {id : BindingId} {ty : Option Ty} {value : Option Surface.Expr}
      {value' : Option Ownership.Expr} {r : Range} {loc : Span} (h : Expr.ResolvesOptional fs value value') :
      Stmt.Resolves fs (.declare name ty value r) (.declare name id value' loc)
  | assign {fs : Frames} {target value : Surface.Expr} {target' value' : Ownership.Expr} {r : Range} {loc : Span}
      (ht : Expr.Resolves fs target target') (hv : Expr.Resolves fs value value') :
      Stmt.Resolves fs (.assign target value r) (.assign target' value' loc)
  | eval {fs : Frames} {e : Surface.Expr} {e' : Ownership.Expr} {r : Range} {loc : Span}
      (h : Expr.Resolves fs e e') : Stmt.Resolves fs (.eval e r) (.eval e' loc)
  | branch {fs : Frames} {b : Branch} {s : Ownership.Stmt} (h : Branch.Resolves fs b s) :
      Stmt.Resolves fs (.branch b) s
  | loop {fs : Frames} {body : Surface.Block} {body' : Ownership.Block} {r : Range} {loc : Span}
      (h : Block.Resolves fs body body') : Stmt.Resolves fs (.loop body r) (.loop body' loc)
  | whileLoop {fs : Frames} {cond : Surface.Expr} {cond' : Ownership.Expr} {body : Surface.Block}
      {body' : Ownership.Block} {r : Range} {loc : Span} (hc : Expr.Resolves fs cond cond')
      (h : Block.Resolves fs body body') : Stmt.Resolves fs (.whileLoop cond body r)
        (.loop (.mk [.branch cond' body' (some (.mk [.breakLoop loc] loc)) loc] loc) loc)
  | breakLoop {fs : Frames} {r : Range} {loc : Span} : Stmt.Resolves fs (.breakLoop r) (.breakLoop loc)
  | continueLoop {fs : Frames} {r : Range} {loc : Span} : Stmt.Resolves fs (.continueLoop r) (.continueLoop loc)
  | ret {fs : Frames} {value : Option Surface.Expr} {value' : Option Ownership.Expr} {r : Range} {loc : Span}
      (h : Expr.ResolvesOptional fs value value') : Stmt.Resolves fs (.ret value r) (.ret value' loc)
  | select {fs : Frames} {e : Surface.Expr} {e' : Ownership.Expr} {arms : List Surface.Arm}
      {arms' : List Ownership.Arm} {r : Range} {loc : Span} (h : Expr.Resolves fs e e')
      (harms : Arm.ResolvesAll fs arms arms') : Stmt.Resolves fs (.select e arms r) (.select e' arms' loc)
  | block {fs : Frames} {body : Surface.Block} {body' : Ownership.Block} (h : Block.Resolves fs body body') :
      Stmt.Resolves fs (.block body) (.block body')

inductive Stmt.ResolvesAll : Frames → List Surface.Stmt → List Ownership.Stmt → Prop where
  | nil {fs : Frames} : Stmt.ResolvesAll fs [] []
  | cons {fs : Frames} {s : Surface.Stmt} {s' : Ownership.Stmt} {ss : List Surface.Stmt} {ss' : List Ownership.Stmt}
      (h : Stmt.Resolves fs s s') (hrest : Stmt.ResolvesAll (fs.declare s'.declared) ss ss') :
      Stmt.ResolvesAll fs (s :: ss) (s' :: ss')

/-- A block is a scope of its own. -/
inductive Block.Resolves : Frames → Surface.Block → Ownership.Block → Prop where
  | mk {fs : Frames} {ss : List Surface.Stmt} {ss' : List Ownership.Stmt} {r : Range} {loc : Span}
      (h : Stmt.ResolvesAll ([] :: fs) ss ss') : Block.Resolves fs (.mk ss r) (.mk ss' loc)

inductive Branch.Resolves : Frames → Branch → Ownership.Stmt → Prop where
  | mk {fs : Frames} {cond : Surface.Expr} {cond' : Ownership.Expr} {yes : Surface.Block} {yes' : Ownership.Block}
      {no : Alternative} {no' : Option Ownership.Block} {r : Range} {loc : Span} (hc : Expr.Resolves fs cond cond')
      (hy : Block.Resolves fs yes yes') (hn : Alternative.Resolves fs no no') :
      Branch.Resolves fs (.mk cond yes no r) (.branch cond' yes' no' loc)

inductive Alternative.Resolves : Frames → Alternative → Option Ownership.Block → Prop where
  | nothing {fs : Frames} : Alternative.Resolves fs .nothing none
  | block {fs : Frames} {body : Surface.Block} {body' : Ownership.Block} (h : Block.Resolves fs body body') :
      Alternative.Resolves fs (.block body) (some body')
  | branch {fs : Frames} {b : Branch} {s : Ownership.Stmt} {loc : Span} (h : Branch.Resolves fs b s) :
      Alternative.Resolves fs (.branch b) (some (.mk [s] loc))

/-- What the pattern of an arm binds is in sight of its body. -/
inductive Arm.ResolvesAll : Frames → List Surface.Arm → List Ownership.Arm → Prop where
  | nil {fs : Frames} : Arm.ResolvesAll fs [] []
  | cons {fs : Frames} {p : Pattern} {variant : Option String} {bindings : List PayloadBinding}
      {body : Surface.Block} {body' : Ownership.Block} {r : Range} {loc : Span} {arms : List Surface.Arm}
      {arms' : List Ownership.Arm} (hnames : bindings.map (·.name) = p.names)
      (h : Block.Resolves (Frames.frame (bindings.map fun b => (b.id, b.name)) :: fs) body body')
      (hrest : Arm.ResolvesAll fs arms arms') :
      Arm.ResolvesAll fs (.mk p body r :: arms) (.mk variant body' bindings loc :: arms')

end

end Surface

namespace ReadContext

variable {cx : ReadContext}

mutual

theorem expr_resolves : ∀ (e : Surface.Expr) {fs : Frames} {t u : TypeTable} {out : Expr},
    cx.expr fs.flatten e t = .ok (out, u) → e.Resolves fs out
  | .int digits r, fs, t, u, out, h => by
    unfold expr at h
    split at h
    · obtain ⟨rfl, _⟩ := Prod.mk.inj (Except.ok.inj h)
      exact .int
    · cases h
  | .bool value r, fs, t, u, out, h => by
    obtain ⟨rfl, _⟩ := Prod.mk.inj (Except.ok.inj h)
    exact .bool
  | .unit r, fs, t, u, out, h => by
    obtain ⟨rfl, _⟩ := Prod.mk.inj (Except.ok.inj h)
    exact .unit
  | .var name r, fs, t, u, out, h => by
    unfold expr at h
    rw [Frames.lookup_flatten] at h
    split at h
    · rename_i id hid
      obtain ⟨rfl, _⟩ := Prod.mk.inj (Except.ok.inj h)
      exact .var hid
    · cases h
  | .field e name r, fs, t, u, out, h => by
    simp only [expr, bind_eq_ok, pure_eq, Except.ok.injEq, Prod.mk.injEq] at h
    obtain ⟨⟨_, v⟩, hv, rfl, _⟩ := h
    exact .field (expr_resolves e hv)
  | .index e i r, fs, t, u, out, h => by
    simp only [expr, bind_eq_ok, pure_eq, Except.ok.injEq, Prod.mk.injEq] at h
    obtain ⟨⟨_, v⟩, hv, ⟨_, w⟩, hw, rfl, _⟩ := h
    exact .index (expr_resolves e hv) (expr_resolves i hw)
  | .deref e r, fs, t, u, out, h => by
    simp only [expr, bind_eq_ok, pure_eq, Except.ok.injEq, Prod.mk.injEq] at h
    obtain ⟨⟨_, v⟩, hv, rfl, _⟩ := h
    exact .deref (expr_resolves e hv)
  | .borrow e mutable r, fs, t, u, out, h => by
    simp only [expr, bind_eq_ok] at h
    obtain ⟨⟨_, v⟩, hv, h⟩ := h
    split at h
    · obtain ⟨rfl, _⟩ := Prod.mk.inj (Except.ok.inj h)
      exact .borrow (expr_resolves e hv)
    · cases h
  | .unary op e r, fs, t, u, out, h => by
    simp only [expr, bind_eq_ok, pure_eq, Except.ok.injEq, Prod.mk.injEq] at h
    obtain ⟨⟨_, v⟩, hv, rfl, _⟩ := h
    exact .unary (expr_resolves e hv)
  | .binary op a b r, fs, t, u, out, h => by
    simp only [expr, bind_eq_ok, pure_eq, Except.ok.injEq, Prod.mk.injEq] at h
    obtain ⟨⟨_, v⟩, hv, ⟨_, w⟩, hw, rfl, _⟩ := h
    exact .binary (expr_resolves a hv) (expr_resolves b hw)
  | .call callee args r, fs, t, u, out, h => by
    simp only [expr, bind_eq_ok, pure_eq, Except.ok.injEq, Prod.mk.injEq] at h
    obtain ⟨⟨_, v⟩, hv, rfl, _⟩ := h
    exact .call (exprs_resolves args hv)
  | .inject enum variant args r, fs, t, u, out, h => by
    unfold expr at h
    split at h
    · cases h
    split at h
    · cases h
    simp only [bind_eq_ok] at h
    obtain ⟨⟨_, v⟩, hv, h⟩ := h
    split at h
    · cases h
    simp only [bind_eq_ok, pure_eq, Except.ok.injEq, Prod.mk.injEq] at h
    obtain ⟨⟨_, w⟩, _, rfl, _⟩ := h
    exact .inject (exprs_resolves args hv)
  | .construct struct region fields r, fs, t, u, out, h => by
    unfold expr at h
    split at h
    · cases h
    simp only [bind_eq_ok] at h
    obtain ⟨⟨_, v⟩, hv, h⟩ := h
    split at h
    · simp only [bind_eq_ok, pure_eq, Except.ok.injEq, Prod.mk.injEq] at h
      obtain ⟨⟨_, w⟩, _, rfl, _⟩ := h
      exact .construct (fieldInits_resolves fields hv)
    · cases h

theorem exprs_resolves : ∀ (es : List Surface.Expr) {fs : Frames} {t u : TypeTable} {out : List Expr},
    cx.exprs fs.flatten es t = .ok (out, u) → Surface.Expr.ResolvesAll fs es out
  | [], fs, t, u, out, h => by
    obtain ⟨rfl, _⟩ := Prod.mk.inj (Except.ok.inj h)
    exact .nil
  | e :: rest, fs, t, u, out, h => by
    simp only [exprs, bind_eq_ok, pure_eq, Except.ok.injEq, Prod.mk.injEq] at h
    obtain ⟨⟨_, v⟩, hv, ⟨_, w⟩, hw, rfl, _⟩ := h
    exact .cons (expr_resolves e hv) (exprs_resolves rest hw)

theorem fieldInits_resolves : ∀ (fields : List Surface.FieldInit) {fs : Frames} {struct : String}
    {layout : OrderedMap String TypeId} {t u : TypeTable} {out : List FieldInit},
    cx.fieldInits fs.flatten struct layout fields t = .ok (out, u) →
    Surface.FieldInit.ResolvesAll fs fields out
  | [], fs, struct, layout, t, u, out, h => by
    obtain ⟨rfl, _⟩ := Prod.mk.inj (Except.ok.inj h)
    exact .nil
  | .mk name value range :: rest, fs, struct, layout, t, u, out, h => by
    unfold fieldInits at h
    split at h
    · simp only [bind_eq_ok, pure_eq, Except.ok.injEq, Prod.mk.injEq] at h
      obtain ⟨⟨_, v⟩, hv, ⟨_, w⟩, hw, rfl, _⟩ := h
      exact .cons (expr_resolves value hv) (fieldInits_resolves rest hw)
    · cases h

end

theorem stateExpr_resolves {fs : Frames} {e : Surface.Expr} {s s' : BodyState} {out : Expr}
    (h : cx.stateExpr fs.flatten e s = .ok (out, s')) : e.Resolves fs out := by
  simp only [stateExpr, map_eq_ok] at h
  obtain ⟨⟨_, t⟩, ht, h⟩ := h
  obtain ⟨rfl, _⟩ := Prod.mk.inj h
  exact expr_resolves e ht

theorem optionalExpr_resolves {fs : Frames} {e : Option Surface.Expr} {s s' : BodyState} {out : Option Expr}
    (h : cx.optionalExpr fs.flatten e s = .ok (out, s')) : Surface.Expr.ResolvesOptional fs e out := by
  cases e with
  | none =>
    obtain ⟨rfl, _⟩ := Prod.mk.inj (Except.ok.inj h)
    exact .none
  | some e =>
    simp only [optionalExpr, map_eq_ok] at h
    obtain ⟨⟨_, s₁⟩, hs, h⟩ := h
    obtain ⟨rfl, _⟩ := Prod.mk.inj h
    exact .some (stateExpr_resolves hs)

/-- A pattern with as many fields as the payload binds just the names that it holds. -/
theorem payloadBindings_names (cx : ReadContext) (i : Nat) (fields : List Surface.SubPattern)
    (payload : List TypeId) (s : BodyState) (h : fields.length = payload.length) :
    (cx.payloadBindings i fields payload s).1.map (·.name) = fields.filterMap fun
      | .skip => none
      | .bind _ _ name _ => some name := by
  induction fields generalizing i payload s with
  | nil => rfl
  | cons field fields ih =>
    cases payload with
    | nil => simp at h
    | cons ty payload =>
      have hlength : fields.length = payload.length := by simpa using h
      cases field with
      | skip => exact ih (i + 1) payload s hlength
      | bind byRef mutable name r =>
        simp only [payloadBindings, List.map_cons, List.filterMap_cons]
        rw [ih (i + 1) payload _ hlength]

theorem pattern_names {enum : String} {arms : OrderedMap String (List TypeId)} {p : Surface.Pattern}
    {s s' : BodyState} {variant : Option String} {bindings : List PayloadBinding}
    (h : cx.pattern enum arms p s = .ok ((variant, bindings), s')) : bindings.map (·.name) = p.names := by
  cases p with
  | wildcard =>
    obtain ⟨hout, _⟩ := Prod.mk.inj (Except.ok.inj h)
    obtain ⟨_, rfl⟩ := Prod.mk.inj hout
    rfl
  | variant written name fields r =>
    have hbinds : ∀ payload : List TypeId, ¬(!fields.isEmpty && fields.length ≠ payload.length) = true →
        (cx.payloadBindings 0 fields payload s).1.map (·.name) =
          (Surface.Pattern.variant written name fields r).names := by
      intro payload hlength
      cases fields with
      | nil => rfl
      | cons field fields => exact cx.payloadBindings_names 0 _ payload s (by simpa using hlength)
    simp only [pattern] at h
    split at h
    all_goals
      repeat
        split at h
        · cases h
      obtain ⟨hout, _⟩ := Prod.mk.inj (Except.ok.inj h)
      obtain ⟨_, rfl⟩ := Prod.mk.inj hout
      exact hbinds _ ‹_›

mutual

theorem stmt_resolves : ∀ (x : Surface.Stmt) {fs : Frames} {s s' : BodyState} {out : Stmt},
    cx.stmt fs.flatten x s = .ok (out, s') → x.Resolves fs out
  | .declare name ty value r, fs, s, s', out, h => by
    simp only [stmt, declaration, bind_eq_ok, pure_eq, Except.ok.injEq, Prod.mk.injEq] at h
    obtain ⟨⟨_, s₁⟩, _, ⟨_, s₂⟩, h₂, ⟨_, s₃⟩, _, rfl, _⟩ := h
    exact .declare (optionalExpr_resolves h₂)
  | .assign target value r, fs, s, s', out, h => by
    simp only [stmt, bind_eq_ok] at h
    obtain ⟨⟨_, s₁⟩, h₁, h⟩ := h
    split at h
    · simp only [bind_eq_ok, pure_eq, Except.ok.injEq, Prod.mk.injEq] at h
      obtain ⟨⟨_, s₂⟩, h₂, rfl, _⟩ := h
      exact .assign (stateExpr_resolves h₁) (stateExpr_resolves h₂)
    · cases h
  | .eval e r, fs, s, s', out, h => by
    simp only [stmt, bind_eq_ok, pure_eq, Except.ok.injEq, Prod.mk.injEq] at h
    obtain ⟨⟨_, s₁⟩, h₁, rfl, _⟩ := h
    exact .eval (stateExpr_resolves h₁)
  | .branch b, fs, s, s', out, h => by
    simp only [stmt] at h
    exact .branch (branch_resolves b h)
  | .loop body r, fs, s, s', out, h => by
    simp only [stmt, bind_eq_ok, pure_eq, Except.ok.injEq, Prod.mk.injEq] at h
    obtain ⟨⟨_, s₁⟩, h₁, rfl, _⟩ := h
    exact .loop (block_resolves body h₁)
  | .block body, fs, s, s', out, h => by
    simp only [stmt, bind_eq_ok, pure_eq, Except.ok.injEq, Prod.mk.injEq] at h
    obtain ⟨⟨_, s₁⟩, h₁, rfl, _⟩ := h
    exact .block (block_resolves body h₁)
  | .whileLoop cond body r, fs, s, s', out, h => by
    simp only [stmt, bind_eq_ok, pure_eq, Except.ok.injEq, Prod.mk.injEq] at h
    obtain ⟨⟨_, s₁⟩, h₁, ⟨_, s₂⟩, h₂, rfl, _⟩ := h
    exact .whileLoop (stateExpr_resolves h₁) (block_resolves body h₂)
  | .breakLoop r, fs, s, s', out, h => by
    obtain ⟨rfl, _⟩ := Prod.mk.inj (Except.ok.inj h)
    exact .breakLoop
  | .continueLoop r, fs, s, s', out, h => by
    obtain ⟨rfl, _⟩ := Prod.mk.inj (Except.ok.inj h)
    exact .continueLoop
  | .ret value r, fs, s, s', out, h => by
    simp only [stmt, bind_eq_ok, pure_eq, Except.ok.injEq, Prod.mk.injEq] at h
    obtain ⟨⟨_, s₁⟩, h₁, rfl, _⟩ := h
    exact .ret (optionalExpr_resolves h₁)
  | .select scrutinee arms r, fs, s, s', out, h => by
    simp only [stmt, bind_eq_ok, pure_eq, Except.ok.injEq, Prod.mk.injEq] at h
    obtain ⟨⟨_, s₁⟩, h₁, ⟨_, s₂⟩, _, ⟨_, s₃⟩, h₃, rfl, _⟩ := h
    exact .select (stateExpr_resolves h₁) (arms_resolves arms h₃)

theorem stmts_resolves : ∀ (xs : List Surface.Stmt) {fs : Frames} {s s' : BodyState} {out : List Stmt},
    cx.stmts fs.flatten xs s = .ok (out, s') → Surface.Stmt.ResolvesAll fs xs out
  | [], fs, s, s', out, h => by
    obtain ⟨rfl, _⟩ := Prod.mk.inj (Except.ok.inj h)
    exact .nil
  | x :: rest, fs, s, s', out, h => by
    simp only [stmts, bind_eq_ok, pure_eq, Except.ok.injEq, Prod.mk.injEq] at h
    obtain ⟨⟨x', s₁⟩, h₁, ⟨_, s₂⟩, h₂, rfl, _⟩ := h
    rw [← Frames.flatten_declare] at h₂
    exact .cons (stmt_resolves x h₁) (stmts_resolves rest h₂)

theorem block_resolves : ∀ (body : Surface.Block) {fs : Frames} {s s' : BodyState} {out : Block},
    cx.block fs.flatten body s = .ok (out, s') → body.Resolves fs out
  | .mk statements r, fs, s, s', out, h => by
    simp only [block, bind_eq_ok, pure_eq, Except.ok.injEq, Prod.mk.injEq] at h
    obtain ⟨⟨_, s₁⟩, h₁, rfl, _⟩ := h
    exact .mk (stmts_resolves statements h₁)

theorem branch_resolves : ∀ (b : Surface.Branch) {fs : Frames} {s s' : BodyState} {out : Stmt},
    cx.branch fs.flatten b s = .ok (out, s') → b.Resolves fs out
  | .mk cond yes no r, fs, s, s', out, h => by
    simp only [branch, bind_eq_ok, pure_eq, Except.ok.injEq, Prod.mk.injEq] at h
    obtain ⟨⟨_, s₁⟩, h₁, ⟨_, s₂⟩, h₂, ⟨_, s₃⟩, h₃, rfl, _⟩ := h
    exact .mk (stateExpr_resolves h₁) (block_resolves yes h₂) (alternative_resolves no h₃)

theorem alternative_resolves : ∀ (a : Surface.Alternative) {fs : Frames} {s s' : BodyState}
    {out : Option Block}, cx.alternative fs.flatten a s = .ok (out, s') → a.Resolves fs out
  | .nothing, fs, s, s', out, h => by
    obtain ⟨rfl, _⟩ := Prod.mk.inj (Except.ok.inj h)
    exact .nothing
  | .block body, fs, s, s', out, h => by
    simp only [alternative, bind_eq_ok, pure_eq, Except.ok.injEq, Prod.mk.injEq] at h
    obtain ⟨⟨_, s₁⟩, h₁, rfl, _⟩ := h
    exact .block (block_resolves body h₁)
  | .branch b, fs, s, s', out, h => by
    simp only [alternative, bind_eq_ok, pure_eq, Except.ok.injEq, Prod.mk.injEq] at h
    obtain ⟨⟨_, s₁⟩, h₁, rfl, _⟩ := h
    exact .branch (branch_resolves b h₁)

theorem arms_resolves : ∀ (as : List Surface.Arm) {fs : Frames} {enum : String}
    {layout : OrderedMap String (List TypeId)} {s s' : BodyState} {out : List Arm},
    cx.arms fs.flatten enum layout as s = .ok (out, s') → Surface.Arm.ResolvesAll fs as out
  | [], fs, enum, layout, s, s', out, h => by
    obtain ⟨rfl, _⟩ := Prod.mk.inj (Except.ok.inj h)
    exact .nil
  | .mk p body r :: rest, fs, enum, layout, s, s', out, h => by
    simp only [arms, bind_eq_ok, pure_eq, Except.ok.injEq, Prod.mk.injEq] at h
    obtain ⟨⟨⟨variant, bindings⟩, s₁⟩, h₁, ⟨_, s₂⟩, h₂, ⟨_, s₃⟩, h₃, rfl, _⟩ := h
    rw [Frames.scopeWith_eq, ← List.flatten_cons] at h₂
    exact .cons (pattern_names h₁) (block_resolves body h₂) (arms_resolves rest h₃)

end

/-- The ids are given out one after the other, from the first one on up to the second. -/
def Numbered : BindingId → List BindingId → BindingId → Prop
  | lo, [], hi => lo = hi
  | lo, id :: ids, hi => id = lo ∧ Numbered (lo + 1) ids hi

namespace Numbered

variable {lo mid hi : BindingId} {a b : List BindingId}

theorem append (h : Numbered lo a mid) (k : Numbered mid b hi) : Numbered lo (a ++ b) hi := by
  induction a generalizing lo with
  | nil =>
    obtain rfl : lo = mid := h
    exact k
  | cons id a ih => exact ⟨h.1, ih h.2⟩

theorem le_of_mem (h : Numbered lo a hi) {id : BindingId} (hid : id ∈ a) : lo ≤ id := by
  induction a generalizing lo with
  | nil => cases hid
  | cons first a ih =>
    obtain ⟨rfl, hrest⟩ := h
    rcases List.mem_cons.mp hid with rfl | hid
    · exact Int.le_refl _
    · exact Int.le_trans (Int.le_of_lt (Int.lt_succ _)) (ih hrest hid)

theorem nodup (h : Numbered lo a hi) : a.Nodup := by
  induction a generalizing lo with
  | nil => exact List.nodup_nil
  | cons first a ih =>
    obtain ⟨rfl, hrest⟩ := h
    exact List.nodup_cons.mpr ⟨fun hmem => Int.not_le.mpr (Int.lt_succ _) (hrest.le_of_mem hmem), ih hrest⟩

end Numbered

theorem payloadBindings_numbered (cx : ReadContext) (i : Nat) (fields : List Surface.SubPattern)
    (payload : List TypeId) (s : BodyState) :
    Numbered s.next ((cx.payloadBindings i fields payload s).1.map (·.id))
      (cx.payloadBindings i fields payload s).2.next := by
  induction fields generalizing i payload s with
  | nil => rfl
  | cons field fields ih =>
    cases payload with
    | nil => cases field <;> rfl
    | cons ty payload =>
      cases field with
      | skip => exact ih (i + 1) payload s
      | bind byRef mutable name r =>
        simp only [payloadBindings, List.map_cons]
        generalize (if byRef = true then s.types.ref ty mutable none else (ty, s.types)) = x
        exact ⟨rfl, ih (i + 1) payload ({ s with types := x.2 }.declare name x.1 .localVar (cx.span r)).2⟩

theorem pattern_numbered {enum : String} {arms : OrderedMap String (List TypeId)} {p : Surface.Pattern}
    {s s' : BodyState} {variant : Option String} {bindings : List PayloadBinding}
    (h : cx.pattern enum arms p s = .ok ((variant, bindings), s')) :
    Numbered s.next (bindings.map (·.id)) s'.next := by
  cases p with
  | wildcard =>
    obtain ⟨hout, rfl⟩ := Prod.mk.inj (Except.ok.inj h)
    obtain ⟨_, rfl⟩ := Prod.mk.inj hout
    rfl
  | variant written name fields r =>
    simp only [pattern] at h
    split at h
    all_goals
      repeat
        split at h
        · cases h
      obtain ⟨hout, rfl⟩ := Prod.mk.inj (Except.ok.inj h)
      obtain ⟨_, rfl⟩ := Prod.mk.inj hout
      exact cx.payloadBindings_numbered 0 fields _ s

mutual

theorem stmt_numbered : ∀ (x : Surface.Stmt) {scope : Scope} {s s' : BodyState} {out : Stmt},
    cx.stmt scope x s = .ok (out, s') → Numbered s.next out.binds s'.next
  | .declare name ty value r, scope, s, s', out, h => by
    simp only [stmt, declaration, bind_eq_ok, pure_eq, Except.ok.injEq, Prod.mk.injEq] at h
    obtain ⟨⟨_, s₁⟩, h₁, ⟨_, s₂⟩, h₂, ⟨_, s₃⟩, h₃, rfl, rfl⟩ := h
    rw [(optionalType_retypes h₁).next, (optionalExpr_retypes h₂).next, (declaredType_retypes h₃).next, Stmt.binds]
    exact ⟨rfl, rfl⟩
  | .assign target value r, scope, s, s', out, h => by
    simp only [stmt, bind_eq_ok] at h
    obtain ⟨⟨_, s₁⟩, h₁, h⟩ := h
    split at h
    · simp only [bind_eq_ok, pure_eq, Except.ok.injEq, Prod.mk.injEq] at h
      obtain ⟨⟨_, s₂⟩, h₂, rfl, rfl⟩ := h
      exact (stateExpr_retypes h₁).next.trans (stateExpr_retypes h₂).next
    · cases h
  | .eval e r, scope, s, s', out, h => by
    simp only [stmt, bind_eq_ok, pure_eq, Except.ok.injEq, Prod.mk.injEq] at h
    obtain ⟨⟨_, s₁⟩, h₁, rfl, rfl⟩ := h
    exact (stateExpr_retypes h₁).next
  | .branch b, scope, s, s', out, h => by
    simp only [stmt] at h
    exact branch_numbered b h
  | .loop body r, scope, s, s', out, h | .block body, scope, s, s', out, h => by
    simp only [stmt, bind_eq_ok, pure_eq, Except.ok.injEq, Prod.mk.injEq] at h
    obtain ⟨⟨_, s₁⟩, h₁, rfl, rfl⟩ := h
    rw [Stmt.binds]
    exact block_numbered body h₁
  | .whileLoop cond body r, scope, s, s', out, h => by
    simp only [stmt, bind_eq_ok, pure_eq, Except.ok.injEq, Prod.mk.injEq] at h
    obtain ⟨⟨_, s₁⟩, h₁, ⟨_, s₂⟩, h₂, rfl, rfl⟩ := h
    rw [(stateExpr_retypes h₁).next]
    simpa [Stmt.binds, Stmt.bindsAll, Block.binds, Block.bindsOptional] using block_numbered body h₂
  | .breakLoop r, scope, s, s', out, h | .continueLoop r, scope, s, s', out, h => by
    obtain ⟨rfl, rfl⟩ := Prod.mk.inj (Except.ok.inj h)
    rfl
  | .ret value r, scope, s, s', out, h => by
    simp only [stmt, bind_eq_ok, pure_eq, Except.ok.injEq, Prod.mk.injEq] at h
    obtain ⟨⟨_, s₁⟩, h₁, rfl, rfl⟩ := h
    exact (optionalExpr_retypes h₁).next
  | .select scrutinee arms r, scope, s, s', out, h => by
    simp only [stmt, bind_eq_ok, pure_eq, Except.ok.injEq, Prod.mk.injEq] at h
    obtain ⟨⟨_, s₁⟩, h₁, ⟨_, s₂⟩, h₂, ⟨_, s₃⟩, h₃, rfl, rfl⟩ := h
    rw [(stateExpr_retypes h₁).next, (matchedEnum_retypes h₂).next, Stmt.binds]
    exact arms_numbered arms h₃

theorem stmts_numbered : ∀ (xs : List Surface.Stmt) {scope : Scope} {s s' : BodyState} {out : List Stmt},
    cx.stmts scope xs s = .ok (out, s') → Numbered s.next (Stmt.bindsAll out) s'.next
  | [], scope, s, s', out, h => by
    obtain ⟨rfl, rfl⟩ := Prod.mk.inj (Except.ok.inj h)
    rfl
  | x :: rest, scope, s, s', out, h => by
    simp only [stmts, bind_eq_ok, pure_eq, Except.ok.injEq, Prod.mk.injEq] at h
    obtain ⟨⟨x', s₁⟩, h₁, ⟨_, s₂⟩, h₂, rfl, rfl⟩ := h
    rw [Stmt.bindsAll]
    exact (stmt_numbered x h₁).append (stmts_numbered rest h₂)

theorem block_numbered : ∀ (body : Surface.Block) {scope : Scope} {s s' : BodyState} {out : Block},
    cx.block scope body s = .ok (out, s') → Numbered s.next out.binds s'.next
  | .mk statements r, scope, s, s', out, h => by
    simp only [block, bind_eq_ok, pure_eq, Except.ok.injEq, Prod.mk.injEq] at h
    obtain ⟨⟨_, s₁⟩, h₁, rfl, rfl⟩ := h
    rw [Block.binds]
    exact stmts_numbered statements h₁

theorem branch_numbered : ∀ (b : Surface.Branch) {scope : Scope} {s s' : BodyState} {out : Stmt},
    cx.branch scope b s = .ok (out, s') → Numbered s.next out.binds s'.next
  | .mk cond yes no r, scope, s, s', out, h => by
    simp only [branch, bind_eq_ok, pure_eq, Except.ok.injEq, Prod.mk.injEq] at h
    obtain ⟨⟨_, s₁⟩, h₁, ⟨_, s₂⟩, h₂, ⟨_, s₃⟩, h₃, rfl, rfl⟩ := h
    rw [(stateExpr_retypes h₁).next, Stmt.binds]
    exact (block_numbered yes h₂).append (alternative_numbered no h₃)

theorem alternative_numbered : ∀ (a : Surface.Alternative) {scope : Scope} {s s' : BodyState}
    {out : Option Block}, cx.alternative scope a s = .ok (out, s') →
    Numbered s.next (Block.bindsOptional out) s'.next
  | .nothing, scope, s, s', out, h => by
    obtain ⟨rfl, rfl⟩ := Prod.mk.inj (Except.ok.inj h)
    rfl
  | .block body, scope, s, s', out, h => by
    simp only [alternative, bind_eq_ok, pure_eq, Except.ok.injEq, Prod.mk.injEq] at h
    obtain ⟨⟨_, s₁⟩, h₁, rfl, rfl⟩ := h
    rw [Block.bindsOptional]
    exact block_numbered body h₁
  | .branch b, scope, s, s', out, h => by
    simp only [alternative, bind_eq_ok, pure_eq, Except.ok.injEq, Prod.mk.injEq] at h
    obtain ⟨⟨_, s₁⟩, h₁, rfl, rfl⟩ := h
    simpa [Block.bindsOptional, Block.binds, Stmt.bindsAll] using branch_numbered b h₁

theorem arms_numbered : ∀ (as : List Surface.Arm) {scope : Scope} {enum : String}
    {layout : OrderedMap String (List TypeId)} {s s' : BodyState} {out : List Arm},
    cx.arms scope enum layout as s = .ok (out, s') → Numbered s.next (Arm.bindsAll out) s'.next
  | [], scope, enum, layout, s, s', out, h => by
    obtain ⟨rfl, rfl⟩ := Prod.mk.inj (Except.ok.inj h)
    rfl
  | .mk p body r :: rest, scope, enum, layout, s, s', out, h => by
    simp only [arms, bind_eq_ok, pure_eq, Except.ok.injEq, Prod.mk.injEq] at h
    obtain ⟨⟨⟨variant, bindings⟩, s₁⟩, h₁, ⟨_, s₂⟩, h₂, ⟨_, s₃⟩, h₃, rfl, rfl⟩ := h
    rw [Arm.bindsAll]
    exact ((pattern_numbered h₁).append (block_numbered body h₂)).append (arms_numbered rest h₃)

end

theorem declareParams_numbered (ps : List (String × TypeId × Span)) (s : BodyState) :
    Numbered s.next ((declareParams ps s).1.map Param.id) (declareParams ps s).2.next := by
  induction ps generalizing s with
  | nil => rfl
  | cons p ps ih =>
    obtain ⟨name, ty, loc⟩ := p
    exact ⟨rfl, ih (s.declare name ty .param loc).2⟩

theorem declareParams_names (ps : List (String × TypeId × Span)) (s : BodyState) :
    (declareParams ps s).1.map Param.name = ps.map (·.1) := by
  induction ps generalizing s with
  | nil => rfl
  | cons p ps ih =>
    obtain ⟨name, ty, loc⟩ := p
    exact congrArg (name :: ·) (ih (s.declare name ty .param loc).2)

theorem typedNames_names : ∀ (xs : List Surface.TypedName) {t u : TypeTable}
    {out : List (String × TypeId × Span)}, cx.typedNames xs t = .ok (out, u) →
    out.map (·.1) = xs.map (·.name)
  | [], t, u, out, h => by
    obtain ⟨rfl, _⟩ := Prod.mk.inj (Except.ok.inj h)
    rfl
  | x :: rest, t, u, out, h => by
    simp only [typedNames, bind_eq_ok, pure_eq, Except.ok.injEq, Prod.mk.injEq] at h
    obtain ⟨⟨_, v⟩, _, ⟨_, w⟩, hw, rfl, _⟩ := h
    rw [List.map_cons, List.map_cons, typedNames_names rest hw]

end ReadContext

namespace Surface

/-- The functions that have a body, in the order of the text. -/
def bodies (items : List Item) : List (Header × Block) :=
  items.filterMap fun
    | .function header body => some (header, body)
    | _ => none

/-- The function is the written one: its parameters are in sight of all its body, and every
variable of the body is bound to the innermost declaration of its name in sight. -/
structure Resolved (written : Header × Block) (f : Function) : Prop where
  name : f.name = written.1.name
  params : f.params.map Param.name = written.1.params.map TypedName.name
  body : written.2.Resolves [Frames.frame (f.params.map fun p => (p.id, p.name))] f.body

end Surface

namespace ReadContext

variable {cx : ReadContext}

/-- The function is still to be read from what is written. -/
structure Pends (written : Surface.Header × Surface.Block) (p : PendingFunction) : Prop where
  name : p.signature.name = written.1.name
  params : p.params.map (·.1) = written.1.params.map Surface.TypedName.name
  body : p.body = written.2

theorem signature_pends {d d' : Declarations} {header : Surface.Header} {s : Signature}
    {params : List (String × TypeId × Span)} (h : cx.signature d header = .ok ((s, params), d'))
    (body : Surface.Block) : Pends (header, body) ⟨s, params, body⟩ ∧ d'.functions = d.functions := by
  simp only [signature, bind_eq_ok] at h
  obtain ⟨⟨_, t⟩, ht, ⟨_, u⟩, _, h⟩ := h
  split at h
  · cases h
  · obtain ⟨hout, rfl⟩ := Prod.mk.inj (Except.ok.inj h)
    obtain ⟨rfl, rfl⟩ := Prod.mk.inj hout
    exact ⟨⟨rfl, typedNames_names _ ht, rfl⟩, rfl⟩

theorem item_pends {d d' : Declarations} {x : Surface.Item} (h : cx.item d x = .ok d') :
    ∃ new, d'.functions = d.functions ++ new ∧ List.Forall₂ Pends (Surface.bodies [x]) new := by
  cases x with
  | struct copy name xs r | enum copy name xs r =>
    simp only [item, bind_eq_ok, pure_eq, Except.ok.injEq] at h
    obtain ⟨_, _, _, _, rfl⟩ := h
    exact ⟨[], by simp, .nil⟩
  | function header body =>
    simp only [item, bind_eq_ok, pure_eq, Except.ok.injEq] at h
    obtain ⟨⟨⟨s, params⟩, e⟩, he, rfl⟩ := h
    obtain ⟨hpends, hkept⟩ := signature_pends he body
    exact ⟨[⟨s, params, body⟩], by rw [hkept], .cons hpends .nil⟩
  | external header =>
    simp only [item, bind_eq_ok, pure_eq, Except.ok.injEq] at h
    obtain ⟨⟨⟨s, params⟩, e⟩, he, rfl⟩ := h
    obtain ⟨-, hkept⟩ := signature_pends he (.mk [] default)
    exact ⟨[], by simp [hkept], .nil⟩

theorem items_pend : ∀ (items : List Surface.Item) {d d' : Declarations}, items.foldlM cx.item d = .ok d' →
    ∃ new, d'.functions = d.functions ++ new ∧ List.Forall₂ Pends (Surface.bodies items) new
  | [], d, d', h => by
    obtain rfl := Except.ok.inj h
    exact ⟨[], by simp, .nil⟩
  | x :: items, d, d', h => by
    rw [List.foldlM_cons, bind_eq_ok] at h
    obtain ⟨d₁, hx, hrest⟩ := h
    obtain ⟨new, hnew, hpends⟩ := item_pends hx
    obtain ⟨more, hmore, hpends'⟩ := items_pend items hrest
    refine ⟨new ++ more, by rw [hmore, hnew, List.append_assoc], ?_⟩
    rw [← List.singleton_append, Surface.bodies, List.filterMap_append]
    exact List.rel_append hpends hpends'

/-- A function that is read is the written one, and its bindings are numbered. -/
theorem function_resolves {p : PendingFunction} {t u : TypeTable} {f : Function}
    {written : Surface.Header × Surface.Block} (hp : Pends written p) (h : cx.function p t = .ok (f, u)) :
    Surface.Resolved written f ∧ f.binds.Nodup := by
  simp only [function, bind_eq_ok, pure_eq, Except.ok.injEq, Prod.mk.injEq] at h
  obtain ⟨⟨body, s⟩, hs, rfl, -⟩ := h
  refine ⟨⟨hp.name, (declareParams_names _ _).trans hp.params, ?_⟩, ?_⟩
  · rw [Frames.scopeWith_eq, List.append_nil, ← List.flatten_singleton (l := Frames.frame _)] at hs
    exact hp.body ▸ block_resolves p.body hs
  · have hbody := block_numbered p.body hs
    cases body
    exact ((declareParams_numbered p.params { types := t }).append hbody).nodup

theorem functions_resolve {ps : List PendingFunction} {written : List (Surface.Header × Surface.Block)}
    (hp : List.Forall₂ Pends written ps) {t u : TypeTable} {fs : List Function}
    (h : cx.functions ps t = .ok (fs, u)) :
    List.Forall₂ Surface.Resolved written fs ∧ ∀ f ∈ fs, f.binds.Nodup ∧ ∃ w, Surface.Resolved w f := by
  induction hp generalizing t fs with
  | nil =>
    obtain ⟨rfl, _⟩ := Prod.mk.inj (Except.ok.inj h)
    exact ⟨.nil, by simp⟩
  | cons hp _ ih =>
    simp only [functions, bind_eq_ok, pure_eq, Except.ok.injEq, Prod.mk.injEq] at h
    obtain ⟨⟨f, v⟩, hv, ⟨fs', w⟩, hw, rfl, rfl⟩ := h
    obtain ⟨hf, hnodup⟩ := function_resolves hp hv
    obtain ⟨hfs, hall⟩ := ih hw
    exact ⟨.cons hf hfs, List.forall_mem_cons.mpr ⟨⟨hnodup, _, hf⟩, hall⟩⟩

end ReadContext

/-- The functions of a program are those of its text, resolved, and no function makes a binding twice. -/
theorem readProgram_resolves {text : String} {file : Option String} {program : Program}
    (h : readProgram text file = .ok program) : ∃ items, readItems text file = .ok items ∧
      List.Forall₂ Surface.Resolved (Surface.bodies items) program.functions ∧
      ∀ f ∈ program.functions, f.binds.Nodup ∧ ∃ written, Surface.Resolved written f := by
  simp only [readProgram, bind_eq_ok, pure_eq, Except.ok.injEq] at h
  obtain ⟨items, hitems, d, hd, ⟨fs, types⟩, hf, rfl⟩ := h
  obtain ⟨new, hnew, hpends⟩ := ReadContext.items_pend items hd
  rw [show d.functions = new by simpa using hnew] at hf
  exact ⟨items, hitems, ReadContext.functions_resolve hpends hf⟩

end Ownership
