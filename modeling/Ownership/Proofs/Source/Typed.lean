import Ownership.Proofs.Source.Reading
import Ownership.Proofs.TypeTable.Interning

/-!
Programs that are read are typed: their type table is built from the ground up, and every
type that a binding or a signature mentions is in it. So checking such a program never
asks the table for a type that it does not have.
-/
namespace Ownership

open Outcome

/-- The types that the type of an expression is found from are in the table. -/
def Expr.Typed (t : TypeTable) : Expr → Prop
  | .field subject _ _ | .index subject _ _ | .deref subject _ | .payload subject _ _ _
  | .borrow subject _ _ => subject.Typed t
  | .construct ty _ _ | .inject ty _ _ _ => t.Knows ty
  | _ => True

theorem Expr.Typed.mono {t u : TypeTable} (h : t.Adds u) : ∀ {e : Expr}, e.Typed t → e.Typed u
  | .field subject _ _, he | .index subject _ _, he | .deref subject _, he | .payload subject _ _ _, he
  | .borrow subject _ _, he => mono h (e := subject) he
  | .construct .., he | .inject .., he => h.knows he
  | .var .., _ | .int .., _ | .bool .., _ | .unit .., _ | .unary .., _ | .binary .., _ | .call .., _
  | .foreign, _ => trivial

namespace ReadContext

variable {cx : ReadContext}

theorem type_adds : ∀ (ty : Surface.Ty) {t u : TypeTable} {id : TypeId}, t.Founded → cx.type ty t = .ok (id, u) →
    t.Adds u ∧ u.Knows id
  | .ref region mutable target _, t, u, id, ht, h => by
    simp only [type, bind_eq_ok, pure_eq, Except.ok.injEq] at h
    obtain ⟨⟨_, v⟩, hv, h⟩ := h
    obtain ⟨hadds, hknown⟩ := type_adds target ht hv
    obtain ⟨hadds', hknown'⟩ := TypeTable.ref_adds hadds.founded hknown h
    exact ⟨hadds.trans hadds', hknown'⟩
  | .array element _, t, u, id, ht, h => by
    simp only [type, bind_eq_ok, pure_eq, Except.ok.injEq] at h
    obtain ⟨⟨_, v⟩, hv, h⟩ := h
    obtain ⟨hadds, hknown⟩ := type_adds element ht hv
    obtain ⟨hadds', hknown'⟩ := TypeTable.array_adds hadds.founded hknown h
    exact ⟨hadds.trans hadds', hknown'⟩
  | .named name region range, t, u, id, ht, h => by
    unfold type at h
    split at h
    · exact TypeTable.intern_plain ht (Except.ok.inj h) rfl
    split at h
    · exact TypeTable.intern_plain ht (Except.ok.inj h) rfl
    split at h
    · exact TypeTable.intern_plain ht (Except.ok.inj h) rfl
    split at h
    · exact TypeTable.aggregate_adds ht (ofTypes_eq_ok.mp h)
    split at h
    · exact TypeTable.aggregate_adds ht (ofTypes_eq_ok.mp h)
    · cases h

mutual

theorem expr_adds : ∀ (e : Surface.Expr) {scope : Scope} {t u : TypeTable} {out : Expr}, t.Founded →
    cx.expr scope e t = .ok (out, u) → t.Adds u ∧ out.Typed u
  | .int .., scope, t, u, out, ht, h | .var .., scope, t, u, out, ht, h => by
    unfold expr at h
    split at h
    · obtain ⟨rfl, rfl⟩ := Prod.mk.inj (Except.ok.inj h)
      exact ⟨.refl ht, trivial⟩
    · cases h
  | .bool .., scope, t, u, out, ht, h | .unit .., scope, t, u, out, ht, h => by
    simp only [expr, Except.ok.injEq, Prod.mk.injEq] at h
    obtain ⟨rfl, rfl⟩ := h
    exact ⟨.refl ht, trivial⟩
  | .field e .., scope, t, u, out, ht, h | .deref e _, scope, t, u, out, ht, h => by
    simp only [expr, bind_eq_ok, pure_eq, Except.ok.injEq, Prod.mk.injEq] at h
    obtain ⟨⟨_, v⟩, hv, rfl, rfl⟩ := h
    obtain ⟨hadds, htyped⟩ := expr_adds e ht hv
    exact ⟨hadds, htyped⟩
  | .unary _ e _, scope, t, u, out, ht, h => by
    simp only [expr, bind_eq_ok, pure_eq, Except.ok.injEq, Prod.mk.injEq] at h
    obtain ⟨⟨_, v⟩, hv, rfl, rfl⟩ := h
    exact ⟨(expr_adds e ht hv).1, trivial⟩
  | .index e e' _, scope, t, u, out, ht, h => by
    simp only [expr, bind_eq_ok, pure_eq, Except.ok.injEq, Prod.mk.injEq] at h
    obtain ⟨⟨_, v⟩, hv, ⟨_, w⟩, hw, rfl, rfl⟩ := h
    obtain ⟨hadds, htyped⟩ := expr_adds e ht hv
    have hadds' := (expr_adds e' hadds.founded hw).1
    exact ⟨hadds.trans hadds', htyped.mono hadds'⟩
  | .binary _ e e' _, scope, t, u, out, ht, h => by
    simp only [expr, bind_eq_ok, pure_eq, Except.ok.injEq, Prod.mk.injEq] at h
    obtain ⟨⟨_, v⟩, hv, ⟨_, w⟩, hw, rfl, rfl⟩ := h
    have hadds := (expr_adds e ht hv).1
    exact ⟨hadds.trans (expr_adds e' hadds.founded hw).1, trivial⟩
  | .borrow e _ _, scope, t, u, out, ht, h => by
    simp only [expr, bind_eq_ok] at h
    obtain ⟨⟨_, v⟩, hv, h⟩ := h
    split at h
    · obtain ⟨rfl, rfl⟩ := Prod.mk.inj (Except.ok.inj h)
      obtain ⟨hadds, htyped⟩ := expr_adds e ht hv
      exact ⟨hadds, htyped⟩
    · cases h
  | .call _ args _, scope, t, u, out, ht, h => by
    simp only [expr, bind_eq_ok, pure_eq, Except.ok.injEq, Prod.mk.injEq] at h
    obtain ⟨⟨_, v⟩, hv, rfl, rfl⟩ := h
    exact ⟨exprs_adds args ht hv, trivial⟩
  | .inject enum variant args r, scope, t, u, out, ht, h => by
    unfold expr at h
    split at h
    · cases h
    split at h
    · cases h
    simp only [bind_eq_ok] at h
    obtain ⟨⟨_, v⟩, hv, h⟩ := h
    split at h
    · cases h
    simp only [bind_eq_ok, pure_eq, Except.ok.injEq, Prod.mk.injEq] at h
    obtain ⟨⟨_, w⟩, hw, rfl, rfl⟩ := h
    have hadds := exprs_adds args ht hv
    obtain ⟨hadds', hknown⟩ := TypeTable.aggregate_adds hadds.founded (ofTypes_eq_ok.mp hw)
    exact ⟨hadds.trans hadds', hknown⟩
  | .construct struct region fields r, scope, t, u, out, ht, h => by
    unfold expr at h
    split at h
    · cases h
    simp only [bind_eq_ok] at h
    obtain ⟨⟨_, v⟩, hv, h⟩ := h
    split at h
    · simp only [bind_eq_ok, pure_eq, Except.ok.injEq, Prod.mk.injEq] at h
      obtain ⟨⟨_, w⟩, hw, rfl, rfl⟩ := h
      have hadds := fieldInits_adds fields ht hv
      obtain ⟨hadds', hknown⟩ := TypeTable.aggregate_adds hadds.founded (ofTypes_eq_ok.mp hw)
      exact ⟨hadds.trans hadds', hknown⟩
    · cases h

theorem exprs_adds : ∀ (es : List Surface.Expr) {scope : Scope} {t u : TypeTable} {out : List Expr}, t.Founded →
    cx.exprs scope es t = .ok (out, u) → t.Adds u
  | [], scope, t, u, out, ht, h => by
    simp only [exprs, Except.ok.injEq, Prod.mk.injEq] at h
    exact h.2 ▸ .refl ht
  | e :: rest, scope, t, u, out, ht, h => by
    simp only [exprs, bind_eq_ok, pure_eq, Except.ok.injEq, Prod.mk.injEq] at h
    obtain ⟨⟨_, v⟩, hv, ⟨_, w⟩, hw, _, rfl⟩ := h
    have hadds := (expr_adds e ht hv).1
    exact hadds.trans (exprs_adds rest hadds.founded hw)

theorem fieldInits_adds : ∀ (fields : List Surface.FieldInit) {scope : Scope} {struct : String}
    {layout : OrderedMap String TypeId} {t u : TypeTable} {out : List FieldInit}, t.Founded →
    cx.fieldInits scope struct layout fields t = .ok (out, u) → t.Adds u
  | [], scope, struct, layout, t, u, out, ht, h => by
    simp only [fieldInits, Except.ok.injEq, Prod.mk.injEq] at h
    exact h.2 ▸ .refl ht
  | .mk name value range :: rest, scope, struct, layout, t, u, out, ht, h => by
    unfold fieldInits at h
    split at h
    · simp only [bind_eq_ok, pure_eq, Except.ok.injEq, Prod.mk.injEq] at h
      obtain ⟨⟨_, v⟩, hv, ⟨_, w⟩, hw, _, rfl⟩ := h
      have hadds := (expr_adds value ht hv).1
      exact hadds.trans (fieldInits_adds rest hadds.founded hw)
    · cases h

end

theorem partType_known {r : Surface.Range} {t u : TypeTable} {base id : TypeId} (pending : Option String)
    (proj : Projection) (ht : t.Founded) (hbase : t.Knows base)
    (h : cx.partType r t base (t.step? base pending proj) = .ok (id, u)) : u = t ∧ t.Knows id := by
  simp only [partType, bind_eq_ok] at h
  obtain ⟨ty, hty, h⟩ := h
  split at h
  · obtain ⟨rfl, rfl⟩ := Prod.mk.inj (Except.ok.inj h)
    exact ⟨rfl, ht.known_of_step (ofTypes_eq_ok.mp hty) hbase⟩
  · simp [fail] at h

/-- The type of an expression is in the table if those of the bindings and of the signatures are. -/
theorem typeOf_adds {bindings : Bindings} {r : Surface.Range} : ∀ (e : Expr) {t u : TypeTable} {id : TypeId},
    t.Founded → (∀ id b, bindings.get? id = some b → t.Knows b.ty) → (∀ s ∈ cx.signatures, s.Known t) → e.Typed t →
      cx.typeOf bindings r e t = .ok (id, u) → t.Adds u ∧ u.Knows id
  | .var _ id _, t, u, ty, ht, hb, _, _, h => by
    unfold typeOf at h
    split at h
    · rename_i b hget
      obtain ⟨rfl, rfl⟩ := Prod.mk.inj (Except.ok.inj h)
      exact ⟨.refl ht, hb id b hget⟩
    · cases h
  | .field e name _, t, u, ty, ht, hb, hs, he, h => by
    simp only [typeOf, bind_eq_ok] at h
    obtain ⟨⟨base, v⟩, hv, h⟩ := h
    obtain ⟨hadds, hknown⟩ := typeOf_adds e ht hb hs he hv
    obtain ⟨rfl, hpart⟩ := partType_known none (.field name) hadds.founded hknown h
    exact ⟨hadds, hpart⟩
  | .index e _ _, t, u, ty, ht, hb, hs, he, h => by
    simp only [typeOf, bind_eq_ok] at h
    obtain ⟨⟨base, v⟩, hv, h⟩ := h
    obtain ⟨hadds, hknown⟩ := typeOf_adds e ht hb hs he hv
    obtain ⟨rfl, hpart⟩ := partType_known none .anyElement hadds.founded hknown h
    exact ⟨hadds, hpart⟩
  | .deref e _, t, u, ty, ht, hb, hs, he, h => by
    simp only [typeOf, bind_eq_ok] at h
    obtain ⟨⟨base, v⟩, hv, h⟩ := h
    obtain ⟨hadds, hknown⟩ := typeOf_adds e ht hb hs he hv
    obtain ⟨rfl, hpart⟩ := partType_known none .deref hadds.founded hknown h
    exact ⟨hadds, hpart⟩
  | .payload e variant field _, t, u, ty, ht, hb, hs, he, h => by
    simp only [typeOf, bind_eq_ok] at h
    obtain ⟨⟨base, v⟩, hv, h⟩ := h
    obtain ⟨hadds, hknown⟩ := typeOf_adds e ht hb hs he hv
    obtain ⟨rfl, hpart⟩ := partType_known (some variant) (.field field) hadds.founded hknown h
    exact ⟨hadds, hpart⟩
  | .borrow e _ _, t, u, ty, ht, hb, hs, he, h => by
    simp only [typeOf, bind_eq_ok, pure_eq, Except.ok.injEq] at h
    obtain ⟨⟨target, v⟩, hv, h⟩ := h
    obtain ⟨hadds, hknown⟩ := typeOf_adds e ht hb hs he hv
    obtain ⟨hadds', hknown'⟩ := TypeTable.ref_adds hadds.founded hknown h
    exact ⟨hadds.trans hadds', hknown'⟩
  | .int .., t, u, ty, ht, _, _, _, h | .bool .., t, u, ty, ht, _, _, _, h | .unit .., t, u, ty, ht, _, _, _, h => by
    simp only [typeOf, Except.ok.injEq] at h
    exact TypeTable.intern_plain ht h rfl
  | .unary .., t, u, ty, ht, _, _, _, h | .binary .., t, u, ty, ht, _, _, _, h => by
    simp only [typeOf, Except.ok.injEq] at h
    split at h <;> exact TypeTable.intern_plain ht h rfl
  | .call callee args _, t, u, ty, ht, _, hs, _, h => by
    unfold typeOf at h
    split at h
    · exact TypeTable.intern_plain ht (Except.ok.inj h) rfl
    · rename_i signature hfind
      have hret := Except.ok.inj h
      cases hsome : signature.ret with
      | none =>
        rw [hsome] at hret
        exact TypeTable.intern_plain ht hret rfl
      | some result =>
        rw [hsome] at hret
        obtain ⟨rfl, rfl⟩ := Prod.mk.inj hret
        exact ⟨.refl ht, (hs signature (List.mem_of_find?_eq_some hfind)).ret _ hsome⟩
  | .construct .., t, u, ty, ht, _, _, he, h | .inject .., t, u, ty, ht, _, _, he, h => by
    simp only [typeOf, Except.ok.injEq, Prod.mk.injEq] at h
    obtain ⟨rfl, rfl⟩ := h
    exact ⟨.refl ht, he⟩
  | .foreign, t, u, ty, _, _, _, _, h => by cases h

namespace BodyState

/-- What reading a body may rely on: the table is founded, and the types of bindings and of signatures are in it. -/
structure Typed (cx : ReadContext) (s : BodyState) : Prop where
  founded : s.types.Founded
  bindings : ∀ id b, s.bindings.get? id = some b → s.types.Knows b.ty
  signatures : ∀ f ∈ cx.signatures, f.Known s.types

/-- Reading went on to a typed state, and no type was lost. -/
structure Reaches (cx : ReadContext) (s s' : BodyState) : Prop where
  typed : s'.Typed cx
  grows : s.types.defs.length ≤ s'.types.defs.length

variable {s s' s'' : BodyState}

theorem Reaches.refl (h : s.Typed cx) : s.Reaches cx s := ⟨h, Nat.le_refl _⟩

theorem Reaches.trans (h : s.Reaches cx s') (k : s'.Reaches cx s'') : s.Reaches cx s'' :=
  ⟨k.typed, Nat.le_trans h.grows k.grows⟩

theorem Typed.of_types (h : s.Typed cx) {t : TypeTable} (ht : s.types.Adds t) : s.Reaches cx { s with types := t } :=
  ⟨⟨ht.founded, fun id b hb => ht.knows (h.bindings id b hb), fun f hf => (h.signatures f hf).mono ht.grows⟩, ht.grows⟩

theorem Typed.declare (h : s.Typed cx) (name : String) {ty : TypeId} (hty : s.types.Knows ty) (kind : BindingKind)
    (loc : Span) : s.Reaches cx (s.declare name ty kind loc).2 := by
  refine ⟨⟨h.founded, fun id b hb => ?_, h.signatures⟩, Nat.le_refl _⟩
  by_cases hid : id = s.next
  · simp only [BodyState.declare, hid, OrderedMap.get?_insert_self, Option.some.injEq] at hb
    rw [← hb]
    exact hty
  · exact h.bindings id b (by simpa [BodyState.declare, OrderedMap.get?_insert_other _ _ hid] using hb)

end BodyState

open BodyState (Reaches Typed)

theorem stateExpr_typed {scope : Scope} {e : Surface.Expr} {s s' : BodyState} {out : Expr} (hs : s.Typed cx)
    (h : cx.stateExpr scope e s = .ok (out, s')) : s.Reaches cx s' ∧ out.Typed s'.types := by
  simp only [stateExpr, map_eq_ok] at h
  obtain ⟨⟨_, t⟩, ht, h⟩ := h
  obtain ⟨rfl, rfl⟩ := Prod.mk.inj h
  obtain ⟨hadds, htyped⟩ := expr_adds e hs.founded ht
  exact ⟨hs.of_types hadds, htyped⟩

theorem optionalExpr_typed {scope : Scope} {e : Option Surface.Expr} {s s' : BodyState} {out : Option Expr}
    (hs : s.Typed cx) (h : cx.optionalExpr scope e s = .ok (out, s')) :
    s.Reaches cx s' ∧ ∀ x ∈ out, x.Typed s'.types := by
  cases e with
  | none =>
    obtain ⟨rfl, rfl⟩ := Prod.mk.inj (Except.ok.inj h)
    exact ⟨.refl hs, by simp⟩
  | some e =>
    simp only [optionalExpr, map_eq_ok] at h
    obtain ⟨⟨x, s₁⟩, hx, h⟩ := h
    obtain ⟨rfl, rfl⟩ := Prod.mk.inj h
    obtain ⟨hreach, htyped⟩ := stateExpr_typed hs hx
    exact ⟨hreach, fun y hy => Option.some.inj hy ▸ htyped⟩

theorem optionalType_typed {ty : Option Surface.Ty} {s s' : BodyState} {out : Option TypeId} (hs : s.Typed cx)
    (h : cx.optionalType ty s = .ok (out, s')) : s.Reaches cx s' ∧ ∀ x ∈ out, s'.types.Knows x := by
  cases ty with
  | none =>
    obtain ⟨rfl, rfl⟩ := Prod.mk.inj (Except.ok.inj h)
    exact ⟨.refl hs, by simp⟩
  | some ty =>
    simp only [optionalType, map_eq_ok] at h
    obtain ⟨⟨x, t⟩, ht, h⟩ := h
    obtain ⟨rfl, rfl⟩ := Prod.mk.inj h
    obtain ⟨hadds, hknown⟩ := type_adds ty hs.founded ht
    exact ⟨hs.of_types hadds, fun y hy => Option.some.inj hy ▸ hknown⟩

theorem declaredType_typed {name : String} {ty : Option TypeId} {value : Option Expr} {r : Surface.Range}
    {s s' : BodyState} {out : TypeId} (hs : s.Typed cx) (hty : ∀ x ∈ ty, s.types.Knows x)
    (hvalue : ∀ e ∈ value, e.Typed s.types) (h : cx.declaredType name ty value r s = .ok (out, s')) :
    s.Reaches cx s' ∧ s'.types.Knows out := by
  unfold declaredType at h
  split at h
  · obtain ⟨rfl, rfl⟩ := Prod.mk.inj (Except.ok.inj h)
    exact ⟨.refl hs, hty _ rfl⟩
  · simp only [map_eq_ok] at h
    obtain ⟨⟨_, t⟩, ht, h⟩ := h
    obtain ⟨rfl, rfl⟩ := Prod.mk.inj h
    obtain ⟨hadds, hknown⟩ := typeOf_adds _ hs.founded hs.bindings hs.signatures (hvalue _ rfl) ht
    exact ⟨hs.of_types hadds, hknown⟩
  · cases h

theorem declaration_typed {scope : Scope} {name : String} {ty : Option Surface.Ty} {value : Option Surface.Expr}
    {r : Surface.Range} {s s' : BodyState} {out : Stmt} (hs : s.Typed cx)
    (h : cx.declaration scope name ty value r s = .ok (out, s')) : s.Reaches cx s' := by
  simp only [declaration, bind_eq_ok, pure_eq, Except.ok.injEq, Prod.mk.injEq] at h
  obtain ⟨⟨_, s₁⟩, h₁, ⟨_, s₂⟩, h₂, ⟨ty', s₃⟩, h₃, _, rfl⟩ := h
  obtain ⟨hreach₁, hty⟩ := optionalType_typed hs h₁
  obtain ⟨hreach₂, hvalue⟩ := optionalExpr_typed hreach₁.typed h₂
  obtain ⟨hreach₃, hknown⟩ := declaredType_typed hreach₂.typed (fun x hx => (hty x hx).mono hreach₂.grows) hvalue h₃
  exact hreach₁.trans (hreach₂.trans (hreach₃.trans (hreach₃.typed.declare name hknown .localVar _)))

/-- The payloads of a matched enum are of known types. -/
theorem matchedEnum_typed {scrutinee : Expr} {r : Surface.Range} {s s' : BodyState}
    {out : String × OrderedMap String (List TypeId)} (hs : s.Typed cx) (he : scrutinee.Typed s.types)
    (h : cx.matchedEnum scrutinee r s = .ok (out, s')) :
    s.Reaches cx s' ∧ ∀ part ∈ out.2.values.flatten, s'.types.Knows part := by
  unfold matchedEnum at h
  split at h
  · simp only [bind_eq_ok] at h
    obtain ⟨⟨_, t⟩, ht, d, _, h⟩ := h
    obtain ⟨hadds, _⟩ := typeOf_adds scrutinee hs.founded hs.bindings hs.signatures he ht
    split at h
    · simp only [bind_eq_ok, pure_eq, Except.ok.injEq, Prod.mk.injEq] at h
      obtain ⟨arms, harms, rfl, rfl⟩ := h
      exact ⟨hs.of_types hadds, hadds.founded.enums _ arms (TypeTable.enumArms_eq_ok (ofTypes_eq_ok.mp harms))⟩
    · simp [fail] at h
  · cases h

theorem payloadBindings_typed (i : Nat) (fields : List Surface.SubPattern) {payload : List TypeId} {s : BodyState}
    (hs : s.Typed cx) (hpayload : ∀ ty ∈ payload, s.types.Knows ty) :
    s.Reaches cx (cx.payloadBindings i fields payload s).2 := by
  induction fields generalizing i payload s with
  | nil => exact .refl hs
  | cons field fields ih =>
    cases payload with
    | nil => cases field <;> exact .refl hs
    | cons ty payload =>
      have hty := hpayload ty List.mem_cons_self
      have hrest : ∀ x ∈ payload, s.types.Knows x := fun x hx => hpayload x (List.mem_cons_of_mem ty hx)
      cases field with
      | skip => exact ih (i + 1) hs hrest
      | bind byRef mutable name r =>
        obtain ⟨hadds, hknown⟩ : s.types.Adds (if byRef then s.types.ref ty mutable none else (ty, s.types)).2 ∧
            (if byRef then s.types.ref ty mutable none else (ty, s.types)).2.Knows
              (if byRef then s.types.ref ty mutable none else (ty, s.types)).1 := by
          split
          · exact TypeTable.ref_adds hs.founded hty rfl
          · exact ⟨.refl hs.founded, hty⟩
        have htypes := hs.of_types hadds
        have hdeclare := htypes.typed.declare name hknown .localVar (cx.span r)
        have hreach := htypes.trans hdeclare
        exact hreach.trans (ih (i + 1) hreach.typed fun x hx => (hrest x hx).mono hreach.grows)

theorem pattern_typed {enum : String} {arms : OrderedMap String (List TypeId)} {p : Surface.Pattern}
    {s s' : BodyState} {out : Option String × List PayloadBinding} (hs : s.Typed cx)
    (harms : ∀ part ∈ arms.values.flatten, s.types.Knows part) (h : cx.pattern enum arms p s = .ok (out, s')) :
    s.Reaches cx s' := by
  cases p with
  | wildcard =>
    obtain ⟨_, rfl⟩ := Prod.mk.inj (Except.ok.inj h)
    exact .refl hs
  | variant written variant fields r =>
    have hpayload : ∀ payload, arms.get? variant = some payload → ∀ ty ∈ payload, s.types.Knows ty := by
      intro payload hget ty hty
      have hvalue : payload ∈ arms.values :=
        List.mem_map.mpr ⟨(variant, payload), OrderedMap.mem_entries_of_get? hget, rfl⟩
      exact harms ty (List.mem_flatten.mpr ⟨payload, hvalue, hty⟩)
    simp only [pattern] at h
    split at h
    all_goals
      repeat
        split at h
        · cases h
      obtain ⟨_, rfl⟩ := Prod.mk.inj (Except.ok.inj h)
      exact payloadBindings_typed 0 fields hs (hpayload _ ‹_›)

mutual

theorem stmt_typed : ∀ (x : Surface.Stmt) {scope : Scope} {s s' : BodyState} {out : Stmt}, s.Typed cx →
    cx.stmt scope x s = .ok (out, s') → s.Reaches cx s'
  | .declare name ty value r, scope, s, s', out, hs, h => by
    simp only [stmt] at h
    exact declaration_typed hs h
  | .assign target value r, scope, s, s', out, hs, h => by
    simp only [stmt, bind_eq_ok] at h
    obtain ⟨⟨_, s₁⟩, h₁, h⟩ := h
    split at h
    · simp only [bind_eq_ok, pure_eq, Except.ok.injEq, Prod.mk.injEq] at h
      obtain ⟨⟨_, s₂⟩, h₂, _, rfl⟩ := h
      have hreach := (stateExpr_typed hs h₁).1
      exact hreach.trans (stateExpr_typed hreach.typed h₂).1
    · cases h
  | .eval e r, scope, s, s', out, hs, h => by
    simp only [stmt, bind_eq_ok, pure_eq, Except.ok.injEq, Prod.mk.injEq] at h
    obtain ⟨⟨_, s₁⟩, h₁, _, rfl⟩ := h
    exact (stateExpr_typed hs h₁).1
  | .branch b, scope, s, s', out, hs, h => by
    simp only [stmt] at h
    exact branch_typed b hs h
  | .loop body r, scope, s, s', out, hs, h | .block body, scope, s, s', out, hs, h => by
    simp only [stmt, bind_eq_ok, pure_eq, Except.ok.injEq, Prod.mk.injEq] at h
    obtain ⟨⟨_, s₁⟩, h₁, _, rfl⟩ := h
    exact block_typed body hs h₁
  | .whileLoop cond body r, scope, s, s', out, hs, h => by
    simp only [stmt, bind_eq_ok, pure_eq, Except.ok.injEq, Prod.mk.injEq] at h
    obtain ⟨⟨_, s₁⟩, h₁, ⟨_, s₂⟩, h₂, _, rfl⟩ := h
    have hreach := (stateExpr_typed hs h₁).1
    exact hreach.trans (block_typed body hreach.typed h₂)
  | .breakLoop r, scope, s, s', out, hs, h | .continueLoop r, scope, s, s', out, hs, h => by
    simp only [stmt, Except.ok.injEq, Prod.mk.injEq] at h
    exact h.2 ▸ .refl hs
  | .ret value r, scope, s, s', out, hs, h => by
    simp only [stmt, bind_eq_ok, pure_eq, Except.ok.injEq, Prod.mk.injEq] at h
    obtain ⟨⟨_, s₁⟩, h₁, _, rfl⟩ := h
    exact (optionalExpr_typed hs h₁).1
  | .select scrutinee arms r, scope, s, s', out, hs, h => by
    simp only [stmt, bind_eq_ok, pure_eq, Except.ok.injEq, Prod.mk.injEq] at h
    obtain ⟨⟨_, s₁⟩, h₁, ⟨_, s₂⟩, h₂, ⟨_, s₃⟩, h₃, _, rfl⟩ := h
    obtain ⟨hreach₁, htyped⟩ := stateExpr_typed hs h₁
    obtain ⟨hreach₂, hlayout⟩ := matchedEnum_typed hreach₁.typed htyped h₂
    exact hreach₁.trans (hreach₂.trans (arms_typed arms hreach₂.typed hlayout h₃))

theorem stmts_typed : ∀ (xs : List Surface.Stmt) {scope : Scope} {s s' : BodyState} {out : List Stmt}, s.Typed cx →
    cx.stmts scope xs s = .ok (out, s') → s.Reaches cx s'
  | [], scope, s, s', out, hs, h => by
    simp only [stmts, Except.ok.injEq, Prod.mk.injEq] at h
    exact h.2 ▸ .refl hs
  | x :: rest, scope, s, s', out, hs, h => by
    simp only [stmts, bind_eq_ok, pure_eq, Except.ok.injEq, Prod.mk.injEq] at h
    obtain ⟨⟨_, s₁⟩, h₁, ⟨_, s₂⟩, h₂, _, rfl⟩ := h
    have hreach := stmt_typed x hs h₁
    exact hreach.trans (stmts_typed rest hreach.typed h₂)

theorem block_typed : ∀ (body : Surface.Block) {scope : Scope} {s s' : BodyState} {out : Block}, s.Typed cx →
    cx.block scope body s = .ok (out, s') → s.Reaches cx s'
  | .mk statements r, scope, s, s', out, hs, h => by
    simp only [block, bind_eq_ok, pure_eq, Except.ok.injEq, Prod.mk.injEq] at h
    obtain ⟨⟨_, s₁⟩, h₁, _, rfl⟩ := h
    exact stmts_typed statements hs h₁

theorem branch_typed : ∀ (b : Surface.Branch) {scope : Scope} {s s' : BodyState} {out : Stmt}, s.Typed cx →
    cx.branch scope b s = .ok (out, s') → s.Reaches cx s'
  | .mk cond yes no r, scope, s, s', out, hs, h => by
    simp only [branch, bind_eq_ok, pure_eq, Except.ok.injEq, Prod.mk.injEq] at h
    obtain ⟨⟨_, s₁⟩, h₁, ⟨_, s₂⟩, h₂, ⟨_, s₃⟩, h₃, _, rfl⟩ := h
    have hreach₁ := (stateExpr_typed hs h₁).1
    have hreach₂ := block_typed yes hreach₁.typed h₂
    exact hreach₁.trans (hreach₂.trans (alternative_typed no hreach₂.typed h₃))

theorem alternative_typed : ∀ (a : Surface.Alternative) {scope : Scope} {s s' : BodyState} {out : Option Block},
    s.Typed cx → cx.alternative scope a s = .ok (out, s') → s.Reaches cx s'
  | .nothing, scope, s, s', out, hs, h => by
    simp only [alternative, Except.ok.injEq, Prod.mk.injEq] at h
    exact h.2 ▸ .refl hs
  | .block body, scope, s, s', out, hs, h => by
    simp only [alternative, bind_eq_ok, pure_eq, Except.ok.injEq, Prod.mk.injEq] at h
    obtain ⟨⟨_, s₁⟩, h₁, _, rfl⟩ := h
    exact block_typed body hs h₁
  | .branch b, scope, s, s', out, hs, h => by
    simp only [alternative, bind_eq_ok, pure_eq, Except.ok.injEq, Prod.mk.injEq] at h
    obtain ⟨⟨_, s₁⟩, h₁, _, rfl⟩ := h
    exact branch_typed b hs h₁

theorem arms_typed : ∀ (as : List Surface.Arm) {scope : Scope} {enum : String}
    {layout : OrderedMap String (List TypeId)} {s s' : BodyState} {out : List Arm}, s.Typed cx →
    (∀ part ∈ layout.values.flatten, s.types.Knows part) → cx.arms scope enum layout as s = .ok (out, s') →
      s.Reaches cx s'
  | [], scope, enum, layout, s, s', out, hs, _, h => by
    simp only [arms, Except.ok.injEq, Prod.mk.injEq] at h
    exact h.2 ▸ .refl hs
  | .mk p body r :: rest, scope, enum, layout, s, s', out, hs, hlayout, h => by
    simp only [arms, bind_eq_ok, pure_eq, Except.ok.injEq, Prod.mk.injEq] at h
    obtain ⟨⟨_, s₁⟩, h₁, ⟨_, s₂⟩, h₂, ⟨_, s₃⟩, h₃, _, rfl⟩ := h
    have hreach₁ := pattern_typed hs hlayout h₁
    have hreach := hreach₁.trans (block_typed body hreach₁.typed h₂)
    exact hreach.trans (arms_typed rest hreach.typed (fun part hpart => (hlayout part hpart).mono hreach.grows) h₃)

end

theorem typedNames_typed : ∀ (xs : List Surface.TypedName) {t u : TypeTable} {out : List (String × TypeId × Span)},
    t.Founded → cx.typedNames xs t = .ok (out, u) → t.Adds u ∧ ∀ x ∈ out, u.Knows x.2.1
  | [], t, u, out, ht, h => by
    simp only [typedNames, Except.ok.injEq, Prod.mk.injEq] at h
    obtain ⟨rfl, rfl⟩ := h
    exact ⟨.refl ht, by simp⟩
  | x :: rest, t, u, out, ht, h => by
    simp only [typedNames, bind_eq_ok, pure_eq, Except.ok.injEq, Prod.mk.injEq] at h
    obtain ⟨⟨ty, v⟩, hv, ⟨_, w⟩, hw, rfl, rfl⟩ := h
    obtain ⟨hadds, hknown⟩ := type_adds x.ty ht hv
    obtain ⟨hadds', hrest⟩ := typedNames_typed rest hadds.founded hw
    refine ⟨hadds.trans hadds', fun y hy => ?_⟩
    rcases List.mem_cons.mp hy with rfl | hy
    · exact hadds'.knows hknown
    · exact hrest y hy

theorem optionalResult_typed {ty : Option Surface.Ty} {t u : TypeTable} {out : Option TypeId} (ht : t.Founded)
    (h : cx.optionalResult ty t = .ok (out, u)) : t.Adds u ∧ ∀ x ∈ out, u.Knows x := by
  cases ty with
  | none =>
    obtain ⟨rfl, rfl⟩ := Prod.mk.inj (Except.ok.inj h)
    exact ⟨.refl ht, by simp⟩
  | some ty =>
    simp only [optionalResult, map_eq_ok] at h
    obtain ⟨⟨_, v⟩, hv, h⟩ := h
    obtain ⟨rfl, rfl⟩ := Prod.mk.inj h
    obtain ⟨hadds, hknown⟩ := type_adds ty ht hv
    exact ⟨hadds, hknown.some⟩

theorem fields_typed {struct : String} : ∀ (xs : List Surface.TypedName) {m m' : OrderedMap String TypeId}
    {t u : TypeTable}, t.Founded → (∀ x ∈ m.values, t.Knows x) → cx.fields struct xs m t = .ok (m', u) →
      t.Adds u ∧ ∀ x ∈ m'.values, u.Knows x
  | [], m, m', t, u, ht, hm, h => by
    simp only [fields, Except.ok.injEq, Prod.mk.injEq] at h
    obtain ⟨rfl, rfl⟩ := h
    exact ⟨.refl ht, hm⟩
  | x :: rest, m, m', t, u, ht, hm, h => by
    unfold fields at h
    split at h
    · cases h
    · simp only [bind_eq_ok] at h
      obtain ⟨⟨ty, v⟩, hv, h⟩ := h
      obtain ⟨hadds, hknown⟩ := type_adds x.ty ht hv
      have hmore : ∀ y ∈ (m.insert x.name ty).values, v.Knows y := by
        intro y hy
        rcases OrderedMap.mem_values_insert hy with rfl | hy
        · exact hknown
        · exact hadds.knows (hm y hy)
      obtain ⟨hadds', hall⟩ := fields_typed rest hadds.founded hmore h
      exact ⟨hadds.trans hadds', hall⟩

theorem payload_typed : ∀ (tys : List Surface.Ty) {t u : TypeTable} {out : List TypeId}, t.Founded →
    cx.payload tys t = .ok (out, u) → t.Adds u ∧ ∀ x ∈ out, u.Knows x
  | [], t, u, out, ht, h => by
    simp only [payload, Except.ok.injEq, Prod.mk.injEq] at h
    obtain ⟨rfl, rfl⟩ := h
    exact ⟨.refl ht, by simp⟩
  | ty :: rest, t, u, out, ht, h => by
    simp only [payload, bind_eq_ok, pure_eq, Except.ok.injEq, Prod.mk.injEq] at h
    obtain ⟨⟨_, v⟩, hv, ⟨_, w⟩, hw, rfl, rfl⟩ := h
    obtain ⟨hadds, hknown⟩ := type_adds ty ht hv
    obtain ⟨hadds', hrest⟩ := payload_typed rest hadds.founded hw
    refine ⟨hadds.trans hadds', fun y hy => ?_⟩
    rcases List.mem_cons.mp hy with rfl | hy
    · exact hadds'.knows hknown
    · exact hrest y hy

theorem variants_typed : ∀ (xs : List Surface.VariantDecl) {m m' : OrderedMap String (List TypeId)}
    {t u : TypeTable}, t.Founded → (∀ x ∈ m.values.flatten, t.Knows x) → cx.variants xs m t = .ok (m', u) →
      t.Adds u ∧ ∀ x ∈ m'.values.flatten, u.Knows x
  | [], m, m', t, u, ht, hm, h => by
    simp only [variants, Except.ok.injEq, Prod.mk.injEq] at h
    obtain ⟨rfl, rfl⟩ := h
    exact ⟨.refl ht, hm⟩
  | x :: rest, m, m', t, u, ht, hm, h => by
    simp only [variants, bind_eq_ok] at h
    obtain ⟨⟨tys, v⟩, hv, h⟩ := h
    obtain ⟨hadds, hknown⟩ := payload_typed x.payload ht hv
    have hmore : ∀ y ∈ (m.insert x.name tys).values.flatten, v.Knows y := by
      intro y hy
      obtain ⟨ys, hys, hin⟩ := List.mem_flatten.mp hy
      rcases OrderedMap.mem_values_insert hys with rfl | hys
      · exact hknown y hin
      · exact hadds.knows (hm y (List.mem_flatten.mpr ⟨ys, hys, hin⟩))
    obtain ⟨hadds', hall⟩ := variants_typed rest hadds.founded hmore h
    exact ⟨hadds.trans hadds', hall⟩

end ReadContext

/-- The declarations mention known types only, and no two functions have one name. -/
structure Declarations.Typed (d : Declarations) : Prop where
  founded : d.types.Founded
  signatures : ∀ s ∈ d.signatures, s.Known d.types
  functions : ∀ p ∈ d.functions, p.signature ∈ d.signatures ∧ ∀ x ∈ p.params, d.types.Knows x.2.1
  externs : ∀ s ∈ d.externs, s ∈ d.signatures
  distinct : (d.functions.map (·.signature.name) ++ d.externs.map Signature.name).Nodup

/-- A name that no signature has is new to functions and externs. -/
theorem Declarations.Typed.distinct_cons {d : Declarations} (h : d.Typed) {name : String}
    (hfresh : name ∉ d.signatures.map Signature.name) :
    (name :: (d.functions.map (·.signature.name) ++ d.externs.map Signature.name)).Nodup := by
  refine List.nodup_cons.mpr ⟨fun hn => hfresh ?_, h.distinct⟩
  rcases List.mem_append.mp hn with hn | hn
  · obtain ⟨p, hp, rfl⟩ := List.mem_map.mp hn
    exact List.mem_map_of_mem (h.functions p hp).1
  · obtain ⟨s, hs, rfl⟩ := List.mem_map.mp hn
    exact List.mem_map_of_mem (h.externs s hs)

theorem Declarations.Typed.mono {d : Declarations} (h : d.Typed) {t : TypeTable} (ht : d.types.Adds t) :
    Declarations.Typed { d with types := t } :=
  ⟨ht.founded, fun s hs => (h.signatures s hs).mono ht.grows,
    fun p hp => ⟨(h.functions p hp).1, fun x hx => ht.knows ((h.functions p hp).2 x hx)⟩, h.externs, h.distinct⟩

namespace ReadContext

variable {cx : ReadContext}

/-- A signature that is read is added under a new name. -/
theorem signature_typed {d d' : Declarations} {header : Surface.Header} {s : Signature}
    {params : List (String × TypeId × Span)} (hd : d.Typed) (h : cx.signature d header = .ok ((s, params), d')) :
    d'.Typed ∧ d'.signatures = d.signatures ++ [s] ∧ d'.functions = d.functions ∧ d'.externs = d.externs ∧
      (∀ x ∈ params, d'.types.Knows x.2.1) ∧ s.name ∉ d.signatures.map Signature.name := by
  simp only [signature, bind_eq_ok] at h
  obtain ⟨⟨ps, t⟩, ht, ⟨ret, u⟩, hu, h⟩ := h
  split at h
  · cases h
  · rename_i hfresh
    obtain ⟨⟨rfl, rfl⟩, rfl⟩ := Prod.mk.inj (Except.ok.inj h) |>.imp Prod.mk.inj id
    obtain ⟨hadds, hparams⟩ := typedNames_typed header.params hd.founded ht
    obtain ⟨hadds', hret⟩ := optionalResult_typed hadds.founded hu
    have hparams' : ∀ x ∈ ps, u.Knows x.2.1 := fun x hx => hadds'.knows (hparams x hx)
    have hmore := hd.mono (hadds.trans hadds')
    refine ⟨⟨hmore.founded, fun s hs => ?_, fun p hp => ?_, fun s hs => ?_, hmore.distinct⟩, rfl, rfl, rfl, hparams',
      ?_⟩
    · rcases List.mem_append.mp hs with hs | hs
      · exact hmore.signatures s hs
      · rw [List.mem_singleton.mp hs]
        refine ⟨fun ty hty => ?_, hret⟩
        obtain ⟨x, hx, rfl⟩ := List.mem_map.mp hty
        exact hparams' x hx
    · exact ⟨List.mem_append_left _ (hmore.functions p hp).1, (hmore.functions p hp).2⟩
    · exact List.mem_append_left _ (hmore.externs s hs)
    · intro hname
      obtain ⟨s, hs, he⟩ := List.mem_map.mp hname
      exact hfresh (List.any_eq_true.mpr ⟨s, hs, by simpa using he⟩)

theorem item_typed {d d' : Declarations} {x : Surface.Item} (hd : d.Typed) (h : cx.item d x = .ok d') : d'.Typed := by
  cases x with
  | struct copy name xs r =>
    simp only [item, bind_eq_ok, pure_eq, Except.ok.injEq] at h
    obtain ⟨⟨m, t⟩, ht, ⟨_, u⟩, hu, rfl⟩ := h
    obtain ⟨hadds, hfields⟩ := fields_typed xs hd.founded (fun _ hnone => absurd hnone List.not_mem_nil) ht
    exact hd.mono (hadds.trans (TypeTable.declare_adds hadds.founded (ofTypes_eq_ok.mp hu) hfields))
  | enum copy name xs r =>
    simp only [item, bind_eq_ok, pure_eq, Except.ok.injEq] at h
    obtain ⟨⟨m, t⟩, ht, ⟨_, u⟩, hu, rfl⟩ := h
    obtain ⟨hadds, harms⟩ := variants_typed xs hd.founded (fun _ hnone => absurd hnone List.not_mem_nil) ht
    exact hd.mono (hadds.trans (TypeTable.declare_adds hadds.founded (ofTypes_eq_ok.mp hu) harms))
  | function header body =>
    simp only [item, bind_eq_ok, pure_eq, Except.ok.injEq] at h
    obtain ⟨⟨⟨s, params⟩, e⟩, he, rfl⟩ := h
    obtain ⟨htyped, hsigs, hfunctions, hexterns, hparams, hfresh⟩ := signature_typed hd he
    refine ⟨htyped.founded, htyped.signatures, fun p hp => ?_, htyped.externs, ?_⟩
    · rcases List.mem_append.mp hp with hp | hp
      · exact htyped.functions p hp
      · rw [List.mem_singleton.mp hp]
        exact ⟨hsigs ▸ List.mem_append_right _ (List.mem_singleton_self s), hparams⟩
    · rw [hfunctions, hexterns]
      refine List.Perm.nodup ?_ (hd.distinct_cons hfresh)
      simpa using List.perm_middle.symm
  | external header =>
    simp only [item, bind_eq_ok, pure_eq, Except.ok.injEq] at h
    obtain ⟨⟨⟨s, params⟩, e⟩, he, rfl⟩ := h
    obtain ⟨htyped, hsigs, hfunctions, hexterns, _, hfresh⟩ := signature_typed hd he
    refine ⟨htyped.founded, htyped.signatures, htyped.functions, fun q hq => ?_, ?_⟩
    · rcases List.mem_append.mp hq with hq | hq
      · exact htyped.externs q hq
      · rw [List.mem_singleton.mp hq]
        exact hsigs ▸ List.mem_append_right _ (List.mem_singleton_self s)
    · rw [hfunctions, hexterns]
      refine List.Perm.nodup ?_ (hd.distinct_cons hfresh)
      simpa using (List.perm_append_singleton s.name
        (d.functions.map (·.signature.name) ++ d.externs.map Signature.name)).symm

theorem declareParams_typed : ∀ (ps : List (String × TypeId × Span)) {s : BodyState}, s.Typed cx →
    (∀ x ∈ ps, s.types.Knows x.2.1) →
      s.Reaches cx (declareParams ps s).2 ∧ (declareParams ps s).1.map Param.ty = ps.map (·.2.1)
  | [], s, hs, _ => ⟨.refl hs, rfl⟩
  | (name, ty, loc) :: rest, s, hs, hps => by
    have hdeclare := hs.declare name (hps _ List.mem_cons_self) .param loc
    obtain ⟨hreach, htys⟩ := declareParams_typed rest hdeclare.typed fun x hx => hps x (List.mem_cons_of_mem _ hx)
    exact ⟨hdeclare.trans hreach, congrArg (ty :: ·) htys⟩

end ReadContext

/-- The types of a function's bindings, parameters and result are in the table. -/
structure Function.Typed (f : Function) (t : TypeTable) : Prop where
  bindings : ∀ id b, f.bindings.get? id = some b → t.Knows b.ty
  signature : f.signature.Known t

theorem Function.Typed.mono {f : Function} {t u : TypeTable} (h : f.Typed t) (hu : t.defs.length ≤ u.defs.length) :
    f.Typed u :=
  ⟨fun id b hb => (h.bindings id b hb).mono hu, h.signature.mono hu⟩

namespace ReadContext

variable {cx : ReadContext}

theorem function_typed {p : PendingFunction} {t u : TypeTable} {f : Function} (ht : t.Founded)
    (hsigs : ∀ s ∈ cx.signatures, s.Known t) (hp : p.signature.Known t) (hps : ∀ x ∈ p.params, t.Knows x.2.1)
    (h : cx.function p t = .ok (f, u)) : t.Adds u ∧ f.Typed u ∧ f.name = p.signature.name := by
  simp only [function, bind_eq_ok, pure_eq, Except.ok.injEq, Prod.mk.injEq] at h
  obtain ⟨⟨body, s⟩, hs, rfl, rfl⟩ := h
  have hstart : BodyState.Typed { cx with functionName := p.signature.name } { types := t } :=
    ⟨ht, fun _ _ hb => (by cases hb), hsigs⟩
  obtain ⟨hparams, htys⟩ := declareParams_typed p.params hstart hps
  have hbody := hparams.trans (block_typed p.body hparams.typed hs)
  refine ⟨⟨hbody.typed.founded, hbody.grows⟩, ⟨hbody.typed.bindings, fun ty hty => ?_, fun ty hty => ?_⟩, rfl⟩
  · rw [Function.signature, htys] at hty
    obtain ⟨x, hx, rfl⟩ := List.mem_map.mp hty
    exact (hps x hx).mono hbody.grows
  · exact (hp.ret ty hty).mono hbody.grows

theorem functions_typed : ∀ (ps : List PendingFunction) {t u : TypeTable} {fs : List Function}, t.Founded →
    (∀ s ∈ cx.signatures, s.Known t) → (∀ p ∈ ps, p.signature ∈ cx.signatures ∧ ∀ x ∈ p.params, t.Knows x.2.1) →
      cx.functions ps t = .ok (fs, u) →
        t.Adds u ∧ (∀ f ∈ fs, f.Typed u) ∧ fs.map Function.name = ps.map (·.signature.name)
  | [], t, u, fs, ht, _, _, h => by
    simp only [functions, Except.ok.injEq, Prod.mk.injEq] at h
    obtain ⟨rfl, rfl⟩ := h
    exact ⟨.refl ht, by simp, rfl⟩
  | p :: rest, t, u, fs, ht, hsigs, hps, h => by
    simp only [functions, bind_eq_ok, pure_eq, Except.ok.injEq, Prod.mk.injEq] at h
    obtain ⟨⟨f, v⟩, hv, ⟨fs', w⟩, hw, rfl, rfl⟩ := h
    obtain ⟨hmem, hparams⟩ := hps p List.mem_cons_self
    obtain ⟨hadds, hf, hname⟩ := function_typed ht hsigs (hsigs _ hmem) hparams hv
    obtain ⟨hadds', hfs, hnames⟩ := functions_typed rest hadds.founded (fun s hs => (hsigs s hs).mono hadds.grows)
      (fun q hq => ⟨(hps q (List.mem_cons_of_mem p hq)).1,
        fun x hx => hadds.knows ((hps q (List.mem_cons_of_mem p hq)).2 x hx)⟩) hw
    refine ⟨hadds.trans hadds', fun g hg => ?_, by rw [List.map_cons, List.map_cons, hname, hnames]⟩
    rcases List.mem_cons.mp hg with rfl | hg
    · exact hf.mono hadds'.grows
    · exact hfs g hg

end ReadContext

/-- What the checker may rely on in a program: every type that it mentions is in its table, and no two
functions that can be called have one name. -/
structure Program.Typed (p : Program) : Prop where
  founded : p.types.Founded
  functions : ∀ f ∈ p.functions, f.Typed p.types
  externs : ∀ s ∈ p.externs, s.Known p.types
  distinct : ((p.functions.map Function.signature ++ p.externs).map Signature.name).Nodup

theorem readProgram_typed {text : String} {file : Option String} {p : Program} (h : readProgram text file = .ok p) :
    p.Typed := by
  simp only [readProgram, bind_eq_ok, pure_eq, Except.ok.injEq] at h
  obtain ⟨items, _, d, hd, ⟨fs, types⟩, hf, rfl⟩ := h
  have hstart : ({} : Declarations).Typed :=
    ⟨TypeTable.founded_empty, by simp, by simp, by simp, List.nodup_nil⟩
  have htyped := foldlM_invariant Declarations.Typed (fun d x d' _ hd hx => ReadContext.item_typed hd hx) hstart hd
  obtain ⟨hadds, hfs, hnames⟩ := ReadContext.functions_typed d.functions htyped.founded htyped.signatures
    htyped.functions hf
  refine ⟨hadds.founded, hfs, fun s hs => (htyped.signatures s (htyped.externs s hs)).mono hadds.grows, ?_⟩
  have hsame : (fs.map Function.signature).map Signature.name = d.functions.map (·.signature.name) := by
    rw [List.map_map, ← hnames]
    rfl
  rw [List.map_append, hsame]
  exact htyped.distinct

theorem Function.Typed.withReturnSlot {f : Function} {t : TypeTable} (h : f.Typed t) {unit : TypeId}
    (hunit : t.Knows unit) : (f.withReturnSlot unit).Typed t := by
  refine ⟨fun id b hb => ?_, h.signature⟩
  unfold Function.withReturnSlot OrderedMap.insertNew at hb
  split at hb
  · exact h.bindings id b hb
  · rcases OrderedMap.eq_or_get?_of_insert hb with rfl | hb
    · cases hret : f.ret with
      | none => simpa [hret] using hunit
      | some ty => simpa [hret] using h.signature.ret ty hret
    · exact h.bindings id b hb

theorem Program.Typed.prepare {p : Program} (h : p.Typed) :
    p.prepare.types.Founded ∧ p.types.defs.length ≤ p.prepare.types.defs.length ∧
      ∀ f ∈ p.prepare.functions, f.Typed p.prepare.types := by
  obtain ⟨hadds, hunit⟩ := TypeTable.intern_plain h.founded (d := .unit) rfl rfl
  refine ⟨hadds.founded, hadds.grows, fun f hf => ?_⟩
  obtain ⟨f₀, hf₀, rfl⟩ := List.mem_map.mp hf
  exact ((h.functions f₀ hf₀).mono hadds.grows).withReturnSlot hunit

namespace SignatureTable

/-- Signatures of different names make up a table. -/
theorem foldlM_add : ∀ (ss : List Signature) {t : SignatureTable}, ((t.signatures ++ ss).map Signature.name).Nodup →
    ss.foldlM add t = .ok ⟨t.signatures ++ ss⟩
  | [], t, _ => by simp [pure_eq]
  | s :: ss, t, h => by
    have hfresh : t.contains s.name = false := by
      simp only [contains, get?, Option.isSome_eq_false_iff, Option.isNone_iff_eq_none, List.find?_eq_none,
        decide_eq_true_eq]
      intro r hr hname
      rw [List.map_append, List.nodup_append] at h
      exact h.2.2 _ (List.mem_map_of_mem hr) _ (List.mem_map_of_mem List.mem_cons_self) hname
    have hadd : t.add s = .ok ⟨t.signatures ++ [s]⟩ := by simp [add, hfresh]
    rw [List.foldlM_cons, hadd]
    exact (foldlM_add ss (by simpa using h)).trans (by simp)

theorem ofList_of_distinct {ss : List Signature} (h : (ss.map Signature.name).Nodup) : ofList ss = .ok ⟨ss⟩ :=
  foldlM_add ss (t := {}) h

end SignatureTable

theorem Program.Typed.signatures {p : Program} (h : p.Typed) :
    p.signatures = .ok ⟨p.functions.map Function.signature ++ p.externs⟩ :=
  SignatureTable.ofList_of_distinct h.distinct

/-- What the analyses of a function may rely on: every type that it and what it calls mention is in the table. -/
structure Context.Typed (cx : Context) : Prop where
  founded : cx.types.Founded
  function : cx.function.Typed cx.types
  signatures : ∀ s ∈ cx.signatures.signatures, s.Known cx.types

theorem Program.Typed.context {p : Program} (h : p.Typed) {table : SignatureTable} (ht : p.signatures = .ok table)
    {f : Function} (hf : f ∈ p.prepare.functions) : (p.prepare.context table f).Typed := by
  obtain ⟨hfounded, hgrows, hfunctions⟩ := h.prepare
  rw [h.signatures, Except.ok.injEq] at ht
  refine ⟨hfounded, hfunctions f hf, fun s hs => ?_⟩
  rw [Program.context, ← ht] at hs
  rcases List.mem_append.mp hs with hs | hs
  · obtain ⟨f₀, hf₀, rfl⟩ := List.mem_map.mp hs
    exact (h.functions f₀ hf₀).signature.mono hgrows
  · exact (h.externs s hs).mono hgrows

end Ownership
