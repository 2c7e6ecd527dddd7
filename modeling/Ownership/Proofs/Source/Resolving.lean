import Ownership.Proofs.Outcome
import Ownership.Proofs.TypeTable.Carrying
import Ownership.Source.Resolve.Stmt

/-!
What resolving a body leaves alone. Types are interned as they are met, but no
layout is added or changed, and the only bindings that are added are local, with
names that the body declares.
-/
namespace Ownership

open Outcome

namespace TypeTable

/-- The second table has the layouts of the first. -/
structure SameLayouts (t u : TypeTable) : Prop where
  structs : u.structs = t.structs
  enums : u.enums = t.enums

namespace SameLayouts

theorem refl (t : TypeTable) : t.SameLayouts t := ⟨rfl, rfl⟩

theorem trans {t u v : TypeTable} (h : t.SameLayouts u) (k : u.SameLayouts v) : t.SameLayouts v :=
  ⟨k.structs.trans h.structs, k.enums.trans h.enums⟩

theorem separate {t u : TypeTable} (h : t.SameLayouts u) (hsep : t.Separate) : u.Separate := by
  intro name fields arms hs he
  rw [h.structs] at hs
  rw [h.enums] at he
  exact hsep name fields arms hs he

end SameLayouts

theorem sameLayouts_of_intern (t : TypeTable) {u : TypeTable} {d : TypeDef} {id : TypeId}
    (h : t.intern d = (id, u)) : t.SameLayouts u := by
  unfold intern at h
  split at h
  · exact (Prod.mk.inj h).2 ▸ .refl t
  · exact (Prod.mk.inj h).2 ▸ ⟨rfl, rfl⟩

theorem sameLayouts_aggregate {t u : TypeTable} {k : Kind} {name : String} {region : Option String} {id : TypeId}
    (h : t.aggregate k name region = .ok (id, u)) : t.SameLayouts u := by
  unfold aggregate at h
  split at h
  · exact t.sameLayouts_of_intern (Except.ok.inj h)
  · cases h

theorem sameLayouts_markCopy (t : TypeTable) (name : String) (copy : Bool) :
    t.SameLayouts (t.markCopy name copy) := by
  cases copy <;> exact ⟨rfl, rfl⟩

/-- A name that is neither is neither after another name has been declared. -/
theorem not_isDeclared {t : TypeTable} {name : String} (h : t.isDeclared name = false) :
    t.structs.get? name = none ∧ t.enums.get? name = none := by
  simpa [isDeclared, hasStruct, hasEnum, OrderedMap.contains] using h

theorem Separate.register {t : TypeTable} (hsep : t.Separate) {name : String} (hnew : t.isDeclared name = false)
    (layout : Layout) : (t.register name layout).Separate := by
  obtain ⟨hstruct, henum⟩ := not_isDeclared hnew
  intro other fields' arms' hs he
  by_cases hname : other = name
  · cases layout with
    | struct fields => exact Option.some_ne_none arms' (he.symm.trans (hname ▸ henum))
    | enum arms => exact Option.some_ne_none fields' (hs.symm.trans (hname ▸ hstruct))
  · cases layout with
    | struct fields => exact hsep other fields' arms' ((OrderedMap.get?_insert_other _ _ hname).symm.trans hs) he
    | enum arms => exact hsep other fields' arms' hs ((OrderedMap.get?_insert_other _ _ hname).symm.trans he)

theorem separate_declare {t : TypeTable} {name : String} {layout : Layout} {copy : Bool} {u : TypeTable} {id : TypeId}
    (hsep : t.Separate) (h : t.declare name layout copy = .ok (id, u)) : u.Separate := by
  unfold declare at h
  split at h
  · cases h
  · rename_i hnew
    exact ((sameLayouts_markCopy _ name copy).trans (sameLayouts_aggregate h)).separate
      (hsep.register (Bool.eq_false_iff.mpr hnew) layout)

end TypeTable

namespace Surface

/-- The names that a pattern binds. -/
def Pattern.names : Pattern → List String
  | .wildcard => []
  | .variant _ _ fields _ => fields.filterMap fun
    | .skip => none
    | .bind _ _ name _ => some name

mutual

/-- The names that a statement declares, at any depth. -/
def Stmt.names : Stmt → List String
  | .declare name .. => [name]
  | .branch b => b.names
  | .loop body _ | .whileLoop _ body _ | .block body => body.names
  | .select _ arms _ => Arm.allNames arms
  | _ => []

def Stmt.allNames : List Stmt → List String
  | [] => []
  | x :: rest => x.names ++ Stmt.allNames rest

def Block.names : Block → List String
  | .mk statements _ => Stmt.allNames statements

def Branch.names : Branch → List String
  | .mk _ yes no _ => yes.names ++ no.names

def Alternative.names : Alternative → List String
  | .nothing => []
  | .block body => body.names
  | .branch b => b.names

def Arm.allNames : List Arm → List String
  | [] => []
  | .mk p body _ :: rest => p.names ++ body.names ++ Arm.allNames rest

end

end Surface

namespace ReadContext

variable {cx : ReadContext}

theorem ofTypes_eq_ok {α : Type} {r : Surface.Range} {x : Except TypeFault α} {a : α} :
    cx.ofTypes r x = .ok a ↔ x = .ok a := by
  cases x with
  | error f => simp [ofTypes, fail]
  | ok b => simp [ofTypes]

theorem type_sameLayouts : ∀ (ty : Surface.Ty) {t u : TypeTable} {id : TypeId},
    cx.type ty t = .ok (id, u) → t.SameLayouts u
  | .ref region mutable target _, t, u, id, h => by
    simp only [type, bind_eq_ok, pure_eq, Except.ok.injEq] at h
    obtain ⟨⟨_, v⟩, hv, h⟩ := h
    exact (type_sameLayouts target hv).trans (v.sameLayouts_of_intern h)
  | .array element _, t, u, id, h => by
    simp only [type, bind_eq_ok, pure_eq, Except.ok.injEq] at h
    obtain ⟨⟨_, v⟩, hv, h⟩ := h
    exact (type_sameLayouts element hv).trans (v.sameLayouts_of_intern h)
  | .named name region range, t, u, id, h => by
    unfold type at h
    split at h
    · exact t.sameLayouts_of_intern (Except.ok.inj h)
    split at h
    · exact t.sameLayouts_of_intern (Except.ok.inj h)
    split at h
    · exact t.sameLayouts_of_intern (Except.ok.inj h)
    split at h
    · exact TypeTable.sameLayouts_aggregate (ofTypes_eq_ok.mp h)
    split at h
    · exact TypeTable.sameLayouts_aggregate (ofTypes_eq_ok.mp h)
    · cases h

mutual

theorem expr_sameLayouts : ∀ (e : Surface.Expr) {scope : Scope} {t u : TypeTable} {out : Expr},
    cx.expr scope e t = .ok (out, u) → t.SameLayouts u
  | .int .., scope, t, u, out, h | .var .., scope, t, u, out, h => by
    unfold expr at h
    split at h
    · obtain ⟨_, rfl⟩ := Prod.mk.inj (Except.ok.inj h)
      exact .refl t
    · cases h
  | .bool .., scope, t, u, out, h | .unit .., scope, t, u, out, h => by
    simp only [expr, Except.ok.injEq, Prod.mk.injEq] at h
    exact h.2 ▸ .refl t
  | .field e .., scope, t, u, out, h | .deref e _, scope, t, u, out, h
  | .unary _ e _, scope, t, u, out, h => by
    simp only [expr, bind_eq_ok, pure_eq, Except.ok.injEq, Prod.mk.injEq] at h
    obtain ⟨⟨_, v⟩, hv, _, rfl⟩ := h
    exact expr_sameLayouts e hv
  | .index e e' _, scope, t, u, out, h | .binary _ e e' _, scope, t, u, out, h => by
    simp only [expr, bind_eq_ok, pure_eq, Except.ok.injEq, Prod.mk.injEq] at h
    obtain ⟨⟨_, v⟩, hv, ⟨_, w⟩, hw, _, rfl⟩ := h
    exact (expr_sameLayouts e hv).trans (expr_sameLayouts e' hw)
  | .borrow e _ _, scope, t, u, out, h => by
    simp only [expr, bind_eq_ok] at h
    obtain ⟨⟨_, v⟩, hv, h⟩ := h
    split at h
    · obtain ⟨_, rfl⟩ := Prod.mk.inj (Except.ok.inj h)
      exact expr_sameLayouts e hv
    · cases h
  | .call _ args _, scope, t, u, out, h => by
    simp only [expr, bind_eq_ok, pure_eq, Except.ok.injEq, Prod.mk.injEq] at h
    obtain ⟨⟨_, v⟩, hv, _, rfl⟩ := h
    exact exprs_sameLayouts args hv
  | .inject enum variant args r, scope, t, u, out, h => by
    unfold expr at h
    split at h
    · cases h
    split at h
    · cases h
    simp only [bind_eq_ok] at h
    obtain ⟨⟨_, v⟩, hv, h⟩ := h
    split at h
    · cases h
    simp only [bind_eq_ok, pure_eq, Except.ok.injEq, Prod.mk.injEq] at h
    obtain ⟨⟨_, w⟩, hw, _, rfl⟩ := h
    exact (exprs_sameLayouts args hv).trans (TypeTable.sameLayouts_aggregate (ofTypes_eq_ok.mp hw))
  | .construct struct region fields r, scope, t, u, out, h => by
    unfold expr at h
    split at h
    · cases h
    simp only [bind_eq_ok] at h
    obtain ⟨⟨_, v⟩, hv, h⟩ := h
    split at h
    · simp only [bind_eq_ok, pure_eq, Except.ok.injEq, Prod.mk.injEq] at h
      obtain ⟨⟨_, w⟩, hw, _, rfl⟩ := h
      exact (fieldInits_sameLayouts fields hv).trans (TypeTable.sameLayouts_aggregate (ofTypes_eq_ok.mp hw))
    · cases h

theorem exprs_sameLayouts : ∀ (es : List Surface.Expr) {scope : Scope} {t u : TypeTable}
    {out : List Expr}, cx.exprs scope es t = .ok (out, u) → t.SameLayouts u
  | [], scope, t, u, out, h => by
    simp only [exprs, Except.ok.injEq, Prod.mk.injEq] at h
    exact h.2 ▸ .refl t
  | e :: rest, scope, t, u, out, h => by
    simp only [exprs, bind_eq_ok, pure_eq, Except.ok.injEq, Prod.mk.injEq] at h
    obtain ⟨⟨_, v⟩, hv, ⟨_, w⟩, hw, _, rfl⟩ := h
    exact (expr_sameLayouts e hv).trans (exprs_sameLayouts rest hw)

theorem fieldInits_sameLayouts : ∀ (fields : List Surface.FieldInit) {scope : Scope} {struct : String}
    {layout : OrderedMap String TypeId} {t u : TypeTable} {out : List FieldInit},
    cx.fieldInits scope struct layout fields t = .ok (out, u) → t.SameLayouts u
  | [], scope, struct, layout, t, u, out, h => by
    simp only [fieldInits, Except.ok.injEq, Prod.mk.injEq] at h
    exact h.2 ▸ .refl t
  | .mk name value range :: rest, scope, struct, layout, t, u, out, h => by
    unfold fieldInits at h
    split at h
    · simp only [bind_eq_ok, pure_eq, Except.ok.injEq, Prod.mk.injEq] at h
      obtain ⟨⟨_, v⟩, hv, ⟨_, w⟩, hw, _, rfl⟩ := h
      exact (expr_sameLayouts value hv).trans (fieldInits_sameLayouts rest hw)
    · cases h

end

theorem partType_sameLayouts {r : Surface.Range} {t u : TypeTable} {base id : TypeId}
    {part : Except TypeFault (Option TypeId)} (h : cx.partType r t base part = .ok (id, u)) :
    t.SameLayouts u := by
  simp only [partType, bind_eq_ok] at h
  obtain ⟨ty, _, h⟩ := h
  split at h
  · obtain ⟨_, rfl⟩ := Prod.mk.inj (Except.ok.inj h)
    exact .refl t
  · simp [fail] at h

theorem typeOf_sameLayouts {bindings : Bindings} {r : Surface.Range} :
    ∀ (e : Expr) {t u : TypeTable} {id : TypeId}, cx.typeOf bindings r e t = .ok (id, u) →
      t.SameLayouts u
  | .var _ id _, t, u, ty, h => by
    unfold typeOf at h
    split at h
    · obtain ⟨_, rfl⟩ := Prod.mk.inj (Except.ok.inj h)
      exact .refl t
    · cases h
  | .field e .., t, u, ty, h | .index e _ _, t, u, ty, h | .deref e _, t, u, ty, h
  | .payload e .., t, u, ty, h => by
    simp only [typeOf, bind_eq_ok] at h
    obtain ⟨⟨_, v⟩, hv, h⟩ := h
    exact (typeOf_sameLayouts e hv).trans (partType_sameLayouts h)
  | .borrow e _ _, t, u, ty, h => by
    simp only [typeOf, bind_eq_ok, pure_eq, Except.ok.injEq] at h
    obtain ⟨⟨_, v⟩, hv, h⟩ := h
    exact (typeOf_sameLayouts e hv).trans (v.sameLayouts_of_intern h)
  | .int .., t, u, ty, h | .bool .., t, u, ty, h | .unit .., t, u, ty, h => by
    simp only [typeOf, Except.ok.injEq] at h
    exact t.sameLayouts_of_intern h
  | .unary .., t, u, ty, h | .binary .., t, u, ty, h => by
    simp only [typeOf, Except.ok.injEq] at h
    split at h <;> exact t.sameLayouts_of_intern h
  | .call callee args _, t, u, ty, h => by
    unfold typeOf at h
    split at h
    · exact t.sameLayouts_of_intern (Except.ok.inj h)
    · rename_i signature _
      have hret := Except.ok.inj h
      cases hs : signature.ret with
      | none =>
        rw [hs] at hret
        exact t.sameLayouts_of_intern hret
      | some ty =>
        rw [hs] at hret
        exact (Prod.mk.inj hret).2 ▸ .refl t
  | .construct .., t, u, ty, h | .inject .., t, u, ty, h => by
    simp only [typeOf, Except.ok.injEq, Prod.mk.injEq] at h
    exact h.2 ▸ .refl t
  | .foreign, t, u, ty, h => by cases h

namespace BodyState

/-- Reading went on: layouts and earlier bindings are the same, and only local bindings were added. -/
structure Extends (s s' : BodyState) : Prop where
  layouts : s.types.SameLayouts s'.types
  bindings : ∀ id b, s'.bindings.get? id = some b → s.bindings.get? id = some b ∨ b.kind = .localVar
  next : s.next ≤ s'.next
  kept : ∀ id, id < s.next → s'.bindings.get? id = s.bindings.get? id

/-- Reading went on, and the bindings that were added have these names. -/
structure Declares (s : BodyState) (names : List String) (s' : BodyState) : Prop extends s.Extends s' where
  named : ∀ id b, s'.bindings.get? id = some b → s.bindings.get? id = some b ∨ b.name ∈ names

/-- Only the types changed, and their layouts did not. -/
def Retypes (s s' : BodyState) : Prop := ∃ t, s.types.SameLayouts t ∧ s' = { s with types := t }

variable {s s' s'' : BodyState}

theorem Extends.trans (h : s.Extends s') (k : s'.Extends s'') : s.Extends s'' :=
  ⟨h.layouts.trans k.layouts, fun id b hb => (k.bindings id b hb).elim (h.bindings id b) .inr,
    Int.le_trans h.next k.next,
    fun id hid => (k.kept id (Int.lt_of_lt_of_le hid h.next)).trans (h.kept id hid)⟩

theorem Retypes.refl (s : BodyState) : s.Retypes s := ⟨s.types, .refl _, rfl⟩

theorem Retypes.next (h : s.Retypes s') : s.next = s'.next := by
  obtain ⟨_, _, rfl⟩ := h
  rfl

theorem Retypes.declares (h : s.Retypes s') (names : List String) : s.Declares names s' := by
  obtain ⟨_, ht, rfl⟩ := h
  exact ⟨⟨ht, fun _ _ hb => .inl hb, Int.le_refl _, fun _ _ => rfl⟩, fun _ _ hb => .inl hb⟩

namespace Declares

theorem refl (s : BodyState) (names : List String) : s.Declares names s := (Retypes.refl s).declares names

theorem append {xs ys : List String} (h : s.Declares xs s') (k : s'.Declares ys s'') : s.Declares (xs ++ ys) s'' := by
  refine ⟨h.toExtends.trans k.toExtends, fun id b hb => ?_⟩
  rcases k.named id b hb with hb | hname
  · exact (h.named id b hb).imp_right (List.mem_append_left _)
  · exact .inr (List.mem_append_right _ hname)

/-- Types may change first. -/
theorem after {xs : List String} (h : s.Retypes s') (k : s'.Declares xs s'') : s.Declares xs s'' :=
  (h.declares []).append k

theorem declare (s : BodyState) (name : String) (ty : TypeId) (loc : Span) :
    s.Declares [name] (s.declare name ty .localVar loc).2 := by
  have hnew : ∀ id b, (s.declare name ty .localVar loc).2.bindings.get? id = some b →
      s.bindings.get? id = some b ∨ b.kind = .localVar ∧ b.name = name := by
    intro id b hb
    by_cases hid : id = s.next
    · right
      simp only [BodyState.declare, hid, OrderedMap.get?_insert_self, Option.some.injEq] at hb
      rw [← hb]
      exact ⟨rfl, rfl⟩
    · exact .inl (by simpa [BodyState.declare, OrderedMap.get?_insert_other _ _ hid] using hb)
  refine ⟨⟨.refl _, fun id b hb => (hnew id b hb).imp_right And.left,
    Int.le_add_one (Int.le_refl _), fun id hid => OrderedMap.get?_insert_other _ _ (Int.ne_of_lt hid)⟩, ?_⟩
  exact fun id b hb => (hnew id b hb).imp_right fun h => List.mem_singleton.mpr h.2

end Declares

end BodyState

open BodyState (Declares Retypes)

theorem stateExpr_retypes {scope : Scope} {e : Surface.Expr} {s s' : BodyState} {out : Expr}
    (h : cx.stateExpr scope e s = .ok (out, s')) : s.Retypes s' := by
  simp only [stateExpr, map_eq_ok] at h
  obtain ⟨⟨_, t⟩, ht, h⟩ := h
  obtain ⟨_, rfl⟩ := Prod.mk.inj h
  exact ⟨t, expr_sameLayouts e ht, rfl⟩

theorem optionalExpr_retypes {scope : Scope} {e : Option Surface.Expr} {s s' : BodyState}
    {out : Option Expr} (h : cx.optionalExpr scope e s = .ok (out, s')) : s.Retypes s' := by
  cases e with
  | none =>
    obtain ⟨_, rfl⟩ := Prod.mk.inj (Except.ok.inj h)
    exact .refl s
  | some e =>
    simp only [optionalExpr, map_eq_ok] at h
    obtain ⟨⟨_, s₁⟩, hs, h⟩ := h
    obtain ⟨_, rfl⟩ := Prod.mk.inj h
    exact stateExpr_retypes hs

theorem optionalType_retypes {ty : Option Surface.Ty} {s s' : BodyState} {out : Option TypeId}
    (h : cx.optionalType ty s = .ok (out, s')) : s.Retypes s' := by
  cases ty with
  | none =>
    obtain ⟨_, rfl⟩ := Prod.mk.inj (Except.ok.inj h)
    exact .refl s
  | some ty =>
    simp only [optionalType, map_eq_ok] at h
    obtain ⟨⟨_, t⟩, ht, h⟩ := h
    obtain ⟨_, rfl⟩ := Prod.mk.inj h
    exact ⟨t, type_sameLayouts ty ht, rfl⟩

theorem declaredType_retypes {name : String} {ty : Option TypeId} {value : Option Expr} {r : Surface.Range}
    {s s' : BodyState} {out : TypeId} (h : cx.declaredType name ty value r s = .ok (out, s')) :
    s.Retypes s' := by
  unfold declaredType at h
  split at h
  · obtain ⟨_, rfl⟩ := Prod.mk.inj (Except.ok.inj h)
    exact .refl s
  · simp only [map_eq_ok] at h
    obtain ⟨⟨_, t⟩, ht, h⟩ := h
    obtain ⟨_, rfl⟩ := Prod.mk.inj h
    exact ⟨t, typeOf_sameLayouts _ ht, rfl⟩
  · cases h

theorem declaration_declares {scope : Scope} {name : String} {ty : Option Surface.Ty}
    {value : Option Surface.Expr} {r : Surface.Range} {s s' : BodyState} {out : Stmt}
    (h : cx.declaration scope name ty value r s = .ok (out, s')) : s.Declares [name] s' := by
  simp only [declaration, bind_eq_ok, pure_eq, Except.ok.injEq, Prod.mk.injEq] at h
  obtain ⟨⟨_, s₁⟩, h₁, ⟨_, s₂⟩, h₂, ⟨ty', s₃⟩, h₃, _, rfl⟩ := h
  exact .after (optionalType_retypes h₁) (.after (optionalExpr_retypes h₂) (.after (declaredType_retypes h₃)
    (.declare s₃ name ty' _)))

theorem matchedEnum_retypes {scrutinee : Expr} {r : Surface.Range} {s s' : BodyState}
    {out : String × OrderedMap String (List TypeId)}
    (h : cx.matchedEnum scrutinee r s = .ok (out, s')) : s.Retypes s' := by
  unfold matchedEnum at h
  split at h
  · simp only [bind_eq_ok] at h
    obtain ⟨⟨_, t⟩, ht, d, _, h⟩ := h
    split at h
    · simp only [bind_eq_ok, pure_eq, Except.ok.injEq, Prod.mk.injEq] at h
      obtain ⟨_, _, _, rfl⟩ := h
      exact ⟨t, typeOf_sameLayouts scrutinee ht, rfl⟩
    · simp [fail] at h
  · cases h

theorem payloadBindings_declares (cx : ReadContext) (i : Nat) (fields : List Surface.SubPattern)
    (payload : List TypeId) (s : BodyState) (enum : Option String) (variant : String) (r : Surface.Range) :
    s.Declares (Surface.Pattern.variant enum variant fields r).names (cx.payloadBindings i fields payload s).2 := by
  induction fields generalizing i payload s with
  | nil => exact .refl s _
  | cons field fields ih =>
    cases payload with
    | nil => cases field <;> exact .refl s _
    | cons ty payload =>
      cases field with
      | skip => exact ih (i + 1) payload s
      | bind byRef mutable name r =>
        have htypes : s.types.SameLayouts
            (if byRef then s.types.ref ty mutable none else (ty, s.types)).2 := by
          split
          · exact s.types.sameLayouts_of_intern rfl
          · exact .refl _
        exact .after ⟨_, htypes, rfl⟩ ((Declares.declare _ name _ _).append (ih (i + 1) payload _))

theorem pattern_declares {enum : String} {arms : OrderedMap String (List TypeId)} {p : Surface.Pattern}
    {s s' : BodyState} {out : Option String × List PayloadBinding}
    (h : cx.pattern enum arms p s = .ok (out, s')) : s.Declares p.names s' := by
  cases p with
  | wildcard =>
    obtain ⟨_, rfl⟩ := Prod.mk.inj (Except.ok.inj h)
    exact .refl s _
  | variant written variant fields r =>
    simp only [pattern] at h
    split at h
    all_goals
      repeat
        split at h
        · cases h
      obtain ⟨_, rfl⟩ := Prod.mk.inj (Except.ok.inj h)
      exact cx.payloadBindings_declares 0 fields _ s _ _ _

mutual

theorem stmt_declares : ∀ (x : Surface.Stmt) {scope : Scope} {s s' : BodyState} {out : Stmt},
    cx.stmt scope x s = .ok (out, s') → s.Declares x.names s'
  | .declare name ty value r, scope, s, s', out, h => by
    simp only [stmt] at h
    exact declaration_declares h
  | .assign target value r, scope, s, s', out, h => by
    simp only [stmt, bind_eq_ok] at h
    obtain ⟨⟨_, s₁⟩, h₁, h⟩ := h
    split at h
    · simp only [bind_eq_ok, pure_eq, Except.ok.injEq, Prod.mk.injEq] at h
      obtain ⟨⟨_, s₂⟩, h₂, _, rfl⟩ := h
      exact .after (stateExpr_retypes h₁) ((stateExpr_retypes h₂).declares _)
    · cases h
  | .eval e r, scope, s, s', out, h => by
    simp only [stmt, bind_eq_ok, pure_eq, Except.ok.injEq, Prod.mk.injEq] at h
    obtain ⟨⟨_, s₁⟩, h₁, _, rfl⟩ := h
    exact (stateExpr_retypes h₁).declares _
  | .branch b, scope, s, s', out, h => by
    simp only [stmt] at h
    exact branch_declares b h
  | .loop body r, scope, s, s', out, h | .block body, scope, s, s', out, h => by
    simp only [stmt, bind_eq_ok, pure_eq, Except.ok.injEq, Prod.mk.injEq] at h
    obtain ⟨⟨_, s₁⟩, h₁, _, rfl⟩ := h
    exact block_declares body h₁
  | .whileLoop cond body r, scope, s, s', out, h => by
    simp only [stmt, bind_eq_ok, pure_eq, Except.ok.injEq, Prod.mk.injEq] at h
    obtain ⟨⟨_, s₁⟩, h₁, ⟨_, s₂⟩, h₂, _, rfl⟩ := h
    exact .after (stateExpr_retypes h₁) (block_declares body h₂)
  | .breakLoop r, scope, s, s', out, h | .continueLoop r, scope, s, s', out, h => by
    simp only [stmt, Except.ok.injEq, Prod.mk.injEq] at h
    exact h.2 ▸ .refl s _
  | .ret value r, scope, s, s', out, h => by
    simp only [stmt, bind_eq_ok, pure_eq, Except.ok.injEq, Prod.mk.injEq] at h
    obtain ⟨⟨_, s₁⟩, h₁, _, rfl⟩ := h
    exact (optionalExpr_retypes h₁).declares _
  | .select scrutinee arms r, scope, s, s', out, h => by
    simp only [stmt, bind_eq_ok, pure_eq, Except.ok.injEq, Prod.mk.injEq] at h
    obtain ⟨⟨_, s₁⟩, h₁, ⟨_, s₂⟩, h₂, ⟨_, s₃⟩, h₃, _, rfl⟩ := h
    exact .after (stateExpr_retypes h₁) (.after (matchedEnum_retypes h₂) (arms_declares arms h₃))

theorem stmts_declares : ∀ (xs : List Surface.Stmt) {scope : Scope} {s s' : BodyState} {out : List Stmt},
    cx.stmts scope xs s = .ok (out, s') → s.Declares (Surface.Stmt.allNames xs) s'
  | [], scope, s, s', out, h => by
    simp only [stmts, Except.ok.injEq, Prod.mk.injEq] at h
    exact h.2 ▸ .refl s _
  | x :: rest, scope, s, s', out, h => by
    simp only [stmts, bind_eq_ok, pure_eq, Except.ok.injEq, Prod.mk.injEq] at h
    obtain ⟨⟨_, s₁⟩, h₁, ⟨_, s₂⟩, h₂, _, rfl⟩ := h
    exact (stmt_declares x h₁).append (stmts_declares rest h₂)

theorem block_declares : ∀ (body : Surface.Block) {scope : Scope} {s s' : BodyState} {out : Block},
    cx.block scope body s = .ok (out, s') → s.Declares body.names s'
  | .mk statements r, scope, s, s', out, h => by
    simp only [block, bind_eq_ok, pure_eq, Except.ok.injEq, Prod.mk.injEq] at h
    obtain ⟨⟨_, s₁⟩, h₁, _, rfl⟩ := h
    exact stmts_declares statements h₁

theorem branch_declares : ∀ (b : Surface.Branch) {scope : Scope} {s s' : BodyState} {out : Stmt},
    cx.branch scope b s = .ok (out, s') → s.Declares b.names s'
  | .mk cond yes no r, scope, s, s', out, h => by
    simp only [branch, bind_eq_ok, pure_eq, Except.ok.injEq, Prod.mk.injEq] at h
    obtain ⟨⟨_, s₁⟩, h₁, ⟨_, s₂⟩, h₂, ⟨_, s₃⟩, h₃, _, rfl⟩ := h
    exact .after (stateExpr_retypes h₁) ((block_declares yes h₂).append (alternative_declares no h₃))

theorem alternative_declares : ∀ (a : Surface.Alternative) {scope : Scope} {s s' : BodyState}
    {out : Option Block}, cx.alternative scope a s = .ok (out, s') → s.Declares a.names s'
  | .nothing, scope, s, s', out, h => by
    simp only [alternative, Except.ok.injEq, Prod.mk.injEq] at h
    exact h.2 ▸ .refl s _
  | .block body, scope, s, s', out, h => by
    simp only [alternative, bind_eq_ok, pure_eq, Except.ok.injEq, Prod.mk.injEq] at h
    obtain ⟨⟨_, s₁⟩, h₁, _, rfl⟩ := h
    exact block_declares body h₁
  | .branch b, scope, s, s', out, h => by
    simp only [alternative, bind_eq_ok, pure_eq, Except.ok.injEq, Prod.mk.injEq] at h
    obtain ⟨⟨_, s₁⟩, h₁, _, rfl⟩ := h
    exact branch_declares b h₁

theorem arms_declares : ∀ (as : List Surface.Arm) {scope : Scope} {enum : String}
    {layout : OrderedMap String (List TypeId)} {s s' : BodyState} {out : List Arm},
    cx.arms scope enum layout as s = .ok (out, s') → s.Declares (Surface.Arm.allNames as) s'
  | [], scope, enum, layout, s, s', out, h => by
    simp only [arms, Except.ok.injEq, Prod.mk.injEq] at h
    exact h.2 ▸ .refl s _
  | .mk p body r :: rest, scope, enum, layout, s, s', out, h => by
    simp only [arms, bind_eq_ok, pure_eq, Except.ok.injEq, Prod.mk.injEq] at h
    obtain ⟨⟨_, s₁⟩, h₁, ⟨_, s₂⟩, h₂, ⟨_, s₃⟩, h₃, _, rfl⟩ := h
    exact ((pattern_declares h₁).append (block_declares body h₂)).append (arms_declares rest h₃)

end

end ReadContext

end Ownership
