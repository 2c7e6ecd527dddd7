import Ownership.Proofs.Effect.Collected

/-!
Where the accesses of a point come from. Each one is of a place that some
expression spells, of a typed place, and its root is a variable that occurs in
an expression of the point; only the accesses that begin or end a binding need
no such occurrence.
-/
namespace Ownership

open Outcome

namespace Expr

mutual

/-- The bindings that occur in an expression, from left to right. -/
def vars : Expr → List BindingId
  | var _ id _ => [id]
  | field subject _ _ | deref subject _ | payload subject _ _ _ | borrow subject _ _ => subject.vars
  | index subject position _ => subject.vars ++ position.vars
  | int _ _ | bool _ _ | unit _ | foreign => []
  | unary _ operand _ => operand.vars
  | binary _ left right _ => left.vars ++ right.vars
  | call _ args _ | inject _ _ args _ => varsAll args
  | construct _ fields _ => fieldVars fields

def varsAll : List Expr → List BindingId
  | [] => []
  | e :: rest => e.vars ++ varsAll rest

def fieldVars : List FieldInit → List BindingId
  | [] => []
  | .mk _ e :: rest => e.vars ++ fieldVars rest

end

end Expr

/-- Some expression denotes the place, so a downcast is always followed by a field. -/
def Place.Spelled (p : Place) : Prop := ∃ e, Place.ofExpr? e = some p

theorem Place.spelled_root (id : BindingId) (name : String) : Place.Spelled { root := id, name := name } :=
  ⟨.var name id {}, rfl⟩

/-- The root of a place occurs in every expression that denotes it. -/
theorem Place.root_mem_vars {e : Expr} {p : Place} (h : Place.ofExpr? e = some p) : p.root ∈ e.vars := by
  fun_induction Place.ofExpr? e generalizing p with
  | case1 name id =>
    obtain rfl := Option.some.inj h
    exact List.mem_singleton_self id
  | case2 subject name loc ih | case5 subject loc ih | case6 subject variant field loc ih =>
    obtain ⟨q, hq, rfl⟩ := Option.map_eq_some_iff.mp h
    exact ih (p := q) hq
  | case3 subject i l loc ih | case4 subject position loc _ ih =>
    obtain ⟨q, hq, rfl⟩ := Option.map_eq_some_iff.mp h
    exact List.mem_append_left _ (ih (p := q) hq)
  | case7 => cases h

/-- What has been collected beyond `w` are accesses of spelled places with roots among `ids`. -/
def Walk.Touches (w : Walk) (ids : List BindingId) (w' : Walk) : Prop :=
  ∀ a ∈ w'.effects.accesses, a ∈ w.effects.accesses ∨ (a.place.root ∈ ids ∧ a.place.Spelled)

namespace Walk.Touches

variable {w w' u : Walk} {ids more : List BindingId}

theorem refl (w : Walk) (ids : List BindingId) : w.Touches ids w := fun _ ha => .inl ha

theorem mono (h : w.Touches ids w') (hsub : ids ⊆ more) : w.Touches more w' :=
  fun a ha => (h a ha).imp_right fun hp => ⟨hsub hp.1, hp.2⟩

theorem trans (h : w.Touches ids w') (k : w'.Touches ids u) : w.Touches ids u := by
  intro a ha
  rcases k a ha with ha | hp
  · exact h a ha
  · exact .inr hp

theorem append (h : w.Touches ids w') (k : w'.Touches more u) : w.Touches (ids ++ more) u :=
  (h.mono (List.subset_append_left ids more)).trans (k.mono (List.subset_append_right ids more))

theorem record (h : w.Touches ids w') {a : Access} (hroot : a.place.root ∈ ids) (hp : a.place.Spelled) :
    w.Touches ids (w'.record a) := by
  intro b hb
  rcases List.mem_append.mp hb with hb | hb
  · exact h b hb
  · rw [List.mem_singleton.mp hb]
    exact .inr ⟨hroot, hp⟩

/-- Only the accesses count. -/
theorem of_accesses (h : w.Touches ids w') (he : u.effects.accesses = w'.effects.accesses) :
    w.Touches ids u :=
  fun a ha => h a (he ▸ ha)

end Walk.Touches

namespace Context

variable {cx : Context}

theorem ofExpr_of_placeOf {e : Expr} {place : Place} (h : placeOf e = .ok place) : Place.ofExpr? e = some place := by
  unfold placeOf at h
  cases hp : Place.ofExpr? e with
  | none => simp [hp] at h
  | some q =>
    simp only [hp, Option.elim_some, Except.ok.injEq] at h
    rw [h]

/-- A use of the place that an expression denotes, after its positions. -/
theorem usePlace_touches {w u w' : Walk} {e : Expr} {place : Place} {span : Span} {v : Value}
    (hplace : placeOf e = .ok place) (h : w.Touches e.vars u)
    (hu : cx.usePlace place span u = .ok (v, w')) : w.Touches e.vars w' := by
  simp only [usePlace, bind_eq_ok, pure_eq, Except.ok.injEq, Prod.mk.injEq] at hu
  obtain ⟨ty, _, copy, _, carries, _, _, rfl⟩ := hu
  have hp := ofExpr_of_placeOf hplace
  exact h.record (Place.root_mem_vars hp) ⟨e, hp⟩

theorem borrow_touches {w u w' : Walk} {e : Expr} {place : Place} {mutable : Bool} {span : Span} {v : Value}
    (hplace : Place.ofExpr? e = some place) (h : w.Touches e.vars u)
    (hb : cx.borrow place mutable span u = .ok (v, w')) : w.Touches e.vars w' := by
  simp only [borrow, access, bind_eq_ok, pure_eq, Except.ok.injEq, Prod.mk.injEq] at hb
  obtain ⟨_, ⟨_, _, rfl⟩, _, rfl⟩ := hb
  exact (h.of_accesses (u := u.nextSite) rfl).record (Place.root_mem_vars hplace) ⟨e, hplace⟩

theorem recordCall_touches {w u w' : Walk} {ids : List BindingId} {signature : Signature}
    {args : List Value} {span : Span} {v : Value} (h : w.Touches ids u)
    (hc : cx.recordCall signature args span u = .ok (v, w')) : w.Touches ids w' := by
  simp only [recordCall, bind_eq_ok, pure_eq, Except.ok.injEq, Prod.mk.injEq] at hc
  obtain ⟨_, _, _, rfl⟩ := hc
  exact h.of_accesses rfl

theorem aggregate_touches {w u : Walk} {ids : List BindingId} (h : w.Touches ids u) (parts : List Value) :
    w.Touches ids (u.aggregate parts).2 := by
  refine h.of_accesses ?_
  unfold Walk.aggregate
  simp only
  split <;> rfl

mutual

/-- Evaluating an expression touches nothing but its variables. -/
theorem operand_touches : ∀ (e : Expr) {span : Span} {w w' : Walk} {v : Value},
    cx.operand e span w = .ok (v, w') → w.Touches e.vars w'
  | .var .., _, w, w', v, ho => by
    simp only [operand, bind_eq_ok] at ho
    obtain ⟨place, hplace, hu⟩ := ho
    exact usePlace_touches hplace (.refl w _) hu
  | .field subject .., _, w, w', v, ho | .deref subject .., _, w, w', v, ho
  | .payload subject .., _, w, w', v, ho => by
    simp only [operand, bind_eq_ok] at ho
    obtain ⟨place, hplace, u, hpos, hu⟩ := ho
    exact usePlace_touches hplace (positions_touches subject hpos) hu
  | .index subject position _, _, w, w', v, ho => by
    simp only [operand, bind_eq_ok] at ho
    obtain ⟨place, hplace, u, hpos, ⟨_, t⟩, hop, hu⟩ := ho
    exact usePlace_touches hplace ((positions_touches subject hpos).append (operand_touches position hop)) hu
  | .borrow subject _ _, _, w, w', v, ho => by
    simp only [operand] at ho
    split at ho
    · simp at ho
    · rename_i place hplace
      simp only [bind_eq_ok] at ho
      obtain ⟨u, hpos, hb⟩ := ho
      exact borrow_touches (e := subject) hplace (positions_touches subject hpos) hb
  | .int .., _, w, w', v, ho | .bool .., _, w, w', v, ho | .unit _, _, w, w', v, ho => by
    simp only [operand, Except.ok.injEq, Prod.mk.injEq] at ho
    obtain ⟨_, rfl⟩ := ho
    exact .refl w _
  | .unary _ inner _, _, w, w', v, ho => by
    simp only [operand, bind_eq_ok, pure_eq, Except.ok.injEq, Prod.mk.injEq] at ho
    obtain ⟨⟨_, u⟩, hop, _, rfl⟩ := ho
    exact operand_touches inner hop
  | .binary _ left right _, _, w, w', v, ho => by
    simp only [operand, bind_eq_ok, pure_eq, Except.ok.injEq, Prod.mk.injEq] at ho
    obtain ⟨⟨_, u⟩, hl, ⟨_, t⟩, hr, _, rfl⟩ := ho
    exact (operand_touches left hl).append (operand_touches right hr)
  | .call _ args _, _, w, w', v, ho => by
    simp only [operand, bind_eq_ok] at ho
    obtain ⟨signature, _, ⟨values, u⟩, hargs, hc⟩ := ho
    exact recordCall_touches (operands_touches args hargs) hc
  | .construct _ fields _, _, w, w', v, ho => by
    simp only [operand, bind_eq_ok, pure_eq, Except.ok.injEq] at ho
    obtain ⟨⟨values, u⟩, hf, he⟩ := ho
    have ht := aggregate_touches (fieldOperands_touches fields hf) values
    rw [he] at ht
    exact ht
  | .inject _ _ args _, _, w, w', v, ho => by
    simp only [operand, bind_eq_ok, pure_eq, Except.ok.injEq] at ho
    obtain ⟨⟨values, u⟩, hf, he⟩ := ho
    have ht := aggregate_touches (operands_touches args hf) values
    rw [he] at ht
    exact ht
  | .foreign, _, w, w', v, ho => by simp [operand] at ho

theorem operands_touches : ∀ (es : List Expr) {span : Span} {w w' : Walk} {values : List Value},
    cx.operands es span w = .ok (values, w') → w.Touches (Expr.varsAll es) w'
  | [], _, w, w', values, ho => by
    simp only [operands, Except.ok.injEq, Prod.mk.injEq] at ho
    obtain ⟨_, rfl⟩ := ho
    exact .refl w _
  | e :: rest, _, w, w', values, ho => by
    simp only [operands, bind_eq_ok, pure_eq, Except.ok.injEq, Prod.mk.injEq] at ho
    obtain ⟨⟨_, u⟩, he, ⟨_, t⟩, hrest, _, rfl⟩ := ho
    exact (operand_touches e he).append (operands_touches rest hrest)

theorem fieldOperands_touches : ∀ (fields : List FieldInit) {span : Span} {w w' : Walk}
    {values : List Value}, cx.fieldOperands fields span w = .ok (values, w') →
    w.Touches (Expr.fieldVars fields) w'
  | [], _, w, w', values, ho => by
    simp only [fieldOperands, Except.ok.injEq, Prod.mk.injEq] at ho
    obtain ⟨_, rfl⟩ := ho
    exact .refl w _
  | .mk _ e :: rest, _, w, w', values, ho => by
    simp only [fieldOperands, bind_eq_ok, pure_eq, Except.ok.injEq, Prod.mk.injEq] at ho
    obtain ⟨⟨_, u⟩, he, ⟨_, t⟩, hrest, _, rfl⟩ := ho
    exact (operand_touches e he).append (fieldOperands_touches rest hrest)

theorem positions_touches : ∀ (e : Expr) {span : Span} {w w' : Walk},
    cx.positions e span w = .ok w' → w.Touches e.vars w'
  | .field subject _ _, _, w, w', ho | .deref subject _, _, w, w', ho
  | .payload subject _ _ _, _, w, w', ho => by
    simp only [positions] at ho
    exact positions_touches subject ho
  | .index subject position _, _, w, w', ho => by
    simp only [positions, bind_eq_ok, pure_eq, Except.ok.injEq] at ho
    obtain ⟨u, hpos, ⟨_, t⟩, hop, rfl⟩ := ho
    exact (positions_touches subject hpos).append (operand_touches position hop)
  | .var .., _, w, w', ho | .borrow .., _, w, w', ho | .int .., _, w, w', ho
  | .bool .., _, w, w', ho | .unit .., _, w, w', ho | .unary .., _, w, w', ho
  | .binary .., _, w, w', ho | .call .., _, w, w', ho | .construct .., _, w, w', ho
  | .inject .., _, w, w', ho | .foreign, _, w, w', ho => by
    simp only [positions, Except.ok.injEq] at ho
    subst ho
    exact .refl w _

end

end Context

namespace Stmt

/-- The bindings that occur in the expressions of a statement of a block; what it declares does not. -/
def uses : Stmt → List BindingId
  | declare _ _ (some value) _ => value.vars
  | assign target value _ => value.vars ++ target.vars
  | eval expr _ => expr.vars
  | _ => []

end Stmt

def Terminator.uses (t : Terminator) : List BindingId :=
  t.cond.elim [] Expr.vars ++ t.scrutinee.elim [] Expr.vars

/-- The bindings that occur at a point. -/
def Graph.usesAt (g : Graph) (p : Point) : List BindingId :=
  match g.statementAt p with
  | some s => s.uses
  | none => (g.block p.block).terminator.elim [] Terminator.uses

/-- An access begins or ends a whole binding. -/
def Access.isScoping (a : Access) : Bool := a.kind = .init || a.kind = .declare || a.kind = .storageDead

/-- An access of a typed place that some expression spells, with a root among `ids` unless it
begins or ends a binding. -/
structure Access.Placed (cx : Context) (ids : List BindingId) (a : Access) : Prop where
  typed : ∃ ty, cx.PlaceType a.place ty
  spelled : a.place.Spelled
  occurs : a.isScoping = false → a.place.root ∈ ids

namespace Context

variable {cx : Context} {p : Point} {w : Walk}

/-- Evaluation from the start of a point makes placed accesses only. -/
theorem placed_of_touches {ids : List BindingId} (hw : w.Evaluated cx)
    (h : Walk.Touches { point := p } ids w) : ∀ a ∈ w.effects.accesses, a.Placed cx ids := by
  intro a ha
  obtain ⟨hroot, hspelled⟩ := (h a ha).resolve_left (by simp)
  exact ⟨(hw.uses a ha).typed, hspelled, fun _ => hroot⟩

theorem placed_record {ids : List BindingId} {a : Access} (hw : ∀ b ∈ w.effects.accesses, b.Placed cx ids)
    (ha : a.Placed cx ids) : ∀ b ∈ (w.record a).effects.accesses, b.Placed cx ids := by
  intro b hb
  rcases List.mem_append.mp hb with hb | hb
  · exact hw b hb
  · rw [List.mem_singleton.mp hb]
    exact ha

theorem statement_placed {s : Stmt} (h : cx.statement { point := p } s = .ok w) :
    ∀ a ∈ w.effects.accesses, a.Placed cx s.uses := by
  have hstart := cx.evaluated_start p
  have hnone : ∀ {ids}, ∀ a ∈ ({ point := p } : Walk).effects.accesses, a.Placed cx ids := by simp
  cases s with
  | storageDead id name loc =>
    simp only [statement, Function.binding, bind_eq_ok, pure_eq, Except.ok.injEq] at h
    obtain ⟨b, hb, rfl⟩ := h
    split at hb
    · rename_i b' hget
      exact placed_record hnone ⟨⟨_, cx.placeType_root hget name⟩, Place.spelled_root id name,
        by simp [Access.isScoping]⟩
    · cases hb
  | declare name id value loc =>
    cases value with
    | none =>
      simp only [statement, access, bind_eq_ok, pure_eq, Except.ok.injEq] at h
      obtain ⟨ty, hty, rfl⟩ := h
      exact placed_record hnone ⟨⟨ty, loc, hty⟩, Place.spelled_root id name, by simp [Access.isScoping]⟩
    | some e =>
      simp only [statement, access, bind_eq_ok, pure_eq, Except.ok.injEq] at h
      obtain ⟨⟨v, u⟩, ho, _, ⟨ty, hty, rfl⟩, rfl⟩ := h
      have hu := placed_of_touches (operand_yields e hstart ho).evaluated (operand_touches e ho)
      exact placed_record hu ⟨⟨ty, loc, hty⟩, Place.spelled_root id name, by simp [Access.isScoping]⟩
  | assign target value loc =>
    simp only [statement] at h
    split at h
    · simp at h
    · rename_i dest hdest
      simp only [access, bind_eq_ok, pure_eq, Except.ok.injEq] at h
      obtain ⟨⟨v, u⟩, ho, t, ht, _, ⟨ty, hty, rfl⟩, rfl⟩ := h
      have hy := operand_yields value hstart ho
      have hu := placed_of_touches (positions_yields target hy.evaluated ht).evaluated
        ((operand_touches value ho).append (positions_touches target ht))
      exact placed_record hu ⟨⟨ty, _, hty⟩, ⟨target, hdest⟩,
        fun _ => List.mem_append_right _ (Place.root_mem_vars hdest)⟩
  | eval e loc =>
    simp only [statement, bind_eq_ok, pure_eq, Except.ok.injEq] at h
    obtain ⟨⟨v, u⟩, ho, rfl⟩ := h
    exact placed_of_touches (operand_yields e hstart ho).evaluated (operand_touches e ho)
  | block | branch | loop | breakLoop | continueLoop | ret | select | foreign =>
    simp [statement] at h

theorem terminator_placed {t : Terminator} (h : cx.terminator { point := p } t = .ok w) :
    ∀ a ∈ w.effects.accesses, a.Placed cx t.uses := by
  have hstart := cx.evaluated_start p
  unfold terminator at h
  split at h
  · rename_i cond _ hcond
    simp only [bind_eq_ok, pure_eq, Except.ok.injEq] at h
    obtain ⟨⟨v, u⟩, ho, rfl⟩ := h
    refine placed_of_touches (operand_yields _ hstart ho).evaluated ((operand_touches _ ho).mono ?_)
    simp [Terminator.uses, hcond]
  · rename_i scrutinee _ hscrutinee
    unfold inspect at h
    split at h
    · simp at h
    · rename_i place hplace
      simp only [access, bind_eq_ok, pure_eq, Except.ok.injEq] at h
      obtain ⟨u, hu, ty, hty, rfl⟩ := h
      have hsub : scrutinee.vars ⊆ t.uses := by simp [Terminator.uses, hscrutinee]
      have hpos := placed_of_touches (positions_yields _ hstart hu).evaluated
        ((positions_touches _ hu).mono hsub)
      exact placed_record hpos ⟨⟨ty, _, hty⟩, ⟨scrutinee, hplace⟩, fun _ => hsub (Place.root_mem_vars hplace)⟩
  · simp only [Except.ok.injEq] at h
    subst h
    simp

theorem collectAt_placed {g : Graph} (h : cx.collectAt g p = .ok w) :
    ∀ a ∈ w.effects.accesses, a.Placed cx (g.usesAt p) := by
  unfold collectAt at h
  unfold Graph.usesAt
  cases hs : g.statementAt p with
  | some s =>
    rw [hs] at h
    exact statement_placed h
  | none =>
    cases ht : (g.block p.block).terminator with
    | none =>
      simp only [hs, ht, Option.elim_none, Except.ok.injEq] at h
      subst h
      simp
    | some t =>
      simp only [hs, ht, Option.elim_some] at h
      exact terminator_placed h

theorem accesses_placed {g : Graph} {fx : EffectMap} (h : cx.effects g = .ok fx) {q : Point}
    (hq : q ∈ g.allPoints) : ∀ a ∈ fx.accesses q, a.Placed cx (g.usesAt q) := by
  obtain ⟨w, hw, hget⟩ := effects_get h hq
  rw [EffectMap.accesses, hget]
  exact collectAt_placed hw

end Context

end Ownership
