import Ownership.Proofs.Effect.Collected

/-!
Where the value of an expression comes from. The value of a place is the place
itself if its type can hold references, that of a borrow is the new loan, that
of a call the call, and that of an aggregate has the values of its parts.
-/
namespace Ownership

open Outcome

/-- The parts that an aggregate is made of, in the order of evaluation. -/
def Expr.parts? : Expr → Option (List Expr)
  | .construct _ inits _ => some (inits.map FieldInit.value)
  | .inject _ _ args _ => some args
  | _ => none

/-- The binding that a statement stores into, and the expression whose value it stores. -/
def Stmt.store? : Stmt → Option (BindingId × Expr)
  | .declare _ id (some e) _ => some (id, e)
  | .assign target e _ => (Place.ofExpr? target).map fun dest => (dest.root, e)
  | _ => none

namespace Walk

@[simp] theorem aggregate_effects (w : Walk) (parts : List Value) : (w.aggregate parts).2.effects = w.effects := by
  unfold aggregate
  simp only
  split <;> rfl

/-- An aggregate keeps each part that has a source. -/
theorem aggregate_of_mem (w : Walk) {parts : List Value} {part : Value} (hpart : part ∈ parts) {src : Source}
    (hsrc : src ∈ part) :
    ∃ carrying, (w.aggregate parts).1 = [.aggregate w.site carrying] ∧ part ∈ carrying := by
  have hmem : part ∈ parts.filter (!·.isEmpty) := by
    refine List.mem_filter.mpr ⟨hpart, ?_⟩
    cases part with
    | nil => cases hsrc
    | cons _ _ => rfl
  refine ⟨parts.filter (!·.isEmpty), ?_, hmem⟩
  unfold aggregate
  simp only
  split
  · rename_i hempty
    rw [List.isEmpty_iff.mp hempty] at hmem
    cases hmem
  · rfl

end Walk

namespace Context

variable {cx : Context} {w w' : Walk} {span : Span}

/-- A use by value of a place. -/
structure Uses (cx : Context) (place : Place) (value : Value) (w : Walk) : Prop where
  access : ∃ a ∈ w.effects.accesses, a.place = place ∧ (a.kind = .read ∨ a.kind = .move)
  value : ∃ ty carries, cx.PlaceType place ty ∧ cx.types.carriesRefs (some ty) = .ok carries ∧
    value = if carries then [.place place] else []

theorem usePlace_uses {place : Place} {value : Value} (h : cx.usePlace place span w = .ok (value, w')) :
    cx.Uses place value w' := by
  simp only [usePlace, bind_eq_ok, pure_eq, Except.ok.injEq, Prod.mk.injEq] at h
  obtain ⟨ty, hty, copy, _, carries, hcarries, rfl, rfl⟩ := h
  refine ⟨⟨_, List.mem_append_right _ List.mem_cons_self, rfl, ?_⟩,
    ty, carries, ⟨span, hty⟩, Fault.ofTypes_eq_ok.mp hcarries, rfl⟩
  cases copy <;> simp

theorem placeOf_eq_ok {e : Expr} {place place' : Place} (hp : Place.ofExpr? e = some place)
    (h : placeOf e = .ok place') : place' = place := by
  simpa [placeOf, hp] using h.symm

theorem operand_place {e : Expr} {place : Place} {value : Value} (hp : Place.ofExpr? e = some place)
    (h : cx.operand e span w = .ok (value, w')) : cx.Uses place value w' := by
  cases e with
  | var =>
    simp only [operand, bind_eq_ok] at h
    obtain ⟨found, hfound, hu⟩ := h
    exact placeOf_eq_ok hp hfound ▸ usePlace_uses hu
  | field | deref | payload =>
    simp only [operand, bind_eq_ok] at h
    obtain ⟨found, hfound, _, _, hu⟩ := h
    exact placeOf_eq_ok hp hfound ▸ usePlace_uses hu
  | index =>
    simp only [operand, bind_eq_ok] at h
    obtain ⟨found, hfound, _, _, ⟨_, _⟩, _, hu⟩ := h
    exact placeOf_eq_ok hp hfound ▸ usePlace_uses hu
  | borrow | int | bool | unit | unary | binary | call | construct | inject | foreign => cases hp

theorem operand_borrow {subject : Expr} {mutable : Bool} {loc : Span} {place : Place} {value : Value}
    (hp : Place.ofExpr? subject = some place)
    (h : cx.operand (.borrow subject mutable loc) span w = .ok (value, w')) :
    ∃ a ∈ w'.effects.accesses, a.place = place ∧ ∃ k, a.loan = some k ∧ value = [.loan k] := by
  simp only [operand, hp, borrow, access, bind_eq_ok, pure_eq, Except.ok.injEq, Prod.mk.injEq] at h
  obtain ⟨u, _, _, ⟨ty, _, rfl⟩, rfl, rfl⟩ := h
  exact ⟨_, List.mem_append_right _ List.mem_cons_self, rfl, _, rfl, rfl⟩

/-- One of several expressions is evaluated on the way, and gives one of the values. -/
theorem operands_get {es : List Expr} {values : List Value} (hw : w.Evaluated cx)
    (h : cx.operands es span w = .ok (values, w')) {i : Nat} {e : Expr} (he : es[i]? = some e) :
    ∃ u u' v, u.Evaluated cx ∧ cx.operand e span u = .ok (v, u') ∧ u'.Grows w' ∧ values[i]? = some v := by
  induction es generalizing w values i with
  | nil => cases he
  | cons first rest ih =>
    simp only [operands, bind_eq_ok, pure_eq, Except.ok.injEq, Prod.mk.injEq] at h
    obtain ⟨⟨v, u⟩, hfirst, ⟨vs, t⟩, hrest, rfl, rfl⟩ := h
    have hy := operand_yields first hw hfirst
    cases i with
    | zero =>
      obtain rfl := Option.some.inj he
      exact ⟨w, u, v, hw, hfirst, (operands_yields rest hy.evaluated hrest).grows, rfl⟩
    | succ i => exact ih hy.evaluated hrest he

/-- A call records its signature with the values of its arguments. -/
theorem operand_call {name : String} {args : List Expr} {loc : Span} {value : Value}
    (h : cx.operand (.call name args loc) span w = .ok (value, w')) :
    ∃ c ∈ w'.effects.calls, ∃ u, cx.signatures.get? name = some c.signature ∧
      cx.operands args ((Expr.call name args loc).spanOr span) w = .ok (c.args, u) ∧ u.Grows w' ∧
      (cx.types.carriesRefs c.signature.ret = .ok true → value = [.call c.site]) := by
  simp only [operand, recordCall, bind_eq_ok, pure_eq, Except.ok.injEq, Prod.mk.injEq] at h
  obtain ⟨signature, hcallee, ⟨values, u⟩, hargs, carries, hcarries, rfl, rfl⟩ := h
  refine ⟨_, List.mem_append_right _ List.mem_cons_self, u, callee_eq_ok hcallee, hargs, ?_, fun htrue => ?_⟩
  · exact u.grows_nextSite.trans (u.nextSite.grows_recordCall _)
  · obtain rfl := Except.ok.inj ((Fault.ofTypes_eq_ok.mp hcarries).symm.trans htrue)
    rfl

theorem fieldOperands_eq (cx : Context) (inits : List FieldInit) (span : Span) (w : Walk) :
    cx.fieldOperands inits span w = cx.operands (inits.map FieldInit.value) span w := by
  induction inits generalizing w with
  | nil => rfl
  | cons init rest ih =>
    obtain ⟨name, e⟩ := init
    simp only [fieldOperands, List.map_cons, operands, ih]
    rfl

/-- The value of an aggregate is that of its parts. -/
theorem operand_parts {e : Expr} {es : List Expr} {value : Value} (hes : e.parts? = some es)
    (h : cx.operand e span w = .ok (value, w')) :
    ∃ parts u, cx.operands es (e.spanOr span) w = .ok (parts, u) ∧ value = (u.aggregate parts).1 ∧
      w'.effects = u.effects := by
  have hagg : ∀ {parts : List Value} {u : Walk}, u.aggregate parts = (value, w') →
      value = (u.aggregate parts).1 ∧ w'.effects = u.effects := by
    intro parts u he
    rw [← u.aggregate_effects parts, he]
    exact ⟨rfl, rfl⟩
  cases e with
  | construct ty inits loc =>
    obtain rfl := Option.some.inj hes
    simp only [operand, bind_eq_ok, pure_eq, Except.ok.injEq, fieldOperands_eq] at h
    obtain ⟨⟨parts, u⟩, hparts, he⟩ := h
    exact ⟨parts, u, hparts, hagg he⟩
  | inject ty variant args loc =>
    obtain rfl := Option.some.inj hes
    simp only [operand, bind_eq_ok, pure_eq, Except.ok.injEq] at h
    obtain ⟨⟨parts, u⟩, hparts, he⟩ := h
    exact ⟨parts, u, hparts, hagg he⟩
  | var | field | index | deref | payload | borrow | int | bool | unit | unary | binary | call | foreign =>
    cases hes

/-- What is collected for a statement that stores the value of an expression in a place. -/
structure Stores (cx : Context) (p : Point) (e : Expr) (dest : Place) (fx : Effects) : Prop where
  value : ∃ loc u, ∃ f ∈ fx.flows, f.dest = dest ∧ cx.operand e loc { point := p } = .ok (f.value, u) ∧
    u.effects.accesses ⊆ fx.accesses ∧ u.effects.calls ⊆ fx.calls
  typed : ∃ ty, cx.PlaceType dest ty
  defines : ∀ a ∈ fx.accesses, a.defines = true → a.place.root = dest.root ∧ dest.path = []
  used : dest.path ≠ [] → ∃ a ∈ fx.accesses, a.place.root = dest.root ∧ a.defines = false

variable {p : Point}

theorem stores_record {e : Expr} {loc : Span} {value : Value} {u : Walk}
    (ho : cx.operand e loc { point := p } = .ok (value, u)) (hw : w.Evaluated cx) (hgrows : u.Grows w)
    {dest : Place} (hty : ∃ ty, cx.PlaceType dest ty) {a : Access} (ha : a.place = dest)
    (hdef : a.defines = true ↔ dest.path = []) :
    cx.Stores p e dest ((w.record a).recordFlow ⟨dest, value, span⟩).effects := by
  subst ha
  generalize hf : Flow.mk a.place value span = f
  have hlast : a ∈ ((w.record a).recordFlow f).effects.accesses := List.mem_append_right _ List.mem_cons_self
  refine ⟨⟨loc, u, f, List.mem_append_right _ List.mem_cons_self, hf ▸ rfl, hf ▸ ho, ?_⟩, hty, ?_, ?_⟩
  · exact ⟨fun b hb => List.mem_append_left _ (hgrows.accesses.subset hb), hgrows.calls.subset⟩
  · intro b hb hd
    rcases List.mem_append.mp hb with hb | hb
    · simp [(hw.uses b hb).defines] at hd
    · obtain rfl := List.mem_singleton.mp hb
      exact ⟨rfl, hdef.mp hd⟩
  · exact fun hpath => ⟨a, hlast, rfl, Bool.eq_false_iff.mpr fun hd => hpath (hdef.mp hd)⟩

theorem stores_init {name : String} {id : BindingId} {e : Expr} {loc : Span}
    (h : cx.statement { point := p } (.declare name id (some e) loc) = .ok w) :
    cx.Stores p e { root := id, name := name } w.effects := by
  simp only [statement, access, bind_eq_ok, pure_eq, Except.ok.injEq] at h
  obtain ⟨⟨value, u⟩, ho, _, ⟨ty, hty, rfl⟩, rfl⟩ := h
  have hy := operand_yields e (cx.evaluated_start p) ho
  exact stores_record ho hy.evaluated (.refl u) ⟨ty, loc, hty⟩ rfl (by simp [Access.defines])

theorem stores_assign {target e : Expr} {loc : Span} {dest : Place} (hp : Place.ofExpr? target = some dest)
    (h : cx.statement { point := p } (.assign target e loc) = .ok w) : cx.Stores p e dest w.effects := by
  simp only [statement, hp, access, bind_eq_ok, pure_eq, Except.ok.injEq] at h
  obtain ⟨⟨value, u⟩, ho, t, ht, _, ⟨ty, hty, rfl⟩, rfl⟩ := h
  have hy := operand_yields e (cx.evaluated_start p) ho
  have hz := positions_yields target hy.evaluated ht
  exact stores_record ho hz.evaluated hz.grows ⟨ty, _, hty⟩ rfl (by simp [Access.defines, Place.isRoot])

theorem stores_of_store? {st : Stmt} {b : BindingId} {e : Expr} (hst : st.store? = some (b, e))
    (h : cx.statement { point := p } st = .ok w) : ∃ dest, dest.root = b ∧ cx.Stores p e dest w.effects := by
  cases st with
  | declare name id value loc =>
    cases value with
    | none => cases hst
    | some e' =>
      obtain ⟨rfl, rfl⟩ := Prod.mk.inj (Option.some.inj hst)
      exact ⟨_, rfl, stores_init h⟩
  | assign target e' loc =>
    simp only [Stmt.store?, Option.map_eq_some_iff, Prod.mk.injEq] at hst
    obtain ⟨dest, hdest, rfl, rfl⟩ := hst
    exact ⟨dest, rfl, stores_assign hdest h⟩
  | block | eval | branch | loop | breakLoop | continueLoop | ret | select | storageDead | foreign =>
    cases hst

/-- A point that only evaluates or inspects defines nothing. -/
theorem defines_eval {e : Expr} {loc : Span} (h : cx.statement { point := p } (.eval e loc) = .ok w) :
    ∀ a ∈ w.effects.accesses, a.defines = false := by
  simp only [statement, bind_eq_ok, pure_eq, Except.ok.injEq] at h
  obtain ⟨⟨v, u⟩, ho, rfl⟩ := h
  exact fun a ha => ((operand_yields e (cx.evaluated_start p) ho).evaluated.uses a ha).defines

theorem defines_terminator {t : Terminator} (h : cx.terminator { point := p } t = .ok w) :
    ∀ a ∈ w.effects.accesses, a.defines = false := by
  have hstart := cx.evaluated_start p
  unfold terminator at h
  split at h
  · simp only [bind_eq_ok, pure_eq, Except.ok.injEq] at h
    obtain ⟨⟨v, u⟩, ho, rfl⟩ := h
    exact fun a ha => ((operand_yields _ hstart ho).evaluated.uses a ha).defines
  · unfold inspect at h
    split at h
    · simp at h
    · simp only [access, bind_eq_ok, pure_eq, Except.ok.injEq] at h
      obtain ⟨u, hu, _, _, rfl⟩ := h
      intro a ha
      rcases List.mem_append.mp ha with ha | ha
      · exact ((positions_yields _ hstart hu).evaluated.uses a ha).defines
      · rw [List.mem_singleton.mp ha]
        rfl
  · simp only [Except.ok.injEq] at h
    subst h
    simp

end Context

end Ownership
