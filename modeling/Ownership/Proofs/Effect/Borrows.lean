import Mathlib.Data.List.Forall2
import Ownership.Proofs.Effect.Occurrences

/-!
Borrow expressions and their loans. Collecting at a point makes one loan for each
borrow expression that is evaluated there, in the order of evaluation, and numbers
them upwards. So a point and a position among its borrow expressions determine a
site, and no two of them the same one.
-/
namespace Ownership

open Outcome

namespace Expr

mutual

/-- The borrow expressions inside an expression, in the order in which they are evaluated. -/
def borrows : Expr → List Expr
  | var .. | int _ _ | bool _ _ | unit _ | foreign => []
  | field subject _ _ | deref subject _ | payload subject _ _ _ => subject.borrows
  | index subject position _ => subject.borrows ++ position.borrows
  | borrow subject mutable loc => subject.borrows ++ [borrow subject mutable loc]
  | unary _ operand _ => operand.borrows
  | binary _ left right _ => left.borrows ++ right.borrows
  | call _ args _ | inject _ _ args _ => allBorrows args
  | construct _ fields _ => fieldBorrows fields

def allBorrows : List Expr → List Expr
  | [] => []
  | e :: rest => e.borrows ++ allBorrows rest

def fieldBorrows : List FieldInit → List Expr
  | [] => []
  | .mk _ e :: rest => e.borrows ++ fieldBorrows rest

end

/-- Evaluating the expression makes the access: it borrows the place that the subject denotes, the way
the expression asks for, and takes a loan. -/
inductive Makes : Expr → Access → Prop where
  | borrow {subject : Expr} {mutable : Bool} {loc : Span} {a : Access}
      (hplace : Place.ofExpr? subject = some a.place)
      (hkind : a.kind = if mutable then .borrowMut else .borrowShared) (hloan : a.loan.isSome = true) :
      Makes (.borrow subject mutable loc) a

theorem Makes.loan {e : Expr} {a : Access} (h : e.Makes a) : ∃ site, a.loan = some site := by
  cases h with
  | borrow _ _ hloan => exact Option.isSome_iff_exists.mp hloan

end Expr

/-- The borrow expressions of a statement of a block. -/
def Stmt.borrows : Stmt → List Expr
  | declare _ _ (some value) _ => value.borrows
  | assign target value _ => value.borrows ++ target.borrows
  | eval expr _ => expr.borrows
  | _ => []

/-- The borrow expressions of what a branch reads or a switch inspects. -/
def Terminator.borrows (t : Terminator) : List Expr :=
  match t.kind, t.cond, t.scrutinee with
  | .branch, some cond, _ => cond.borrows
  | .switch, _, some scrutinee => scrutinee.borrows
  | _, _, _ => []

/-- The borrow expressions at a point. A borrow inside a scrutinee stands at the switch and again at the
start of the arms that take a payload out of it, and is evaluated each time; a payload that is taken by
reference is a borrow expression of its arm. -/
def Graph.borrowsAt (g : Graph) (p : Point) : List Expr :=
  match g.statementAt p with
  | some s => s.borrows
  | none => (g.block p.block).terminator.elim [] Terminator.borrows

/-- The loan of one access has a smaller number than that of the other. -/
def Access.Precedes (a b : Access) : Prop :=
  ∀ s t, a.loan = some s → b.loan = some t → s.ordinal < t.ordinal

/-- The borrows that have been collected are those of the listed expressions, numbered upwards. -/
structure Walk.Lent (w : Walk) (es : List Expr) : Prop where
  made : List.Forall₂ Expr.Makes es (w.effects.accesses.filter Access.isBorrow)
  ordered : (w.effects.accesses.filter Access.isBorrow).Pairwise Access.Precedes
  numbered : ∀ a ∈ w.effects.accesses, ∀ s, a.loan = some s → s.ordinal < w.ordinal

namespace Walk.Lent

variable {w u : Walk} {es : List Expr}

theorem start (p : Point) : Walk.Lent { point := p } [] := ⟨.nil, .nil, by simp⟩

/-- Only the accesses and the next number count. -/
theorem of_accesses (h : w.Lent es) (ha : u.effects.accesses = w.effects.accesses)
    (ho : w.ordinal ≤ u.ordinal) : u.Lent es := by
  refine ⟨ha ▸ h.made, ha ▸ h.ordered, fun a hmem s hs => ?_⟩
  exact Nat.lt_of_lt_of_le (h.numbered a (ha ▸ hmem) s hs) ho

/-- An access that takes no loan. -/
theorem record (h : w.Lent es) {a : Access} (hb : a.isBorrow = false) (hl : a.loan = none) :
    (w.record a).Lent es := by
  have hfilter : (w.record a).effects.accesses.filter Access.isBorrow = w.effects.accesses.filter Access.isBorrow := by
    simp [Walk.record, hb]
  refine ⟨hfilter ▸ h.made, hfilter ▸ h.ordered, fun b hmem s hs => ?_⟩
  rcases List.mem_append.mp hmem with hmem | hmem
  · exact h.numbered b hmem s hs
  · rw [List.mem_singleton.mp hmem, hl] at hs
    cases hs

/-- A borrow takes the next number. -/
theorem borrow (h : w.Lent es) {e : Expr} {a : Access} (he : e.Makes a) (hb : a.isBorrow = true)
    (hl : a.loan = some w.site) : (w.nextSite.record a).Lent (es ++ [e]) := by
  have hfilter : (w.nextSite.record a).effects.accesses.filter Access.isBorrow =
      w.effects.accesses.filter Access.isBorrow ++ [a] := by
    simp [Walk.record, Walk.nextSite, hb]
  refine ⟨?_, ?_, fun b hmem s hs => ?_⟩
  · rw [hfilter]
    exact List.rel_append h.made (.cons he .nil)
  · rw [hfilter, List.pairwise_append]
    refine ⟨h.ordered, List.pairwise_singleton _ _, fun b hmem c hc s t hs ht => ?_⟩
    rw [List.mem_singleton.mp hc, hl] at ht
    rw [← Option.some.inj ht]
    exact h.numbered b (List.mem_filter.mp hmem).1 s hs
  · rcases List.mem_append.mp hmem with hmem | hmem
    · exact Nat.lt_succ_of_lt (h.numbered b hmem s hs)
    · rw [List.mem_singleton.mp hmem, hl] at hs
      rw [← Option.some.inj hs]
      exact Nat.lt_succ_self _

theorem aggregate (h : w.Lent es) (parts : List Value) : (w.aggregate parts).2.Lent es := by
  unfold Walk.aggregate
  simp only
  split
  · exact h
  · exact h.of_accesses rfl (Nat.le_succ _)

end Walk.Lent

namespace Context

variable {cx : Context} {w w' : Walk} {es : List Expr}

theorem usePlace_lent (h : w.Lent es) {place : Place} {span : Span} {v : Value}
    (hu : cx.usePlace place span w = .ok (v, w')) : w'.Lent es := by
  simp only [usePlace, bind_eq_ok, pure_eq, Except.ok.injEq, Prod.mk.injEq] at hu
  obtain ⟨ty, _, copy, _, carries, _, _, rfl⟩ := hu
  exact h.record (by cases copy <;> rfl) rfl

theorem access_lent (h : w.Lent es) {kind : AccessKind} (hk : kind ≠ .borrowMut ∧ kind ≠ .borrowShared)
    {place : Place} {span : Span} (ha : cx.access kind place span none w = .ok w') : w'.Lent es := by
  simp only [access, bind_eq_ok, pure_eq, Except.ok.injEq] at ha
  obtain ⟨ty, _, rfl⟩ := ha
  exact h.record (by simp [Access.isBorrow, hk]) rfl

theorem borrow_lent (h : w.Lent es) {subject : Expr} {mutable : Bool} (loc : Span) {place : Place} {span : Span}
    {v : Value} (hplace : Place.ofExpr? subject = some place)
    (hb : cx.borrow place mutable span w = .ok (v, w')) : w'.Lent (es ++ [.borrow subject mutable loc]) := by
  simp only [borrow, access, bind_eq_ok, pure_eq, Except.ok.injEq, Prod.mk.injEq] at hb
  obtain ⟨_, ⟨ty, _, rfl⟩, _, rfl⟩ := hb
  exact h.borrow (.borrow hplace rfl rfl) (by cases mutable <;> rfl) rfl

theorem recordCall_lent (h : w.Lent es) {signature : Signature} {args : List Value} {span : Span} {v : Value}
    (hc : cx.recordCall signature args span w = .ok (v, w')) : w'.Lent es := by
  simp only [recordCall, bind_eq_ok, pure_eq, Except.ok.injEq, Prod.mk.injEq] at hc
  obtain ⟨_, _, _, rfl⟩ := hc
  exact h.of_accesses rfl (Nat.le_succ _)

/-- The base of a part of a place is a place. -/
theorem isSome_of_map {e : Expr} {f : Place → Place} {place : Place} (h : (Place.ofExpr? e).map f = some place) :
    (Place.ofExpr? e).isSome = true := by
  obtain ⟨q, hq, _⟩ := Option.map_eq_some_iff.mp h
  rw [hq, Option.isSome_some]

mutual

/-- Evaluating an expression makes a loan for each of its borrow expressions. -/
theorem operand_lent : ∀ (e : Expr) {span : Span} {w w' : Walk} {v : Value} {es : List Expr}, w.Lent es →
    cx.operand e span w = .ok (v, w') → w'.Lent (es ++ e.borrows)
  | .var .., _, w, w', v, es, h, ho => by
    simp only [operand, bind_eq_ok] at ho
    obtain ⟨place, _, hu⟩ := ho
    simpa [Expr.borrows] using usePlace_lent h hu
  | .field subject .., _, w, w', v, es, h, ho | .deref subject .., _, w, w', v, es, h, ho
  | .payload subject .., _, w, w', v, es, h, ho => by
    simp only [operand, bind_eq_ok] at ho
    obtain ⟨place, hplace, u, hpos, hu⟩ := ho
    have hsubject := isSome_of_map (ofExpr_of_placeOf hplace)
    exact usePlace_lent (positions_lent subject h hsubject hpos) hu
  | .index subject position _, _, w, w', v, es, h, ho => by
    simp only [operand, bind_eq_ok] at ho
    obtain ⟨place, hplace, u, hpos, ⟨_, t⟩, hop, hu⟩ := ho
    have hsubject : (Place.ofExpr? subject).isSome = true := by
      have hspelled := ofExpr_of_placeOf hplace
      cases position <;> exact isSome_of_map hspelled
    have hpositions := operand_lent position (positions_lent subject h hsubject hpos) hop
    rw [List.append_assoc] at hpositions
    exact usePlace_lent hpositions hu
  | .borrow subject mutable loc, _, w, w', v, es, h, ho => by
    simp only [operand] at ho
    split at ho
    · simp at ho
    · rename_i place hplace
      simp only [bind_eq_ok] at ho
      obtain ⟨u, hpos, hb⟩ := ho
      have hlent := borrow_lent (positions_lent subject h (by rw [hplace]; rfl) hpos) loc hplace hb
      rwa [List.append_assoc] at hlent
  | .int .., _, w, w', v, es, h, ho | .bool .., _, w, w', v, es, h, ho | .unit _, _, w, w', v, es, h, ho => by
    simp only [operand, Except.ok.injEq, Prod.mk.injEq] at ho
    obtain ⟨_, rfl⟩ := ho
    simpa [Expr.borrows] using h
  | .unary _ inner _, _, w, w', v, es, h, ho => by
    simp only [operand, bind_eq_ok, pure_eq, Except.ok.injEq, Prod.mk.injEq] at ho
    obtain ⟨⟨_, u⟩, hop, _, rfl⟩ := ho
    exact operand_lent inner h hop
  | .binary _ left right _, _, w, w', v, es, h, ho => by
    simp only [operand, bind_eq_ok, pure_eq, Except.ok.injEq, Prod.mk.injEq] at ho
    obtain ⟨⟨_, u⟩, hl, ⟨_, t⟩, hr, _, rfl⟩ := ho
    have hlent := operand_lent right (operand_lent left h hl) hr
    rwa [List.append_assoc] at hlent
  | .call _ args _, _, w, w', v, es, h, ho => by
    simp only [operand, bind_eq_ok] at ho
    obtain ⟨signature, _, ⟨values, u⟩, hargs, hc⟩ := ho
    exact recordCall_lent (operands_lent args h hargs) hc
  | .construct _ fields _, _, w, w', v, es, h, ho => by
    simp only [operand, bind_eq_ok, pure_eq, Except.ok.injEq] at ho
    obtain ⟨⟨values, u⟩, hf, he⟩ := ho
    have hlent := (fieldOperands_lent fields h hf).aggregate values
    rwa [he] at hlent
  | .inject _ _ args _, _, w, w', v, es, h, ho => by
    simp only [operand, bind_eq_ok, pure_eq, Except.ok.injEq] at ho
    obtain ⟨⟨values, u⟩, hf, he⟩ := ho
    have hlent := (operands_lent args h hf).aggregate values
    rwa [he] at hlent
  | .foreign, _, w, w', v, es, h, ho => by simp [operand] at ho

theorem operands_lent : ∀ (args : List Expr) {span : Span} {w w' : Walk} {values : List Value} {es : List Expr},
    w.Lent es → cx.operands args span w = .ok (values, w') → w'.Lent (es ++ Expr.allBorrows args)
  | [], _, w, w', values, es, h, ho => by
    simp only [operands, Except.ok.injEq, Prod.mk.injEq] at ho
    obtain ⟨_, rfl⟩ := ho
    simpa [Expr.allBorrows] using h
  | e :: rest, _, w, w', values, es, h, ho => by
    simp only [operands, bind_eq_ok, pure_eq, Except.ok.injEq, Prod.mk.injEq] at ho
    obtain ⟨⟨_, u⟩, he, ⟨_, t⟩, hrest, _, rfl⟩ := ho
    have hlent := operands_lent rest (operand_lent e h he) hrest
    rwa [List.append_assoc] at hlent

theorem fieldOperands_lent : ∀ (fields : List FieldInit) {span : Span} {w w' : Walk} {values : List Value}
    {es : List Expr}, w.Lent es → cx.fieldOperands fields span w = .ok (values, w') →
    w'.Lent (es ++ Expr.fieldBorrows fields)
  | [], _, w, w', values, es, h, ho => by
    simp only [fieldOperands, Except.ok.injEq, Prod.mk.injEq] at ho
    obtain ⟨_, rfl⟩ := ho
    simpa [Expr.fieldBorrows] using h
  | .mk _ e :: rest, _, w, w', values, es, h, ho => by
    simp only [fieldOperands, bind_eq_ok, pure_eq, Except.ok.injEq, Prod.mk.injEq] at ho
    obtain ⟨⟨_, u⟩, he, ⟨_, t⟩, hrest, _, rfl⟩ := ho
    have hlent := fieldOperands_lent rest (operand_lent e h he) hrest
    rwa [List.append_assoc] at hlent

/-- The borrow expressions inside a place are in its positions. -/
theorem positions_lent : ∀ (e : Expr) {span : Span} {w w' : Walk} {es : List Expr}, w.Lent es →
    (Place.ofExpr? e).isSome = true → cx.positions e span w = .ok w' → w'.Lent (es ++ e.borrows)
  | .field subject _ _, _, w, w', es, h, hp, ho | .deref subject _, _, w, w', es, h, hp, ho
  | .payload subject _ _ _, _, w, w', es, h, hp, ho => by
    simp only [positions] at ho
    obtain ⟨place, hplace⟩ := Option.isSome_iff_exists.mp hp
    exact positions_lent subject h (isSome_of_map hplace) ho
  | .index subject position _, _, w, w', es, h, hp, ho => by
    simp only [positions, bind_eq_ok, pure_eq, Except.ok.injEq] at ho
    obtain ⟨u, hpos, ⟨_, t⟩, hop, rfl⟩ := ho
    obtain ⟨place, hplace⟩ := Option.isSome_iff_exists.mp hp
    have hsubject : (Place.ofExpr? subject).isSome = true := by
      cases position <;> exact isSome_of_map hplace
    have hlent := operand_lent position (positions_lent subject h hsubject hpos) hop
    rwa [List.append_assoc] at hlent
  | .var .., _, w, w', es, h, _, ho => by
    simp only [positions, Except.ok.injEq] at ho
    subst ho
    simpa [Expr.borrows] using h
  | .borrow .., _, w, w', es, h, hp, ho | .int .., _, w, w', es, h, hp, ho | .bool .., _, w, w', es, h, hp, ho
  | .unit .., _, w, w', es, h, hp, ho | .unary .., _, w, w', es, h, hp, ho | .binary .., _, w, w', es, h, hp, ho
  | .call .., _, w, w', es, h, hp, ho | .construct .., _, w, w', es, h, hp, ho
  | .inject .., _, w, w', es, h, hp, ho | .foreign, _, w, w', es, h, hp, ho => by
    simp [Place.ofExpr?] at hp

end

variable {p : Point}

theorem statement_lent {s : Stmt} (h : cx.statement { point := p } s = .ok w) : w.Lent s.borrows := by
  have hstart := Walk.Lent.start p
  cases s with
  | storageDead id name loc =>
    simp only [statement, bind_eq_ok, pure_eq, Except.ok.injEq] at h
    obtain ⟨_, _, rfl⟩ := h
    exact hstart.record rfl rfl
  | declare name id value loc =>
    cases value with
    | none => exact access_lent hstart (by simp) h
    | some e =>
      simp only [statement, bind_eq_ok, pure_eq, Except.ok.injEq] at h
      obtain ⟨⟨v, u⟩, ho, t, ht, rfl⟩ := h
      exact (access_lent (operand_lent e hstart ho) (by simp) ht).of_accesses rfl (Nat.le_refl _)
  | assign target value loc =>
    simp only [statement] at h
    split at h
    · simp at h
    · rename_i dest hdest
      simp only [bind_eq_ok, pure_eq, Except.ok.injEq] at h
      obtain ⟨⟨v, u⟩, ho, t, ht, t', ht', rfl⟩ := h
      have hlent := positions_lent target (operand_lent value hstart ho) (by rw [hdest]; rfl) ht
      exact (access_lent hlent (by simp) ht').of_accesses rfl (Nat.le_refl _)
  | eval e loc =>
    simp only [statement, bind_eq_ok, pure_eq, Except.ok.injEq] at h
    obtain ⟨⟨v, u⟩, ho, rfl⟩ := h
    exact operand_lent e hstart ho
  | block | branch | loop | breakLoop | continueLoop | ret | select | foreign =>
    simp [statement] at h

theorem terminator_lent {t : Terminator} (h : cx.terminator { point := p } t = .ok w) : w.Lent t.borrows := by
  have hstart := Walk.Lent.start p
  unfold terminator at h
  split at h
  · rename_i cond hkind hcond
    simp only [bind_eq_ok, pure_eq, Except.ok.injEq] at h
    obtain ⟨⟨v, u⟩, ho, rfl⟩ := h
    simpa [Terminator.borrows, hkind, hcond] using operand_lent cond hstart ho
  · rename_i scrutinee hkind hscrutinee
    unfold inspect at h
    split at h
    · simp at h
    · rename_i place hplace
      simp only [bind_eq_ok] at h
      obtain ⟨u, hu, ha⟩ := h
      have hlent := access_lent (positions_lent scrutinee hstart (by rw [hplace]; rfl) hu) (by simp) ha
      simpa [Terminator.borrows, hkind, hscrutinee] using hlent
  · rename_i hcond hscrutinee
    obtain rfl := Except.ok.inj h
    unfold Terminator.borrows
    split
    · exact absurd ‹t.cond = _› (hcond _ ‹_›)
    · exact absurd ‹t.scrutinee = _› (hscrutinee _ ‹_›)
    · exact hstart

theorem collectAt_lent {g : Graph} (h : cx.collectAt g p = .ok w) : w.Lent (g.borrowsAt p) := by
  unfold collectAt at h
  unfold Graph.borrowsAt
  cases hs : g.statementAt p with
  | some s =>
    rw [hs] at h
    exact statement_lent h
  | none =>
    cases ht : (g.block p.block).terminator with
    | none =>
      simp only [hs, ht, Option.elim_none, Except.ok.injEq] at h
      subst h
      exact .start p
    | some t =>
      simp only [hs, ht, Option.elim_some] at h
      exact terminator_lent h

end Context

/-- The accesses of a point that take loans, in order. -/
def EffectMap.lends (fx : EffectMap) (p : Point) : List Access := (fx.accesses p).filter Access.isBorrow

/-- The site of the loan that the borrow expression at this position of a point makes. -/
def EffectMap.LoanOf (fx : EffectMap) (g : Graph) (p : Point) (n : Nat) (site : Site) : Prop :=
  ∃ e a, (g.borrowsAt p)[n]? = some e ∧ (fx.lends p)[n]? = some a ∧ e.Makes a ∧ a.loan = some site

theorem EffectMap.LoanOf.unique {fx : EffectMap} {g : Graph} {p : Point} {n : Nat} {s t : Site}
    (hs : fx.LoanOf g p n s) (ht : fx.LoanOf g p n t) : s = t := by
  obtain ⟨_, a, _, ha, _, hs⟩ := hs
  obtain ⟨_, b, _, hb, _, ht⟩ := ht
  obtain rfl := Option.some.inj (ha.symm.trans hb)
  exact Option.some.inj (hs.symm.trans ht)

namespace Context

variable {cx : Context} {g : Graph} {fx : EffectMap} (h : cx.effects g = .ok fx) {p : Point} (hp : p ∈ g.allPoints)

include h hp

theorem lends_spec : List.Forall₂ Expr.Makes (g.borrowsAt p) (fx.lends p) ∧ (fx.lends p).Pairwise Access.Precedes := by
  obtain ⟨w, hw, hget⟩ := effects_get h hp
  rw [EffectMap.lends, EffectMap.accesses, hget]
  exact ⟨(collectAt_lent hw).made, (collectAt_lent hw).ordered⟩

/-- Every borrow expression at a reachable point makes a loan. -/
theorem exists_loanOf {n : Nat} (hn : n < (g.borrowsAt p).length) : ∃ site, fx.LoanOf g p n site := by
  have hmade := (lends_spec h hp).1
  have hlen : n < (fx.lends p).length := hmade.length_eq ▸ hn
  have hmakes := hmade.get hn hlen
  obtain ⟨site, hsite⟩ := hmakes.loan
  exact ⟨site, _, _, List.getElem?_eq_getElem hn, List.getElem?_eq_getElem hlen, hmakes, hsite⟩

/-- Every loan that is taken at a reachable point is that of a borrow expression. -/
theorem loanOf_of_access {a : Access} (ha : a ∈ fx.accesses p) {site : Site} (hl : a.loan = some site) :
    ∃ n < (g.borrowsAt p).length, fx.LoanOf g p n site := by
  have hborrow : a.isBorrow = true := by
    rw [← (isUse_of_loan h hp ha hl).borrow, hl, Option.isSome_some]
  obtain ⟨n, hlen, rfl⟩ := List.mem_iff_getElem.mp (List.mem_filter.mpr ⟨ha, hborrow⟩ : a ∈ fx.lends p)
  have hmade := (lends_spec h hp).1
  have hn : n < (g.borrowsAt p).length := hmade.length_eq ▸ hlen
  exact ⟨n, hn, _, _, List.getElem?_eq_getElem hn, List.getElem?_eq_getElem hlen, hmade.get hn hlen, hl⟩

/-- The loan of a borrow expression is one of the point's accesses, and its site is there. -/
theorem access_of_loanOf {n : Nat} {site : Site} (hn : fx.LoanOf g p n site) :
    (∃ a ∈ fx.accesses p, a.loan = some site) ∧ site.point = p := by
  obtain ⟨_, a, _, ha, _, hl⟩ := hn
  have hmem : a ∈ fx.accesses p := (List.mem_filter.mp (List.mem_of_getElem? ha)).1
  exact ⟨⟨a, hmem, hl⟩, (isUse_of_loan h hp hmem hl).site site hl⟩

/-- Two borrow expressions of a point make different loans. -/
theorem loanOf_position {n m : Nat} {site : Site} (hn : fx.LoanOf g p n site) (hm : fx.LoanOf g p m site) : n = m := by
  have hordered := (lends_spec h hp).2
  have hless : ∀ {i j : Nat}, fx.LoanOf g p i site → fx.LoanOf g p j site → ¬i < j := by
    rintro i j ⟨_, a, _, ha, _, hs⟩ ⟨_, b, _, hb, _, ht⟩ hlt
    obtain ⟨hi, rfl⟩ := List.getElem?_eq_some_iff.mp ha
    obtain ⟨hj, rfl⟩ := List.getElem?_eq_some_iff.mp hb
    exact Nat.lt_irrefl _ (List.pairwise_iff_getElem.mp hordered i j hi hj hlt site site hs ht)
  exact Nat.le_antisymm (Nat.le_of_not_lt (hless hm hn)) (Nat.le_of_not_lt (hless hn hm))

end Context

end Ownership
