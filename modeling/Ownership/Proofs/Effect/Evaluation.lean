import Ownership.Proofs.Effect.Occurrences
import Ownership.Proofs.Source.Typed

/-!
Which faults collecting can end with. Where every type is in the table, the effects of a point
are collected unless a contract is breached, or a part of something that is no variable is used
by value.
-/
namespace Ownership

open Outcome

namespace Expr

def isVar : Expr → Bool
  | var .. => true
  | _ => false

/-- A field, an element, a referent or a payload field of another expression. -/
def isPart : Expr → Bool
  | field .. | index .. | deref .. | payload .. => true
  | _ => false

/-- The innermost expression that an expression is a part of. -/
def base : Expr → Expr
  | field subject _ _ | index subject _ _ | deref subject _ | payload subject _ _ _ => subject.base
  | e => e

/-- A part of an expression that is no variable, and so of a value without a place. -/
def isPartOfValue (e : Expr) : Bool := e.isPart && !e.base.isVar

mutual

/-- The expressions that are used by value when an expression is evaluated, itself among them. -/
def byValue : Expr → List Expr
  | field subject name loc => field subject name loc :: subject.inPositions
  | deref subject loc => deref subject loc :: subject.inPositions
  | payload subject variant name loc => payload subject variant name loc :: subject.inPositions
  | index subject position loc => index subject position loc :: (subject.inPositions ++ position.byValue)
  | borrow subject mutable loc => borrow subject mutable loc :: subject.inPositions
  | unary op operand loc => unary op operand loc :: operand.byValue
  | binary op left right loc => binary op left right loc :: (left.byValue ++ right.byValue)
  | call callee args loc => call callee args loc :: allByValue args
  | inject ty variant args loc => inject ty variant args loc :: allByValue args
  | construct ty fields loc => construct ty fields loc :: fieldsByValue fields
  | e => [e]

def allByValue : List Expr → List Expr
  | [] => []
  | e :: rest => e.byValue ++ allByValue rest

def fieldsByValue : List FieldInit → List Expr
  | [] => []
  | .mk _ e :: rest => e.byValue ++ fieldsByValue rest

/-- The expressions that are used by value when the positions inside a place are evaluated. -/
def inPositions : Expr → List Expr
  | field subject _ _ | deref subject _ | payload subject _ _ _ => subject.inPositions
  | index subject position _ => subject.inPositions ++ position.byValue
  | _ => []

end

end Expr

/-- The expressions that a statement of a block uses by value. -/
def Stmt.byValue : Stmt → List Expr
  | declare _ _ (some value) _ => value.byValue
  | assign target value _ => value.byValue ++ target.inPositions
  | eval expr _ => expr.byValue
  | _ => []

def Terminator.byValue (t : Terminator) : List Expr :=
  t.cond.elim [] Expr.byValue ++ t.scrutinee.elim [] Expr.inPositions

/-- The expressions that are used by value at a point. -/
def Graph.byValueAt (g : Graph) (p : Point) : List Expr :=
  match g.statementAt p with
  | some s => s.byValue
  | none => (g.block p.block).terminator.elim [] Terminator.byValue

/-- Code that can be reached uses by value a part of something that is no variable. -/
def Function.UsesPartOfValue (f : Function) : Prop :=
  ∃ g, f.graph = .ok g ∧ ∃ p ∈ g.allPoints, ∃ e ∈ g.byValueAt p, e.isPartOfValue = true

/-- A breach of contract, or the use of a part of a value among the listed expressions. -/
def Fault.FromUses (es : List Expr) (fault : Fault) : Prop :=
  fault.IsBreach ∨ fault = .projectionOfValue ∧ ∃ e ∈ es, e.isPartOfValue = true

namespace Outcome.FailsOnly

variable {α : Type} {x : Except Fault α} {es more : List Expr}

theorem of_breach (h : FailsOnly Fault.IsBreach x) : FailsOnly (Fault.FromUses es) x := h.imp fun _ => .inl

theorem uses_mono (h : FailsOnly (Fault.FromUses es) x) (hsub : es ⊆ more) : FailsOnly (Fault.FromUses more) x :=
  h.imp fun _ hf => hf.imp_right fun ⟨hkind, e, he, hpart⟩ => ⟨hkind, e, hsub he, hpart⟩

end Outcome.FailsOnly

/-- An expression denotes a place if its innermost base is a variable. -/
theorem Place.isSome_ofExpr? (e : Expr) : (Place.ofExpr? e).isSome = e.base.isVar := by
  fun_induction Place.ofExpr? e with
  | case1 => rfl
  | case2 _ _ _ ih | case3 _ _ _ _ ih | case4 _ _ _ _ ih | case5 _ _ ih | case6 _ _ _ _ ih =>
    rw [Option.isSome_map, ih, Expr.base]
  | case7 e =>
    cases e <;> grind [Expr.base, Expr.isVar]

namespace Context

variable {cx : Context} {w : Walk} {span : Span}

theorem placeOf_failsOnly {e : Expr} (he : e.isPart = true) : FailsOnly (Fault.FromUses [e]) (placeOf e) := by
  unfold placeOf
  cases hp : Place.ofExpr? e with
  | some place => exact .ok place
  | none =>
    have hbase : e.base.isVar = false := by rw [← Place.isSome_ofExpr?, hp, Option.isSome_none]
    exact .error (.inr ⟨rfl, e, List.mem_singleton_self e, by rw [Expr.isPartOfValue, he, hbase]; rfl⟩)

theorem callee_failsOnly (name : String) (passed : Nat) : FailsOnly Fault.IsBreach (cx.callee name passed span) := by
  refine FailsOnly.bind ?_ fun signature _ => FailsOnly.ite (fun _ => .breach) fun _ => .ok _
  unfold SignatureTable.require
  cases cx.signatures.get? name with
  | none => exact .breach
  | some signature => exact .ok signature

section

variable (h : cx.Typed)

include h

theorem typeOf_failsOnly (place : Place) (span : Span) :
    FailsOnly Fault.IsBreach (cx.function.typeOf cx.types place span) ∧
      ∀ ty, cx.function.typeOf cx.types place span = .ok ty → cx.types.Knows ty := by
  unfold Function.typeOf Function.binding
  cases hb : cx.function.bindings.get? place.root with
  | none => exact ⟨.breach, fun ty hty => by cases hty⟩
  | some b => exact h.founded.walk (h.function.bindings place.root b hb)

theorem access_failsOnly (kind : AccessKind) (place : Place) (loan : Option Site) :
    FailsOnly Fault.IsBreach (cx.access kind place span loan w) :=
  (typeOf_failsOnly h place span).1.bind fun _ _ => .ok _

theorem usePlace_failsOnly (place : Place) : FailsOnly Fault.IsBreach (cx.usePlace place span w) := by
  obtain ⟨hfails, hknown⟩ := typeOf_failsOnly h place span
  refine hfails.bind fun ty hty => ?_
  have hty' := (hknown ty hty).some
  refine FailsOnly.bind (.ofTypes (TypeTable.isCopy_neverFails hty')) fun copy _ => ?_
  exact FailsOnly.bind (.ofTypes (h.founded.carriesRefs hty')) fun _ _ => .ok _

theorem borrow_failsOnly (place : Place) (mutable : Bool) :
    FailsOnly Fault.IsBreach (cx.borrow place mutable span w) :=
  (access_failsOnly h _ place _).bind fun _ _ => .ok _

theorem recordCall_failsOnly {signature : Signature} (hs : signature ∈ cx.signatures.signatures) (args : List Value) :
    FailsOnly Fault.IsBreach (cx.recordCall signature args span w) :=
  FailsOnly.bind (.ofTypes (h.founded.carriesRefs (h.signatures signature hs).ret)) fun _ _ => .ok _

/-- A use of a part, after the positions inside it. -/
theorem usePart_failsOnly {e subject : Expr} (he : e.isPart = true)
    (hsubject : FailsOnly (Fault.FromUses subject.inPositions) (cx.positions subject span w)) :
    FailsOnly (Fault.FromUses (e :: subject.inPositions))
      (do
        let place ← placeOf e
        let w ← cx.positions subject span w
        cx.usePlace place span w) := by
  refine FailsOnly.bind ((placeOf_failsOnly he).uses_mono (by simp)) fun place _ => ?_
  exact (hsubject.uses_mono (by simp)).bind fun w _ => (usePlace_failsOnly h place).of_breach

end

mutual

/-- Evaluating an expression fails only with a breach, or where it uses a part of a value. -/
theorem operand_failsOnly (h : cx.Typed) : ∀ (e : Expr) {span : Span} {w : Walk},
    FailsOnly (Fault.FromUses e.byValue) (cx.operand e span w)
  | .var _ _ _, _, _ => (usePlace_failsOnly h _).of_breach
  | .field subject name loc, _, _ => usePart_failsOnly h rfl (positions_failsOnly h subject)
  | .deref subject loc, _, _ => usePart_failsOnly h rfl (positions_failsOnly h subject)
  | .payload subject variant name loc, _, _ => usePart_failsOnly h rfl (positions_failsOnly h subject)
  | .index subject position loc, _, _ => by
    refine FailsOnly.bind ((placeOf_failsOnly rfl).uses_mono (by simp [Expr.byValue])) fun place _ => ?_
    refine FailsOnly.bind ((positions_failsOnly h subject).uses_mono (by simp [Expr.byValue])) fun w _ => ?_
    refine FailsOnly.bind ((operand_failsOnly h position).uses_mono (by simp [Expr.byValue])) fun r _ => ?_
    exact (usePlace_failsOnly h place).of_breach
  | .borrow subject mutable loc, _, _ => by
    rw [operand]
    cases Place.ofExpr? subject with
    | none => exact FailsOnly.breach.of_breach
    | some place =>
      refine FailsOnly.bind ((positions_failsOnly h subject).uses_mono (by simp [Expr.byValue])) fun w _ => ?_
      exact (borrow_failsOnly h place mutable).of_breach
  | .int _ _, _, _ | .bool _ _, _, _ | .unit _, _, _ => .ok _
  | .unary op operand loc, _, _ =>
    FailsOnly.bind ((operand_failsOnly h operand).uses_mono (by simp [Expr.byValue])) fun _ _ => .ok _
  | .binary op left right loc, _, _ => by
    refine FailsOnly.bind ((operand_failsOnly h left).uses_mono (by simp [Expr.byValue])) fun r _ => ?_
    exact FailsOnly.bind ((operand_failsOnly h right).uses_mono (by simp [Expr.byValue])) fun _ _ => .ok _
  | .call name args loc, _, _ => by
    refine FailsOnly.bind (callee_failsOnly name args.length).of_breach fun signature hcallee => ?_
    refine FailsOnly.bind ((operands_failsOnly h args).uses_mono (by simp [Expr.byValue])) fun r _ => ?_
    exact (recordCall_failsOnly h (callee_mem hcallee) r.1).of_breach
  | .construct ty fields loc, _, _ =>
    FailsOnly.bind ((fieldOperands_failsOnly h fields).uses_mono (by simp [Expr.byValue])) fun _ _ => .ok _
  | .inject ty variant args loc, _, _ =>
    FailsOnly.bind ((operands_failsOnly h args).uses_mono (by simp [Expr.byValue])) fun _ _ => .ok _
  | .foreign, _, _ => FailsOnly.breach.of_breach

theorem operands_failsOnly (h : cx.Typed) : ∀ (es : List Expr) {span : Span} {w : Walk},
    FailsOnly (Fault.FromUses (Expr.allByValue es)) (cx.operands es span w)
  | [], _, _ => .ok _
  | e :: rest, _, _ => by
    refine FailsOnly.bind ((operand_failsOnly h e).uses_mono (by simp [Expr.allByValue])) fun r _ => ?_
    exact FailsOnly.bind ((operands_failsOnly h rest).uses_mono (by simp [Expr.allByValue])) fun _ _ => .ok _

theorem fieldOperands_failsOnly (h : cx.Typed) : ∀ (fields : List FieldInit) {span : Span} {w : Walk},
    FailsOnly (Fault.FromUses (Expr.fieldsByValue fields)) (cx.fieldOperands fields span w)
  | [], _, _ => .ok _
  | .mk _ e :: rest, _, _ => by
    refine FailsOnly.bind ((operand_failsOnly h e).uses_mono (by simp [Expr.fieldsByValue])) fun r _ => ?_
    exact FailsOnly.bind ((fieldOperands_failsOnly h rest).uses_mono (by simp [Expr.fieldsByValue])) fun _ _ => .ok _

theorem positions_failsOnly (h : cx.Typed) : ∀ (e : Expr) {span : Span} {w : Walk},
    FailsOnly (Fault.FromUses e.inPositions) (cx.positions e span w)
  | .field subject _ _, _, _ | .deref subject _, _, _ | .payload subject _ _ _, _, _ => positions_failsOnly h subject
  | .index subject position _, _, _ => by
    refine FailsOnly.bind ((positions_failsOnly h subject).uses_mono (by simp [Expr.inPositions])) fun w _ => ?_
    exact FailsOnly.bind ((operand_failsOnly h position).uses_mono (by simp [Expr.inPositions])) fun _ _ => .ok _
  | .var .., _, _ | .borrow .., _, _ | .int .., _, _ | .bool .., _, _ | .unit _, _, _ | .unary .., _, _
  | .binary .., _, _ | .call .., _, _ | .construct .., _, _ | .inject .., _, _ | .foreign, _, _ => .ok _

end

section

variable (h : cx.Typed)

include h

theorem statement_failsOnly (s : Stmt) : FailsOnly (Fault.FromUses s.byValue) (cx.statement w s) := by
  cases s with
  | storageDead id name loc =>
    refine FailsOnly.bind ?_ fun _ _ => .ok _
    unfold Function.binding
    cases cx.function.bindings.get? id with
    | none => exact FailsOnly.breach.of_breach
    | some b => exact .ok b
  | declare name id value loc =>
    cases value with
    | none => exact (access_failsOnly h _ _ _).of_breach
    | some value =>
      refine FailsOnly.bind (operand_failsOnly h value) fun r _ => ?_
      exact (access_failsOnly h _ _ _).of_breach.bind fun _ _ => .ok _
  | assign target value loc =>
    rw [statement]
    cases Place.ofExpr? target with
    | none => exact FailsOnly.breach.of_breach
    | some dest =>
      refine FailsOnly.bind ((operand_failsOnly h value).uses_mono (by simp [Stmt.byValue])) fun r _ => ?_
      refine FailsOnly.bind ((positions_failsOnly h target).uses_mono (by simp [Stmt.byValue])) fun w _ => ?_
      exact (access_failsOnly h _ _ _).of_breach.bind fun _ _ => .ok _
  | eval expr loc => exact FailsOnly.bind (operand_failsOnly h expr) fun _ _ => .ok _
  | _ => exact FailsOnly.breach.of_breach

theorem terminator_failsOnly (t : Terminator) : FailsOnly (Fault.FromUses t.byValue) (cx.terminator w t) := by
  unfold terminator
  split
  · rename_i cond _ hcond
    refine FailsOnly.bind ((operand_failsOnly h cond).uses_mono ?_) fun _ _ => .ok _
    simp [Terminator.byValue, hcond]
  · rename_i scrutinee _ hscrutinee
    unfold inspect
    cases Place.ofExpr? scrutinee with
    | none => exact FailsOnly.breach.of_breach
    | some place =>
      refine FailsOnly.bind ((positions_failsOnly h scrutinee).uses_mono ?_) fun w _ => ?_
      · simp [Terminator.byValue, hscrutinee]
      · exact (access_failsOnly h _ place _).of_breach
  · exact .ok _

theorem collectAt_failsOnly (g : Graph) (p : Point) :
    FailsOnly (Fault.FromUses (g.byValueAt p)) (cx.collectAt g p) := by
  unfold collectAt Graph.byValueAt
  cases g.statementAt p with
  | some s => exact statement_failsOnly h s
  | none =>
    cases (g.block p.block).terminator with
    | none => exact .ok _
    | some t => exact terminator_failsOnly h t

/-- Collecting fails only with a breach, or where code that can be reached uses a part of a value. -/
theorem effects_failsOnly (g : Graph) :
    FailsOnly (Fault.FromUses (g.allPoints.flatMap g.byValueAt)) (cx.effects g) := by
  refine FailsOnly.bind (FailsOnly.mapM fun b hb => ?_) fun _ _ => .ok _
  have hpoint : ∀ p ∈ g.points b, FailsOnly (Fault.FromUses (g.allPoints.flatMap g.byValueAt)) (cx.collectAt g p) :=
    fun p hp => (collectAt_failsOnly h g p).uses_mono
      fun e he => List.mem_flatMap.mpr ⟨p, List.mem_flatMap.mpr ⟨b, hb, hp⟩, he⟩
  refine FailsOnly.bind (FailsOnly.mapM fun ⟨s, i⟩ hs => ?_) fun statements _ => ?_
  · have hat := mem_zipIdx_statements.mp hs
    have hlt : i < (g.block b).statements.length := (List.getElem?_eq_some_iff.mp hat).1
    have hstep := hpoint ⟨b, i⟩ (Graph.mem_points.mpr ⟨rfl, Nat.le_of_lt hlt⟩)
    rw [collectAt_statement hat] at hstep
    exact hstep.bind fun _ _ => .ok _
  · have hlast := hpoint ⟨b, g.last b⟩ (Graph.mem_points.mpr ⟨rfl, Nat.le_refl _⟩)
    rw [collectAt_last] at hlast
    exact hlast.bind fun _ _ => .ok _

end

end Context

end Ownership
