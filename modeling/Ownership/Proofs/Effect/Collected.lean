import Ownership.Effect.Collect
import Ownership.Proofs.Graph.Paths
import Ownership.Proofs.Outcome
import Ownership.Region.Liveness

/-!
What the effects of a point consist of. Evaluating expressions only uses
places; a statement adds at most one access that defines, writes or inspects,
and that access comes last. Every source of a value that is stored or passed at
a point goes back to accesses and calls of the same point.
-/
namespace Ownership

open Outcome

/-- The type of a place in the function, whatever location an error would be given. -/
def Context.PlaceType (cx : Context) (place : Place) (ty : TypeId) : Prop :=
  ∃ loc, cx.function.typeOf cx.types place loc = .ok ty

theorem Context.PlaceType.walk {cx : Context} {place : Place} {ty : TypeId} (h : cx.PlaceType place ty) :
    ∃ b loc, cx.function.bindings.get? place.root = some b ∧
      cx.types.walk place loc b.ty none place.path = .ok ty := by
  obtain ⟨loc, h⟩ := h
  simp only [Function.typeOf, Function.binding, bind_eq_ok] at h
  obtain ⟨b, hb, hwalk⟩ := h
  split at hb
  · rename_i b' hget
    obtain rfl := Except.ok.inj hb
    exact ⟨b', loc, hget, hwalk⟩
  · cases hb

theorem Context.placeType_root {cx : Context} {id : BindingId} {b : Binding}
    (h : cx.function.bindings.get? id = some b) (name : String) : cx.PlaceType { root := id, name := name } b.ty := by
  refine ⟨{}, ?_⟩
  simp only [Function.typeOf, Function.binding, h]
  rfl

/-- An access that evaluating an expression at a point makes. -/
structure Access.IsUse (cx : Context) (p : Point) (a : Access) : Prop where
  kind : a.kind = .read ∨ a.kind = .move ∨ a.isBorrow = true
  typed : ∃ ty, cx.PlaceType a.place ty
  borrow : a.loan.isSome = a.isBorrow
  site : ∀ s, a.loan = some s → s.point = p

theorem Access.IsUse.defines {cx : Context} {p : Point} {a : Access} (h : a.IsUse cx p) : a.defines = false := by
  have hk := h.kind
  simp only [Access.isBorrow, Bool.or_eq_true, decide_eq_true_eq] at hk
  rcases hk with hk | hk | hk | hk <;> simp [Access.defines, hk]

/-- A source that goes back to what has been collected: a loan to its borrow, a
place to a use of it by value, a call to its record, an aggregate to its parts. -/
inductive Grounded (cx : Context) (w : Walk) : Source → Prop where
  | loan {s : Site} {a : Access} (ha : a ∈ w.effects.accesses) (hs : a.loan = some s) :
      Grounded cx w (.loan s)
  | place {p : Place} {a : Access} {ty : TypeId} (ha : a ∈ w.effects.accesses) (hp : a.place = p)
      (hk : a.kind = .read ∨ a.kind = .move) (hty : cx.PlaceType p ty)
      (hc : cx.types.carriesRefs (some ty) = .ok true) : Grounded cx w (.place p)
  | call {s : Site} {c : CallSite} (hc : c ∈ w.effects.calls) (hs : c.site = s) :
      Grounded cx w (.call s)
  | aggregate {s : Site} {parts : List Value}
      (hparts : ∀ part ∈ parts, ∀ src ∈ part, Grounded cx w src) : Grounded cx w (.aggregate s parts)

namespace Walk

/-- More has been collected for the same point, and nothing has been stored. -/
structure Grows (w w' : Walk) : Prop where
  point : w'.point = w.point
  accesses : w.effects.accesses <+: w'.effects.accesses
  calls : w.effects.calls <+: w'.effects.calls
  flows : w'.effects.flows = w.effects.flows

namespace Grows

theorem refl (w : Walk) : w.Grows w := ⟨rfl, List.prefix_rfl, List.prefix_rfl, rfl⟩

theorem trans {a b c : Walk} (h : a.Grows b) (k : b.Grows c) : a.Grows c :=
  ⟨k.point.trans h.point, h.accesses.trans k.accesses, h.calls.trans k.calls, k.flows.trans h.flows⟩

end Grows

/-- All that has been collected comes from evaluating expressions. -/
structure Evaluated (cx : Context) (w : Walk) : Prop where
  uses : ∀ a ∈ w.effects.accesses, a.IsUse cx w.point
  calls : ∀ c ∈ w.effects.calls, c.site.point = w.point
  args : ∀ c ∈ w.effects.calls, ∀ arg ∈ c.args, ∀ src ∈ arg, Grounded cx w src
  numbered : ∀ c ∈ w.effects.calls, c.site.ordinal < w.ordinal
  distinct : ∀ c ∈ w.effects.calls, ∀ d ∈ w.effects.calls, c.site = d.site → c = d
  callees : ∀ c ∈ w.effects.calls, c.signature ∈ cx.signatures.signatures

end Walk

namespace Grounded

theorem mono {cx : Context} {w w' : Walk} (h : w.Grows w') {src : Source} (hs : Grounded cx w src) :
    Grounded cx w' src := by
  induction hs with
  | loan ha hs => exact .loan (h.accesses.subset ha) hs
  | place ha hp hk hty hc => exact .place (h.accesses.subset ha) hp hk hty hc
  | call hc hs => exact .call (h.calls.subset hc) hs
  | aggregate _ ih => exact .aggregate ih

end Grounded

namespace Walk

variable {cx : Context} {w w' : Walk}

theorem grows_record (w : Walk) (a : Access) : w.Grows (w.record a) :=
  ⟨rfl, List.prefix_append _ _, List.prefix_rfl, rfl⟩

theorem grows_recordCall (w : Walk) (c : CallSite) : w.Grows (w.recordCall c) :=
  ⟨rfl, List.prefix_rfl, List.prefix_append _ _, rfl⟩

theorem grows_nextSite (w : Walk) : w.Grows w.nextSite :=
  ⟨rfl, List.prefix_rfl, List.prefix_rfl, rfl⟩

theorem Evaluated.record (h : w.Evaluated cx) {a : Access} (ha : a.IsUse cx w.point) :
    (w.record a).Evaluated cx := by
  refine ⟨?_, h.calls, ?_, h.numbered, h.distinct, h.callees⟩
  · intro b hb
    rcases List.mem_append.mp hb with hb | hb
    · exact h.uses b hb
    · rw [List.mem_singleton.mp hb]
      exact ha
  · intro c hc arg harg src hsrc
    exact (h.args c hc arg harg src hsrc).mono (w.grows_record a)

theorem Evaluated.nextSite (h : w.Evaluated cx) : w.nextSite.Evaluated cx :=
  ⟨h.uses, h.calls, fun c hc arg harg src hsrc => (h.args c hc arg harg src hsrc).mono w.grows_nextSite,
    fun c hc => Nat.lt_succ_of_lt (h.numbered c hc), h.distinct, h.callees⟩

/-- A call takes the next site, which no call before it has. -/
theorem Evaluated.recordCall (h : w.Evaluated cx) {c : CallSite} (hsite : c.site = w.site)
    (hargs : ∀ arg ∈ c.args, ∀ src ∈ arg, Grounded cx w src) (hcallee : c.signature ∈ cx.signatures.signatures) :
    (w.nextSite.recordCall c).Evaluated cx := by
  have hfresh : ∀ d ∈ w.effects.calls, d.site ≠ c.site := by
    intro d hd he
    have hlt := h.numbered d hd
    rw [he, hsite] at hlt
    exact Nat.lt_irrefl _ hlt
  refine ⟨h.uses, ?_, ?_, ?_, ?_, ?_⟩
  · intro d hd
    rcases List.mem_append.mp hd with hd | hd
    · exact h.calls d hd
    · rw [List.mem_singleton.mp hd, hsite]
      rfl
  · intro d hd arg harg src hsrc
    apply Grounded.mono (w.grows_nextSite.trans (w.nextSite.grows_recordCall c))
    rcases List.mem_append.mp hd with hd | hd
    · exact h.args d hd arg harg src hsrc
    · rw [List.mem_singleton.mp hd] at harg
      exact hargs arg harg src hsrc
  · intro d hd
    rcases List.mem_append.mp hd with hd | hd
    · exact Nat.lt_succ_of_lt (h.numbered d hd)
    · rw [List.mem_singleton.mp hd, hsite]
      exact Nat.lt_succ_self _
  · intro d hd e he hsame
    rcases List.mem_append.mp hd with hd | hd <;> rcases List.mem_append.mp he with he | he
    · exact h.distinct d hd e he hsame
    · rw [List.mem_singleton.mp he] at hsame
      exact absurd hsame (hfresh d hd)
    · rw [List.mem_singleton.mp hd] at hsame
      exact absurd hsame.symm (hfresh e he)
    · rw [List.mem_singleton.mp hd, List.mem_singleton.mp he]
  · intro d hd
    rcases List.mem_append.mp hd with hd | hd
    · exact h.callees d hd
    · rw [List.mem_singleton.mp hd]
      exact hcallee

/-- Collecting went on from `w` to `w'` by evaluation only, and left grounded values. -/
structure Yields (cx : Context) (w : Walk) (values : List Value) (w' : Walk) : Prop where
  evaluated : w'.Evaluated cx
  grows : w.Grows w'
  grounded : ∀ v ∈ values, ∀ src ∈ v, Grounded cx w' src

theorem Yields.refl (h : w.Evaluated cx) : w.Yields cx [] w :=
  ⟨h, .refl w, by simp⟩

/-- The value of an expression without references. -/
theorem Yields.plain {values : List Value} (h : w.Yields cx values w') : w.Yields cx [[]] w' :=
  ⟨h.evaluated, h.grows, by simp⟩

theorem Yields.after {u : Walk} {values more : List Value} (h : w.Yields cx values w')
    (k : w'.Yields cx more u) : w.Yields cx more u :=
  ⟨k.evaluated, h.grows.trans k.grows, k.grounded⟩

/-- A value and those after it, evaluated in turn. -/
theorem Yields.cons {u : Walk} {v : Value} {values : List Value} (h : w.Yields cx [v] w')
    (k : w'.Yields cx values u) : w.Yields cx (v :: values) u := by
  refine ⟨k.evaluated, h.grows.trans k.grows, ?_⟩
  intro x hx src hsrc
  rcases List.mem_cons.mp hx with rfl | hx
  · exact (h.grounded x List.mem_cons_self src hsrc).mono k.grows
  · exact k.grounded x hx src hsrc

theorem Yields.aggregate {values : List Value} (h : w.Yields cx values w') :
    w.Yields cx [(w'.aggregate values).1] (w'.aggregate values).2 := by
  unfold Walk.aggregate
  simp only
  split
  · exact ⟨h.evaluated, h.grows, by simp⟩
  · refine ⟨h.evaluated.nextSite, h.grows.trans w'.grows_nextSite, ?_⟩
    intro v hv src hsrc
    rw [List.mem_singleton.mp hv, List.mem_singleton] at hsrc
    subst hsrc
    apply Grounded.aggregate
    intro part hpart src hsrc
    exact (h.grounded part (List.mem_filter.mp hpart).1 src hsrc).mono w'.grows_nextSite

end Walk

namespace Context

variable {cx : Context} {w w' : Walk}

theorem usePlace_yields (h : w.Evaluated cx) {place : Place} {span : Span} {v : Value}
    (hu : cx.usePlace place span w = .ok (v, w')) : w.Yields cx [v] w' := by
  simp only [usePlace, bind_eq_ok, pure_eq, Except.ok.injEq, Prod.mk.injEq] at hu
  obtain ⟨ty, hty, copy, _, carries, hcarries, rfl, rfl⟩ := hu
  refine ⟨h.record ⟨?_, ⟨ty, span, hty⟩, ?_, by simp⟩, w.grows_record _, ?_⟩
  · cases copy <;> simp
  · cases copy <;> simp [Access.isBorrow]
  · intro v hv src hsrc
    rw [List.mem_singleton.mp hv] at hsrc
    cases carries with
    | false => simp at hsrc
    | true =>
      simp only [if_true, List.mem_singleton] at hsrc
      subst hsrc
      refine .place (List.mem_append_right _ List.mem_cons_self) rfl ?_ ⟨span, hty⟩
        (Fault.ofTypes_eq_ok.mp hcarries)
      cases copy <;> simp

theorem borrow_yields (h : w.Evaluated cx) {place : Place} {mutable : Bool} {span : Span} {v : Value}
    (hb : cx.borrow place mutable span w = .ok (v, w')) : w.Yields cx [v] w' := by
  simp only [borrow, access, bind_eq_ok, pure_eq, Except.ok.injEq, Prod.mk.injEq] at hb
  obtain ⟨_, ⟨ty, hty, rfl⟩, rfl, rfl⟩ := hb
  refine ⟨h.nextSite.record ⟨?_, ⟨ty, span, hty⟩, ?_, ?_⟩,
    w.grows_nextSite.trans (w.nextSite.grows_record _), ?_⟩
  · cases mutable <;> simp [Access.isBorrow]
  · cases mutable <;> simp [Access.isBorrow]
  · intro s hs
    simp only [Option.some.injEq] at hs
    rw [← hs]
    rfl
  · intro v hv src hsrc
    rw [List.mem_singleton.mp hv, List.mem_singleton] at hsrc
    subst hsrc
    exact .loan (List.mem_append_right _ List.mem_cons_self) rfl

theorem callee_eq_ok {name : String} {passed : Nat} {span : Span} {signature : Signature}
    (h : cx.callee name passed span = .ok signature) : cx.signatures.get? name = some signature := by
  simp only [callee, SignatureTable.require, bind_eq_ok] at h
  obtain ⟨found, hfound, h⟩ := h
  split at hfound
  · rename_i signature' hget
    obtain rfl := Except.ok.inj hfound
    split at h
    · simp at h
    · rw [hget]
      exact congrArg some (Except.ok.inj h)
  · cases hfound

theorem callee_mem {name : String} {passed : Nat} {span : Span} {signature : Signature}
    (h : cx.callee name passed span = .ok signature) : signature ∈ cx.signatures.signatures :=
  List.mem_of_find?_eq_some (callee_eq_ok h)

theorem recordCall_yields {u : Walk} {values : List Value} (h : u.Yields cx values w)
    {signature : Signature} (hs : signature ∈ cx.signatures.signatures) {span : Span} {v : Value}
    (hc : cx.recordCall signature values span w = .ok (v, w')) : u.Yields cx [v] w' := by
  simp only [recordCall, bind_eq_ok, pure_eq, Except.ok.injEq, Prod.mk.injEq] at hc
  obtain ⟨carries, _, rfl, rfl⟩ := hc
  refine ⟨h.evaluated.recordCall rfl h.grounded hs,
    h.grows.trans (w.grows_nextSite.trans (w.nextSite.grows_recordCall _)), ?_⟩
  · intro v hv src hsrc
    rw [List.mem_singleton.mp hv] at hsrc
    cases carries with
    | false => simp at hsrc
    | true =>
      simp only [if_true, List.mem_singleton] at hsrc
      subst hsrc
      exact .call (List.mem_append_right _ List.mem_cons_self) rfl

/-- A relation between a walk, the values that evaluation leaves and the walk after it, that is kept step by
step: by uses of places, borrows, calls and aggregates. -/
structure Stepwise (cx : Context) (R : Walk → List Value → Walk → Prop) : Prop where
  settled {w w' : Walk} {values : List Value} : R w values w' → R w' [] w'
  plain {w w' : Walk} {values : List Value} : R w values w' → R w [[]] w'
  after {w u w' : Walk} {values more : List Value} : R w values u → R u more w' → R w more w'
  cons {w u w' : Walk} {v : Value} {values : List Value} : R w [v] u → R u values w' → R w (v :: values) w'
  usePlace {w w' : Walk} {place : Place} {span : Span} {v : Value} :
    R w [] w → cx.usePlace place span w = .ok (v, w') → R w [v] w'
  borrow {w w' : Walk} {place : Place} {mutable : Bool} {span : Span} {v : Value} :
    R w [] w → cx.borrow place mutable span w = .ok (v, w') → R w [v] w'
  recordCall {w u w' : Walk} {values : List Value} {signature : Signature} {span : Span} {v : Value} :
    R w values u → signature ∈ cx.signatures.signatures → cx.recordCall signature values span u = .ok (v, w') →
    R w [v] w'
  aggregate {w u : Walk} {values : List Value} : R w values u → R w [(u.aggregate values).1] (u.aggregate values).2

section

variable {R : Walk → List Value → Walk → Prop} (hR : cx.Stepwise R)

include hR

mutual

/-- What is kept step by step is kept by evaluating an expression. -/
theorem operand_stepwise : ∀ (e : Expr) {span : Span} {w w' : Walk} {v : Value},
    R w [] w → cx.operand e span w = .ok (v, w') → R w [v] w'
  | .var _ _ _, _, w, w', v, h, ho => by
    simp only [operand, bind_eq_ok] at ho
    obtain ⟨place, _, hu⟩ := ho
    exact hR.usePlace h hu
  | .field subject _ _, _, w, w', v, h, ho | .deref subject _, _, w, w', v, h, ho
  | .payload subject _ _ _, _, w, w', v, h, ho => by
    simp only [operand, bind_eq_ok] at ho
    obtain ⟨place, _, u, hpos, hu⟩ := ho
    have hy := positions_stepwise subject h hpos
    exact hR.after hy (hR.usePlace (hR.settled hy) hu)
  | .index subject position _, _, w, w', v, h, ho => by
    simp only [operand, bind_eq_ok] at ho
    obtain ⟨place, _, u, hpos, ⟨_, t⟩, hop, hu⟩ := ho
    have hy := positions_stepwise subject h hpos
    have hz := operand_stepwise position (hR.settled hy) hop
    exact hR.after hy (hR.after hz (hR.usePlace (hR.settled hz) hu))
  | .borrow subject mutable _, _, w, w', v, h, ho => by
    simp only [operand] at ho
    split at ho
    · simp at ho
    · simp only [bind_eq_ok] at ho
      obtain ⟨u, hpos, hb⟩ := ho
      have hy := positions_stepwise subject h hpos
      exact hR.after hy (hR.borrow (hR.settled hy) hb)
  | .int _ _, _, w, w', v, h, ho | .bool _ _, _, w, w', v, h, ho | .unit _, _, w, w', v, h, ho => by
    simp only [operand, Except.ok.injEq, Prod.mk.injEq] at ho
    obtain ⟨rfl, rfl⟩ := ho
    exact hR.plain h
  | .unary _ inner _, _, w, w', v, h, ho => by
    simp only [operand, bind_eq_ok, pure_eq, Except.ok.injEq, Prod.mk.injEq] at ho
    obtain ⟨⟨_, u⟩, hop, rfl, rfl⟩ := ho
    exact hR.plain (operand_stepwise inner h hop)
  | .binary _ left right _, _, w, w', v, h, ho => by
    simp only [operand, bind_eq_ok, pure_eq, Except.ok.injEq, Prod.mk.injEq] at ho
    obtain ⟨⟨_, u⟩, hl, ⟨_, t⟩, hr, rfl, rfl⟩ := ho
    have hy := operand_stepwise left h hl
    exact hR.plain (hR.after hy (operand_stepwise right (hR.settled hy) hr))
  | .call name args _, _, w, w', v, h, ho => by
    simp only [operand, bind_eq_ok] at ho
    obtain ⟨signature, hcallee, ⟨values, u⟩, hargs, hc⟩ := ho
    exact hR.recordCall (operands_stepwise args h hargs) (callee_mem hcallee) hc
  | .construct _ fields _, _, w, w', v, h, ho => by
    simp only [operand, bind_eq_ok, pure_eq, Except.ok.injEq] at ho
    obtain ⟨⟨values, u⟩, hf, he⟩ := ho
    have hy := hR.aggregate (fieldOperands_stepwise fields h hf)
    rwa [he] at hy
  | .inject _ _ args _, _, w, w', v, h, ho => by
    simp only [operand, bind_eq_ok, pure_eq, Except.ok.injEq] at ho
    obtain ⟨⟨values, u⟩, hf, he⟩ := ho
    have hy := hR.aggregate (operands_stepwise args h hf)
    rwa [he] at hy
  | .foreign, _, w, w', v, h, ho => by simp [operand] at ho

theorem operands_stepwise : ∀ (es : List Expr) {span : Span} {w w' : Walk} {values : List Value},
    R w [] w → cx.operands es span w = .ok (values, w') → R w values w'
  | [], _, w, w', values, h, ho => by
    simp only [operands, Except.ok.injEq, Prod.mk.injEq] at ho
    obtain ⟨rfl, rfl⟩ := ho
    exact h
  | e :: rest, _, w, w', values, h, ho => by
    simp only [operands, bind_eq_ok, pure_eq, Except.ok.injEq, Prod.mk.injEq] at ho
    obtain ⟨⟨v, u⟩, he, ⟨vs, t⟩, hrest, rfl, rfl⟩ := ho
    have hy := operand_stepwise e h he
    exact hR.cons hy (operands_stepwise rest (hR.settled hy) hrest)

theorem fieldOperands_stepwise : ∀ (fields : List FieldInit) {span : Span} {w w' : Walk}
    {values : List Value}, R w [] w → cx.fieldOperands fields span w = .ok (values, w') → R w values w'
  | [], _, w, w', values, h, ho => by
    simp only [fieldOperands, Except.ok.injEq, Prod.mk.injEq] at ho
    obtain ⟨rfl, rfl⟩ := ho
    exact h
  | .mk _ e :: rest, _, w, w', values, h, ho => by
    simp only [fieldOperands, bind_eq_ok, pure_eq, Except.ok.injEq, Prod.mk.injEq] at ho
    obtain ⟨⟨v, u⟩, he, ⟨vs, t⟩, hrest, rfl, rfl⟩ := ho
    have hy := operand_stepwise e h he
    exact hR.cons hy (fieldOperands_stepwise rest (hR.settled hy) hrest)

theorem positions_stepwise : ∀ (e : Expr) {span : Span} {w w' : Walk},
    R w [] w → cx.positions e span w = .ok w' → R w [] w'
  | .field subject _ _, _, w, w', h, ho | .deref subject _, _, w, w', h, ho
  | .payload subject _ _ _, _, w, w', h, ho => by
    simp only [positions] at ho
    exact positions_stepwise subject h ho
  | .index subject position _, _, w, w', h, ho => by
    simp only [positions, bind_eq_ok, pure_eq, Except.ok.injEq] at ho
    obtain ⟨u, hpos, ⟨_, t⟩, hop, rfl⟩ := ho
    have hy := positions_stepwise subject h hpos
    have hz := operand_stepwise position (hR.settled hy) hop
    exact hR.after hy (hR.after hz (hR.settled hz))
  | .var .., _, w, w', h, ho | .borrow .., _, w, w', h, ho | .int .., _, w, w', h, ho
  | .bool .., _, w, w', h, ho | .unit .., _, w, w', h, ho | .unary .., _, w, w', h, ho
  | .binary .., _, w, w', h, ho | .call .., _, w, w', h, ho | .construct .., _, w, w', h, ho
  | .inject .., _, w, w', h, ho | .foreign, _, w, w', h, ho => by
    simp only [positions, Except.ok.injEq] at ho
    subst ho
    exact h

end

end

theorem stepwise_yields (cx : Context) : cx.Stepwise fun w values w' => w.Yields cx values w' where
  settled h := .refl h.evaluated
  plain h := h.plain
  after h k := h.after k
  cons h k := h.cons k
  usePlace h hu := usePlace_yields h.evaluated hu
  borrow h hb := borrow_yields h.evaluated hb
  recordCall h hs hc := recordCall_yields h hs hc
  aggregate h := h.aggregate

/-- Evaluating an expression only uses places, and its value is grounded in those uses. -/
theorem operand_yields (e : Expr) {span : Span} {v : Value} (h : w.Evaluated cx)
    (ho : cx.operand e span w = .ok (v, w')) : w.Yields cx [v] w' :=
  operand_stepwise cx.stepwise_yields e (.refl h) ho

theorem operands_yields (es : List Expr) {span : Span} {values : List Value} (h : w.Evaluated cx)
    (ho : cx.operands es span w = .ok (values, w')) : w.Yields cx values w' :=
  operands_stepwise cx.stepwise_yields es (.refl h) ho

theorem positions_yields (e : Expr) {span : Span} (h : w.Evaluated cx) (ho : cx.positions e span w = .ok w') :
    w.Yields cx [] w' :=
  positions_stepwise cx.stepwise_yields e (.refl h) ho

end Context

/-- The access that a statement or a terminator ends with. -/
structure Access.IsLast (a : Access) : Prop where
  kind : a.kind = .init ∨ a.kind = .write ∨ a.kind = .declare ∨ a.kind = .storageDead ∨ a.kind = .inspect
  loan : a.loan = none
  root : a.kind = .init ∨ a.kind = .declare ∨ a.kind = .storageDead → a.place.path = []

/-- The effects of a whole point. -/
structure Walk.Collected (cx : Context) (w : Walk) : Prop where
  accesses : ∀ a ∈ w.effects.accesses, a.IsUse cx w.point ∨ a.IsLast
  calls : ∀ c ∈ w.effects.calls, c.site.point = w.point
  args : ∀ c ∈ w.effects.calls, ∀ arg ∈ c.args, ∀ src ∈ arg, Grounded cx w src
  distinct : ∀ c ∈ w.effects.calls, ∀ d ∈ w.effects.calls, c.site = d.site → c = d
  values : ∀ f ∈ w.effects.flows, ∀ src ∈ f.value, Grounded cx w src
  ended : ∀ a ∈ w.effects.accesses, a.kind = .storageDead → w.effects.accesses = [a]
  callees : ∀ c ∈ w.effects.calls, c.signature ∈ cx.signatures.signatures

/-- Only a use makes a loan. -/
theorem Walk.Collected.isUse_of_loan {cx : Context} {w : Walk} (h : w.Collected cx) {a : Access}
    (ha : a ∈ w.effects.accesses) {site : Site} (hl : a.loan = some site) : a.IsUse cx w.point := by
  rcases h.accesses a ha with huse | hlast
  · exact huse
  · simp [hlast.loan] at hl

theorem Grounded.recordFlow {cx : Context} {w : Walk} {f : Flow} {src : Source} (h : Grounded cx w src) :
    Grounded cx (w.recordFlow f) src := by
  induction h with
  | loan ha hs => exact .loan ha hs
  | place ha hp hk hty hc => exact .place ha hp hk hty hc
  | call hc hs => exact .call hc hs
  | aggregate _ ih => exact .aggregate ih

namespace Walk

variable {cx : Context} {w : Walk}

theorem use_not_ended {p : Point} {a : Access} (h : a.IsUse cx p) : a.kind ≠ .storageDead := by
  intro hd
  have hk := h.kind
  simp [Access.isBorrow, hd] at hk

/-- A point that only evaluates. -/
theorem Evaluated.collected (h : w.Evaluated cx) (hf : w.effects.flows = []) : w.Collected cx := by
  refine ⟨fun a ha => .inl (h.uses a ha), h.calls, h.args, h.distinct, by simp [hf], ?_, h.callees⟩
  exact fun a ha hk => absurd hk (use_not_ended (h.uses a ha))

/-- A point that evaluates and then makes one access that stores nothing. -/
theorem Evaluated.collected_record (h : w.Evaluated cx) (hf : w.effects.flows = []) {a : Access}
    (ha : a.IsLast) (hend : a.kind = .storageDead → w.effects.accesses = []) :
    (w.record a).Collected cx := by
  refine ⟨?_, h.calls, ?_, h.distinct, by simp [Walk.record, hf], ?_, h.callees⟩
  · intro b hb
    rcases List.mem_append.mp hb with hb | hb
    · exact .inl (h.uses b hb)
    · rw [List.mem_singleton.mp hb]
      exact .inr ha
  · intro c hc arg harg src hsrc
    exact (h.args c hc arg harg src hsrc).mono (w.grows_record a)
  · intro b hb hkind
    rcases List.mem_append.mp hb with hb | hb
    · exact absurd hkind (use_not_ended (h.uses b hb))
    · rw [List.mem_singleton.mp hb] at hkind ⊢
      simp [Walk.record, hend hkind]

/-- A point that evaluates a value and then stores it. -/
theorem Evaluated.collected_store (h : w.Evaluated cx) (hf : w.effects.flows = []) {a : Access}
    (ha : a.IsLast) (hk : a.kind = .init ∨ a.kind = .write) {f : Flow}
    (hv : ∀ src ∈ f.value, Grounded cx w src) : ((w.record a).recordFlow f).Collected cx := by
  have hflows : ((w.record a).recordFlow f).effects.flows = [f] := by
    simp [Walk.record, Walk.recordFlow, hf]
  have hground : ∀ {src : Source}, Grounded cx w src → Grounded cx ((w.record a).recordFlow f) src :=
    fun hs => (hs.mono (w.grows_record a)).recordFlow
  refine ⟨?_, h.calls, ?_, h.distinct, ?_, ?_, h.callees⟩
  · intro b hb
    rcases List.mem_append.mp hb with hb | hb
    · exact .inl (h.uses b hb)
    · rw [List.mem_singleton.mp hb]
      exact .inr ha
  · intro c hc arg harg src hsrc
    exact hground (h.args c hc arg harg src hsrc)
  · intro e he src hsrc
    rw [hflows, List.mem_singleton] at he
    subst he
    exact hground (hv src hsrc)
  · intro b hb hkind
    rcases List.mem_append.mp hb with hb | hb
    · exact absurd hkind (use_not_ended (h.uses b hb))
    · rw [List.mem_singleton.mp hb] at hkind
      rcases hk with hk | hk <;> simp [hk] at hkind

end Walk

namespace Context

variable {cx : Context} {p : Point} {w : Walk}

theorem evaluated_start (cx : Context) (p : Point) : Walk.Evaluated cx { point := p } :=
  ⟨by simp, by simp, by simp, by simp, by simp, by simp⟩

theorem statement_collected {s : Stmt} (h : cx.statement { point := p } s = .ok w) :
    w.Collected cx ∧ w.point = p := by
  have hstart := cx.evaluated_start p
  cases s with
  | storageDead id name loc =>
    simp only [statement, bind_eq_ok, pure_eq, Except.ok.injEq] at h
    obtain ⟨_, _, rfl⟩ := h
    exact ⟨hstart.collected_record rfl ⟨by simp, rfl, fun _ => rfl⟩ (by simp), rfl⟩
  | declare name id value loc =>
    cases value with
    | none =>
      simp only [statement, access, bind_eq_ok, pure_eq, Except.ok.injEq] at h
      obtain ⟨_, _, rfl⟩ := h
      exact ⟨hstart.collected_record rfl ⟨by simp, rfl, fun _ => rfl⟩ (by simp), rfl⟩
    | some e =>
      simp only [statement, access, bind_eq_ok, pure_eq, Except.ok.injEq] at h
      obtain ⟨⟨v, u⟩, ho, _, ⟨_, _, rfl⟩, rfl⟩ := h
      have hy := operand_yields e hstart ho
      exact ⟨hy.evaluated.collected_store hy.grows.flows ⟨by simp, rfl, fun _ => rfl⟩ (by simp)
        (hy.grounded v List.mem_cons_self), hy.grows.point⟩
  | assign target value loc =>
    simp only [statement] at h
    split at h
    · simp at h
    · simp only [access, bind_eq_ok, pure_eq, Except.ok.injEq] at h
      obtain ⟨⟨v, u⟩, ho, t, ht, _, ⟨_, _, rfl⟩, rfl⟩ := h
      have hy := operand_yields value hstart ho
      have hz := positions_yields target hy.evaluated ht
      refine ⟨hz.evaluated.collected_store (hz.grows.flows.trans hy.grows.flows)
        ⟨by simp, rfl, by simp⟩ (by simp) ?_, (hy.grows.trans hz.grows).point⟩
      intro src hsrc
      exact (hy.grounded v List.mem_cons_self src hsrc).mono hz.grows
  | eval e loc =>
    simp only [statement, bind_eq_ok, pure_eq, Except.ok.injEq] at h
    obtain ⟨⟨v, u⟩, ho, rfl⟩ := h
    have hy := operand_yields e hstart ho
    exact ⟨hy.evaluated.collected hy.grows.flows, hy.grows.point⟩
  | block | branch | loop | breakLoop | continueLoop | ret | select | foreign =>
    simp [statement] at h

theorem terminator_collected {t : Terminator} (h : cx.terminator { point := p } t = .ok w) :
    w.Collected cx ∧ w.point = p := by
  have hstart := cx.evaluated_start p
  unfold terminator at h
  split at h
  · simp only [bind_eq_ok, pure_eq, Except.ok.injEq] at h
    obtain ⟨⟨v, u⟩, ho, rfl⟩ := h
    have hy := operand_yields _ hstart ho
    exact ⟨hy.evaluated.collected hy.grows.flows, hy.grows.point⟩
  · unfold inspect at h
    split at h
    · simp at h
    · simp only [access, bind_eq_ok, pure_eq, Except.ok.injEq] at h
      obtain ⟨u, hu, _, _, rfl⟩ := h
      have hy := positions_yields _ hstart hu
      exact ⟨hy.evaluated.collected_record hy.grows.flows ⟨by simp, rfl, by simp⟩ (by simp),
        hy.grows.point⟩
  · simp only [Except.ok.injEq] at h
    subst h
    exact ⟨hstart.collected rfl, rfl⟩

/-- Collects the effects of one point. -/
def collectAt (cx : Context) (g : Graph) (p : Point) : Except Fault Walk :=
  match g.statementAt p with
  | some s => cx.statement { point := p } s
  | none => (g.block p.block).terminator.elim (.ok { point := p }) (cx.terminator { point := p })

theorem collectAt_collected {g : Graph} (h : cx.collectAt g p = .ok w) :
    w.Collected cx ∧ w.point = p := by
  unfold collectAt at h
  split at h
  · exact statement_collected h
  · cases ht : (g.block p.block).terminator with
    | none =>
      simp only [ht, Option.elim_none, Except.ok.injEq] at h
      subst h
      exact ⟨(cx.evaluated_start p).collected rfl, rfl⟩
    | some t =>
      simp only [ht, Option.elim_some] at h
      exact terminator_collected h

theorem mem_zipIdx_statements {g : Graph} {b i : Nat} {s : Stmt} :
    (s, i) ∈ (g.block b).statements.zipIdx ↔ g.statementAt ⟨b, i⟩ = some s := by
  rw [List.mem_zipIdx_iff_getElem?]
  rfl

theorem statementAt_last (g : Graph) (b : Nat) : g.statementAt ⟨b, g.last b⟩ = none :=
  List.getElem?_eq_none (Nat.le_refl _)

theorem collectAt_statement {g : Graph} {s : Stmt} (h : g.statementAt p = some s) :
    cx.collectAt g p = cx.statement { point := p } s := by
  unfold collectAt
  rw [h]

theorem collectAt_last (g : Graph) (b : Nat) : cx.collectAt g ⟨b, g.last b⟩ =
    (g.block b).terminator.elim (.ok { point := ⟨b, g.last b⟩ })
      (cx.terminator { point := ⟨b, g.last b⟩ }) := by
  unfold collectAt
  rw [statementAt_last]

/-- A block lists only what is collected at a point. -/
theorem of_mem_blockEffects {g : Graph} {b : Nat} {es : List (Point × Effects)}
    (h : cx.blockEffects g b = .ok es) {q : Point} {e : Effects} (hmem : (q, e) ∈ es) :
    ∃ w, cx.collectAt g q = .ok w ∧ w.effects = e := by
  simp only [blockEffects, bind_eq_ok, pure_eq, Except.ok.injEq] at h
  obtain ⟨statements, hs, last, hlast, rfl⟩ := h
  rcases List.mem_append.mp hmem with hmem | hmem
  · obtain ⟨⟨s, i⟩, hsi, hr⟩ := (mapM_eq_ok hs).2 _ hmem
    simp only [bind_eq_ok, Except.ok.injEq, Prod.mk.injEq] at hr
    obtain ⟨w, hw, rfl, rfl⟩ := hr
    refine ⟨w, ?_, rfl⟩
    rw [(statement_collected hw).2, collectAt_statement (mem_zipIdx_statements.mp hsi)]
    exact hw
  · obtain ⟨rfl, rfl⟩ := Prod.mk.inj (List.mem_singleton.mp hmem)
    have hterm := (collectAt_last g b).trans hlast
    exact ⟨last, by rw [(collectAt_collected hterm).2]; exact hterm, rfl⟩

/-- A block lists every one of its points. -/
theorem mem_blockEffects {g : Graph} {b : Nat} {es : List (Point × Effects)}
    (h : cx.blockEffects g b = .ok es) {q : Point} (hq : q ∈ g.points b) :
    ∃ e, (q, e) ∈ es := by
  simp only [blockEffects, bind_eq_ok, pure_eq, Except.ok.injEq] at h
  obtain ⟨statements, hs, last, hlast, rfl⟩ := h
  obtain ⟨rfl, hle⟩ := Graph.mem_points.mp hq
  by_cases hi : q.index = g.last q.block
  · have hterm := (collectAt_last g q.block).trans hlast
    refine ⟨last.effects, List.mem_append_right _ (List.mem_singleton.mpr ?_)⟩
    rw [(collectAt_collected hterm).2, ← hi]
  · have hlt : q.index < (g.block q.block).statements.length := by
      simp only [Graph.last] at hi hle
      omega
    have hat : g.statementAt ⟨q.block, q.index⟩ = some ((g.block q.block).statements[q.index]) :=
      List.getElem?_eq_getElem hlt
    obtain ⟨r, hr, hw⟩ := (mapM_eq_ok hs).1 _ (mem_zipIdx_statements.mpr hat)
    simp only [bind_eq_ok, Except.ok.injEq] at hw
    obtain ⟨u, hu, rfl⟩ := hw
    rw [(statement_collected hu).2] at hr
    exact ⟨u.effects, List.mem_append_left _ hr⟩

/-- The effect map lists only what is collected at a point. -/
theorem collectAt_of_lookup {g : Graph} {blocks : List (List (Point × Effects))}
    (h : g.reachable.mapM (cx.blockEffects g) = .ok blocks) {q : Point} {e : Effects}
    (he : blocks.flatten.lookup q = some e) : ∃ w, cx.collectAt g q = .ok w ∧ w.effects = e := by
  obtain ⟨before, after, heq, _⟩ := List.lookup_eq_some_iff.mp he
  obtain ⟨es, hes, hmem⟩ := List.mem_flatten.mp (show (q, e) ∈ blocks.flatten by rw [heq]; simp)
  obtain ⟨b, _, hb⟩ := (mapM_eq_ok h).2 es hes
  exact of_mem_blockEffects hb hmem

/-- The effect map answers every reachable point with what is collected there. -/
theorem effects_get {g : Graph} {fx : EffectMap} (h : cx.effects g = .ok fx) {q : Point}
    (hq : q ∈ g.allPoints) : ∃ w, cx.collectAt g q = .ok w ∧ fx.get q = w.effects := by
  simp only [effects, bind_eq_ok, pure_eq, Except.ok.injEq] at h
  obtain ⟨blocks, hblocks, rfl⟩ := h
  obtain ⟨b, hb, hpoint⟩ := List.mem_flatMap.mp hq
  obtain ⟨es, hes, hcollect⟩ := (mapM_eq_ok hblocks).1 b hb
  obtain ⟨e, he⟩ := mem_blockEffects hcollect hpoint
  cases hl : blocks.flatten.lookup q with
  | none =>
    have hne := List.lookup_eq_none_iff.mp hl (q, e) (List.mem_flatten.mpr ⟨es, hes, he⟩)
    simp at hne
  | some f =>
    obtain ⟨w, hw, rfl⟩ := collectAt_of_lookup hblocks hl
    exact ⟨w, hw, by simp [EffectMap.get, hl]⟩

theorem effects_collected {g : Graph} {fx : EffectMap} (h : cx.effects g = .ok fx) {q : Point}
    (hq : q ∈ g.allPoints) : ∃ w : Walk, w.point = q ∧ fx.get q = w.effects ∧ w.Collected cx := by
  obtain ⟨w, hw, hget⟩ := effects_get h hq
  obtain ⟨hcollected, hpoint⟩ := collectAt_collected hw
  exact ⟨w, hpoint, hget, hcollected⟩

/-- Every call that the effect map lists is of a signature of the program. -/
theorem callee_of_effects {g : Graph} {fx : EffectMap} (h : cx.effects g = .ok fx) {q : Point} {c : CallSite}
    (hc : c ∈ (fx.get q).calls) : c.signature ∈ cx.signatures.signatures := by
  simp only [effects, bind_eq_ok, pure_eq, Except.ok.injEq] at h
  obtain ⟨blocks, hblocks, rfl⟩ := h
  unfold EffectMap.get at hc
  cases hl : blocks.flatten.lookup q with
  | none => simp [hl] at hc
  | some e =>
    obtain ⟨w, hw, rfl⟩ := collectAt_of_lookup hblocks hl
    exact (collectAt_collected hw).1.callees c (by simpa [hl] using hc)

section

variable {g : Graph} {fx : EffectMap} (h : cx.effects g = .ok fx) {q : Point} (hq : q ∈ g.allPoints)
  {a : Access} (ha : a ∈ fx.accesses q)

include h hq ha

/-- Only a use makes a loan. -/
theorem isUse_of_loan {k : Site} (hl : a.loan = some k) : a.IsUse cx q := by
  obtain ⟨w, rfl, hget, hcollected⟩ := effects_collected h hq
  rw [EffectMap.accesses, hget] at ha
  exact hcollected.isUse_of_loan ha hl

/-- An access that defines is of a whole binding. -/
theorem path_of_defines (hd : a.defines = true) : a.place.path = [] := by
  obtain ⟨w, _, hget, hcollected⟩ := effects_collected h hq
  rw [EffectMap.accesses, hget] at ha
  rcases hcollected.accesses a ha with huse | hlast
  · simp [huse.defines] at hd
  · rcases hlast.kind with hk | hk | hk | hk | hk
    · exact hlast.root (.inl hk)
    · simpa [Access.defines, hk, Place.isRoot] using hd
    · exact hlast.root (.inr (.inl hk))
    · exact hlast.root (.inr (.inr hk))
    · simp [Access.defines, hk] at hd

/-- The end of storage is the only access of its point. -/
theorem alone_of_storageDead (hk : a.kind = .storageDead) : fx.accesses q = [a] := by
  obtain ⟨w, _, hget, hcollected⟩ := effects_collected h hq
  rw [EffectMap.accesses, hget] at ha ⊢
  exact hcollected.ended a ha hk

end

end Context

end Ownership
