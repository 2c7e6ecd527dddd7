import Ownership.Proofs.Effect.Collected

/-!
The calls behind a value. Arguments are evaluated before the call they are passed
to, so when the calls of a point are taken in order, those that a value goes back
to come before the call that takes it. Only results that carry references are
followed.
-/
namespace Ownership

open Outcome

/-- The calls that the source goes back to are among these, and their results carry references. -/
inductive Source.From (types : TypeTable) (calls : List CallSite) : Source → Prop where
  | loan (site : Site) : From types calls (.loan site)
  | place (p : Place) : From types calls (.place p)
  | call {c : CallSite} (hc : c ∈ calls) (hcarries : types.carriesRefs c.signature.ret = .ok true) :
      From types calls (.call c.site)
  | aggregate {site : Site} {parts : List Value} (h : ∀ part ∈ parts, ∀ src ∈ part, From types calls src) :
      From types calls (.aggregate site parts)

theorem Source.From.mono {types : TypeTable} {calls more : List CallSite} (hsub : calls ⊆ more) {src : Source}
    (h : src.From types calls) : src.From types more := by
  induction h with
  | loan site => exact .loan site
  | place p => exact .place p
  | call hc hcarries => exact .call (hsub hc) hcarries
  | aggregate _ ih => exact .aggregate ih

/-- Each call is passed values that go back to calls before it. -/
inductive CallSite.InOrder (types : TypeTable) : List CallSite → Prop where
  | nil : InOrder types []
  | snoc {calls : List CallSite} {c : CallSite} (h : InOrder types calls)
      (hargs : ∀ arg ∈ c.args, ∀ src ∈ arg, Source.From types calls src) : InOrder types (calls ++ [c])

namespace Walk

variable {types : TypeTable} {w w' u : Walk} {values more : List Value}

/-- Collecting went on from `w` to `w'` with its calls in order, and left values that go back to them. -/
structure Draws (types : TypeTable) (w : Walk) (values : List Value) (w' : Walk) : Prop where
  inOrder : CallSite.InOrder types w'.effects.calls
  calls : w.effects.calls ⊆ w'.effects.calls
  drawn : ∀ v ∈ values, ∀ src ∈ v, Source.From types w'.effects.calls src

namespace Draws

theorem refl (h : CallSite.InOrder types w.effects.calls) : w.Draws types [] w := ⟨h, fun _ hc => hc, by simp⟩

/-- The value of an expression without references. -/
theorem plain (h : w.Draws types values w') : w.Draws types [[]] w' := ⟨h.inOrder, h.calls, by simp⟩

theorem after (h : w.Draws types values w') (k : w'.Draws types more u) : w.Draws types more u :=
  ⟨k.inOrder, fun _ hc => k.calls (h.calls hc), k.drawn⟩

/-- A value and those after it, evaluated in turn. -/
theorem cons {v : Value} (h : w.Draws types [v] w') (k : w'.Draws types values u) :
    w.Draws types (v :: values) u := by
  refine ⟨k.inOrder, fun _ hc => k.calls (h.calls hc), fun x hx src hsrc => ?_⟩
  rcases List.mem_cons.mp hx with rfl | hx
  · exact (h.drawn x List.mem_cons_self src hsrc).mono k.calls
  · exact k.drawn x hx src hsrc

theorem aggregate (h : w.Draws types values w') :
    w.Draws types [(w'.aggregate values).1] (w'.aggregate values).2 := by
  unfold Walk.aggregate
  simp only
  split
  · exact h.plain
  · refine ⟨h.inOrder, h.calls, fun v hv src hsrc => ?_⟩
    rw [List.mem_singleton.mp hv, List.mem_singleton] at hsrc
    subst hsrc
    exact .aggregate fun part hpart src hsrc => h.drawn part (List.mem_filter.mp hpart).1 src hsrc

end Draws

end Walk

namespace Context

variable {cx : Context} {w w' u : Walk} {values : List Value}

theorem usePlace_draws (h : CallSite.InOrder cx.types w.effects.calls) {place : Place} {span : Span} {v : Value}
    (hu : cx.usePlace place span w = .ok (v, w')) : w.Draws cx.types [v] w' := by
  simp only [usePlace, bind_eq_ok, pure_eq, Except.ok.injEq, Prod.mk.injEq] at hu
  obtain ⟨_, _, _, _, carries, _, rfl, rfl⟩ := hu
  refine ⟨h, fun _ hc => hc, fun v hv src hsrc => ?_⟩
  rw [List.mem_singleton.mp hv] at hsrc
  cases carries with
  | false => cases hsrc
  | true =>
    obtain rfl := List.mem_singleton.mp hsrc
    exact .place place

theorem borrow_draws (h : CallSite.InOrder cx.types w.effects.calls) {place : Place} {mutable : Bool} {span : Span}
    {v : Value} (hb : cx.borrow place mutable span w = .ok (v, w')) : w.Draws cx.types [v] w' := by
  simp only [borrow, access, bind_eq_ok, pure_eq, Except.ok.injEq, Prod.mk.injEq] at hb
  obtain ⟨_, ⟨_, _, rfl⟩, rfl, rfl⟩ := hb
  refine ⟨h, fun _ hc => hc, fun v hv src hsrc => ?_⟩
  rw [List.mem_singleton.mp hv, List.mem_singleton] at hsrc
  exact hsrc ▸ .loan _

/-- A call is recorded after those that its arguments go back to. -/
theorem recordCall_draws (h : u.Draws cx.types values w) {signature : Signature} {span : Span} {v : Value}
    (hc : cx.recordCall signature values span w = .ok (v, w')) : u.Draws cx.types [v] w' := by
  simp only [recordCall, bind_eq_ok, pure_eq, Except.ok.injEq, Prod.mk.injEq] at hc
  obtain ⟨carries, hcarries, rfl, rfl⟩ := hc
  refine ⟨h.inOrder.snoc h.drawn, fun c hc => List.mem_append_left _ (h.calls hc), fun v hv src hsrc => ?_⟩
  rw [List.mem_singleton.mp hv] at hsrc
  cases carries with
  | false => cases hsrc
  | true =>
    obtain rfl := List.mem_singleton.mp hsrc
    exact Source.From.call (c := ⟨w.site, signature, values, span⟩) (List.mem_append_right _ List.mem_cons_self)
      (Fault.ofTypes_eq_ok.mp hcarries)

theorem stepwise_draws (cx : Context) : cx.Stepwise fun w values w' => w.Draws cx.types values w' where
  settled h := .refl h.inOrder
  plain h := h.plain
  after h k := h.after k
  cons h k := h.cons k
  usePlace h hu := usePlace_draws h.inOrder hu
  borrow h hb := borrow_draws h.inOrder hb
  recordCall h _ hc := recordCall_draws h hc
  aggregate h := h.aggregate

theorem operand_draws (e : Expr) {span : Span} {v : Value} (h : CallSite.InOrder cx.types w.effects.calls)
    (ho : cx.operand e span w = .ok (v, w')) : w.Draws cx.types [v] w' :=
  operand_stepwise cx.stepwise_draws e (.refl h) ho

theorem positions_draws (e : Expr) {span : Span} (h : CallSite.InOrder cx.types w.effects.calls)
    (ho : cx.positions e span w = .ok w') : w.Draws cx.types [] w' :=
  positions_stepwise cx.stepwise_draws e (.refl h) ho

end Context

/-- The calls of a point are in order, and what it stores goes back to them. -/
structure Effects.InOrder (types : TypeTable) (fx : Effects) : Prop where
  calls : CallSite.InOrder types fx.calls
  values : ∀ f ∈ fx.flows, ∀ src ∈ f.value, Source.From types fx.calls src

namespace Context

variable {cx : Context} {p : Point} {w : Walk}

theorem statement_inOrder {s : Stmt} (h : cx.statement { point := p } s = .ok w) : w.effects.InOrder cx.types := by
  have hstart : CallSite.InOrder cx.types ({ point := p } : Walk).effects.calls := .nil
  have hnone := cx.evaluated_start p
  cases s with
  | storageDead id name loc =>
    simp only [statement, bind_eq_ok, pure_eq, Except.ok.injEq] at h
    obtain ⟨_, _, rfl⟩ := h
    exact ⟨.nil, fun f hf => by cases hf⟩
  | declare name id value loc =>
    cases value with
    | none =>
      simp only [statement, access, bind_eq_ok, pure_eq, Except.ok.injEq] at h
      obtain ⟨_, _, rfl⟩ := h
      exact ⟨.nil, fun f hf => by cases hf⟩
    | some e =>
      simp only [statement, access, bind_eq_ok, pure_eq, Except.ok.injEq] at h
      obtain ⟨⟨v, u⟩, ho, _, ⟨_, _, rfl⟩, rfl⟩ := h
      have hy := operand_draws e hstart ho
      have hflows : u.effects.flows = [] := (operand_yields e hnone ho).grows.flows
      refine ⟨hy.inOrder, fun f hf => ?_⟩
      simp only [Walk.recordFlow, Walk.record, hflows, List.nil_append, List.mem_singleton] at hf
      subst hf
      exact hy.drawn v List.mem_cons_self
  | assign target value loc =>
    simp only [statement] at h
    split at h
    · simp at h
    · simp only [access, bind_eq_ok, pure_eq, Except.ok.injEq] at h
      obtain ⟨⟨v, u⟩, ho, t, ht, _, ⟨_, _, rfl⟩, rfl⟩ := h
      have hy := operand_draws value hstart ho
      have hz := positions_draws target hy.inOrder ht
      have hyields := operand_yields value hnone ho
      have hflows : t.effects.flows = [] :=
        (positions_yields target hyields.evaluated ht).grows.flows.trans hyields.grows.flows
      refine ⟨hz.inOrder, fun f hf src hsrc => ?_⟩
      simp only [Walk.recordFlow, Walk.record, hflows, List.nil_append, List.mem_singleton] at hf
      subst hf
      exact (hy.drawn v List.mem_cons_self src hsrc).mono hz.calls
  | eval e loc =>
    simp only [statement, bind_eq_ok, pure_eq, Except.ok.injEq] at h
    obtain ⟨⟨v, u⟩, ho, rfl⟩ := h
    have hflows : u.effects.flows = [] := (operand_yields e hnone ho).grows.flows
    exact ⟨(operand_draws e hstart ho).inOrder, fun f hf => by rw [hflows] at hf; cases hf⟩
  | block | branch | loop | breakLoop | continueLoop | ret | select | foreign =>
    simp [statement] at h

theorem terminator_inOrder {t : Terminator} (h : cx.terminator { point := p } t = .ok w) :
    w.effects.InOrder cx.types := by
  have hstart : CallSite.InOrder cx.types ({ point := p } : Walk).effects.calls := .nil
  have hnone := cx.evaluated_start p
  unfold terminator at h
  split at h
  · simp only [bind_eq_ok, pure_eq, Except.ok.injEq] at h
    obtain ⟨⟨v, u⟩, ho, rfl⟩ := h
    have hflows : u.effects.flows = [] := (operand_yields _ hnone ho).grows.flows
    exact ⟨(operand_draws _ hstart ho).inOrder, fun f hf => by rw [hflows] at hf; cases hf⟩
  · unfold inspect at h
    split at h
    · simp at h
    · simp only [access, bind_eq_ok, pure_eq, Except.ok.injEq] at h
      obtain ⟨u, hu, _, _, rfl⟩ := h
      have hflows : u.effects.flows = [] := (positions_yields _ hnone hu).grows.flows
      exact ⟨(positions_draws _ hstart hu).inOrder, fun f hf => by simp [Walk.record, hflows] at hf⟩
  · simp only [Except.ok.injEq] at h
    subst h
    exact ⟨.nil, fun f hf => by cases hf⟩

/-- At every point that can be reached, calls come after the calls that they are passed results of. -/
theorem effects_inOrder {g : Graph} {fx : EffectMap} (h : cx.effects g = .ok fx) {q : Point}
    (hq : q ∈ g.allPoints) : (fx.get q).InOrder cx.types := by
  obtain ⟨w, hw, hget⟩ := effects_get h hq
  rw [hget]
  unfold collectAt at hw
  split at hw
  · exact statement_inOrder hw
  · cases ht : (g.block q.block).terminator with
    | none =>
      simp only [ht, Option.elim_none, Except.ok.injEq] at hw
      subst hw
      exact ⟨.nil, fun f hf => by cases hf⟩
    | some t =>
      simp only [ht, Option.elim_some] at hw
      exact terminator_inOrder hw

end Context

end Ownership
