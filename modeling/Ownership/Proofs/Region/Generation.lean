import Ownership.Proofs.Outcome
import Ownership.Region.Constraints

/-!
What constraint generation relates. Generation only ever adds variables and
constraints. In the end every reborrow is related to the binding it goes
through, every parameter of a call to the sources of its argument, every
aggregate to the sources of its parts, every binding to the sources of what is
stored in it, and the regions of a callee as its signature says.
-/
namespace Ownership

open Outcome

namespace ConstraintSet

variable {s t u : ConstraintSet} {sub sup : RegionVar}

/-- One variable is the other, or a constraint makes it the smaller of the two. -/
def Relates (s : ConstraintSet) (sub sup : RegionVar) : Prop :=
  sub = sup ∨ ∃ c ∈ s.constraints, c.sub = sub ∧ c.sup = sup

/-- Generation went on from one set to the other. -/
structure Extends (s t : ConstraintSet) : Prop where
  vars : s.vars ⊆ t.vars
  constraints : s.constraints ⊆ t.constraints

namespace Extends

theorem refl (s : ConstraintSet) : s.Extends s := ⟨fun _ h => h, fun _ h => h⟩

theorem trans (h : s.Extends t) (k : t.Extends u) : s.Extends u :=
  ⟨fun _ hx => k.vars (h.vars hx), fun _ hx => k.constraints (h.constraints hx)⟩

theorem relates (h : s.Extends t) (hr : s.Relates sub sup) : t.Relates sub sup :=
  hr.imp_right fun ⟨c, hc, he⟩ => ⟨c, h.constraints hc, he⟩

/-- A fold of steps that each go on goes on. -/
theorem foldl {α : Type} {f : ConstraintSet → α → ConstraintSet} (hf : ∀ (s : ConstraintSet) x, s.Extends (f s x))
    (xs : List α) (s : ConstraintSet) : s.Extends (xs.foldl f s) := by
  induction xs generalizing s with
  | nil => exact refl s
  | cons x xs ih => exact (hf s x).trans (ih (f s x))

/-- Steps that each go on and establish a lasting fact about their item do so one after the other. -/
theorem foldlM {α : Type} {f : ConstraintSet → α → Except Fault ConstraintSet}
    (fact : α → ConstraintSet → Prop) (hmono : ∀ x s t, s.Extends t → fact x s → fact x t)
    (hf : ∀ x s t, f s x = .ok t → s.Extends t ∧ fact x t) {xs : List α}
    (h : xs.foldlM f s = .ok t) : s.Extends t ∧ ∀ x ∈ xs, fact x t := by
  induction xs generalizing s with
  | nil =>
    simp only [List.foldlM_nil, pure_eq, Except.ok.injEq] at h
    subst h
    exact ⟨refl s, by simp⟩
  | cons x xs ih =>
    simp only [List.foldlM_cons, bind_eq_ok] at h
    obtain ⟨t₁, hx, hrest⟩ := h
    obtain ⟨hext, hfact⟩ := hf x s t₁ hx
    obtain ⟨hext', hall⟩ := ih hrest
    refine ⟨hext.trans hext', fun y hy => ?_⟩
    rcases List.mem_cons.mp hy with rfl | hy
    · exact hmono y t₁ t hext' hfact
    · exact hall y hy

end Extends

theorem extends_addVar (s : ConstraintSet) (v : RegionVar) : s.Extends (s.addVar v) := by
  unfold addVar
  split
  · exact .refl s
  · exact ⟨fun _ h => List.mem_append_left _ h, fun _ h => h⟩

theorem extends_add (s : ConstraintSet) (sub sup : RegionVar) (span : Span) :
    s.Extends (s.add sub sup span) := by
  unfold add
  split
  · exact .refl s
  · exact ⟨fun _ h => h, fun _ h => List.mem_append_left _ h⟩

theorem relates_add (s : ConstraintSet) (sub sup : RegionVar) (span : Span) :
    (s.add sub sup span).Relates sub sup := by
  unfold add
  split
  · rename_i h
    simp only [Bool.or_eq_true, decide_eq_true_eq, List.any_eq_true, Bool.and_eq_true] at h
    exact h
  · exact .inr ⟨⟨sub, sup, span⟩, List.mem_append_right _ List.mem_cons_self, rfl, rfl⟩

theorem extends_addAll (s : ConstraintSet) (sub : RegionVar) (sups : List RegionVar) (span : Span) :
    s.Extends (s.addAll sub sups span) :=
  .foldl (fun s sup => s.extends_add sub sup span) sups s

theorem relates_addAll (s : ConstraintSet) (sub : RegionVar) {sups : List RegionVar} (span : Span)
    (h : sup ∈ sups) : (s.addAll sub sups span).Relates sub sup := by
  induction sups generalizing s with
  | nil => cases h
  | cons v sups ih =>
    rcases List.mem_cons.mp h with rfl | h
    · exact ((s.add sub sup span).extends_addAll sub sups span).relates (s.relates_add sub sup span)
    · exact ih (s.add sub v span) h

end ConstraintSet

namespace RegionProblem

variable {r : RegionProblem} {s t : ConstraintSet}

/-- The variable that generation uses for a source. -/
def HasVar (r : RegionProblem) : Source → RegionVar → Prop
  | .loan site, v => v = .loan site
  | .place p, v => r.holder? p.root = some v
  | .call site, v => ∃ call, r.call? site = some call ∧ r.resultRegion call = .ok (some v)
  | .aggregate site _, v => v = .aggregate site

/-- An aggregate inside the source is related to the sources of its parts, at any depth. -/
inductive Recorded (r : RegionProblem) (s : ConstraintSet) : Source → Prop where
  | loan (site : Site) : Recorded r s (.loan site)
  | place (p : Place) : Recorded r s (.place p)
  | call (site : Site) : Recorded r s (.call site)
  | aggregate {site : Site} {parts : List Value}
      (hparts : ∀ part ∈ parts, ∀ src ∈ part, Recorded r s src)
      (hvars : ∀ part ∈ parts, ∀ src ∈ part, ∀ v, r.HasVar src v → s.Relates (.aggregate site) v) :
      Recorded r s (.aggregate site parts)

theorem Recorded.mono (h : s.Extends t) {src : Source} (hs : r.Recorded s src) : r.Recorded t src := by
  induction hs with
  | loan site => exact .loan site
  | place p => exact .place p
  | call site => exact .call site
  | aggregate _ hvars ih =>
    exact .aggregate ih fun part hpart src hsrc v hv => h.relates (hvars part hpart src hsrc v hv)

/-- A variable is related to all sources of a value. -/
def Feeds (r : RegionProblem) (s : ConstraintSet) (v : RegionVar) (value : Value) : Prop :=
  ∀ src ∈ value, r.Recorded s src ∧ ∀ u, r.HasVar src u → s.Relates v u

theorem Feeds.mono (h : s.Extends t) {v : RegionVar} {value : Value} (hf : r.Feeds s v value) :
    r.Feeds t v value :=
  fun src hsrc => ⟨(hf src hsrc).1.mono h, fun u hu => h.relates ((hf src hsrc).2 u hu)⟩

theorem resultVar_spec {site : Site} {v : Option RegionVar} (h : r.resultVar site s = .ok (v, t)) :
    s.Extends t ∧ ∀ u, r.HasVar (.call site) u → v = some u := by
  unfold resultVar at h
  split at h
  · rename_i hcall
    simp only [pure_eq, Except.ok.injEq, Prod.mk.injEq] at h
    obtain ⟨rfl, rfl⟩ := h
    refine ⟨.refl _, ?_⟩
    rintro u ⟨call, hc, _⟩
    simp [hcall] at hc
  · rename_i call hcall
    simp only [bind_eq_ok] at h
    obtain ⟨result, hresult, h⟩ := h
    have huniq : ∀ u, r.HasVar (.call site) u → result = some u := by
      rintro u ⟨call', hc, hu⟩
      rw [hcall] at hc
      obtain rfl := Option.some.inj hc
      exact Except.ok.inj (hresult.symm.trans hu)
    split at h
    · simp only [pure_eq, Except.ok.injEq, Prod.mk.injEq] at h
      obtain ⟨rfl, rfl⟩ := h
      exact ⟨.refl _, huniq⟩
    · simp only [bind_eq_ok, pure_eq, Except.ok.injEq, Prod.mk.injEq] at h
      obtain ⟨nested, _, rfl, rfl⟩ := h
      refine ⟨(s.extends_addVar _).trans (.foldl (fun s region => ?_) _ _), huniq⟩
      exact (s.extends_addVar _).trans (ConstraintSet.extends_add _ _ _ _)

mutual

theorem sourceVar_spec : ∀ (src : Source) {s t : ConstraintSet} {v : Option RegionVar},
    r.sourceVar src s = .ok (v, t) →
      s.Extends t ∧ r.Recorded t src ∧ ∀ u, r.HasVar src u → v = some u
  | .loan site, s, t, v, h => by
    simp only [sourceVar, Except.ok.injEq, Prod.mk.injEq] at h
    obtain ⟨rfl, rfl⟩ := h
    exact ⟨s.extends_addVar _, .loan site, fun u hu => by rw [hu]⟩
  | .place p, s, t, v, h => by
    simp only [sourceVar, Except.ok.injEq, Prod.mk.injEq] at h
    obtain ⟨rfl, rfl⟩ := h
    exact ⟨.refl _, .place p, fun u hu => hu⟩
  | .call site, s, t, v, h => by
    simp only [sourceVar] at h
    obtain ⟨hext, hvar⟩ := resultVar_spec h
    exact ⟨hext, .call site, hvar⟩
  | .aggregate site parts, s, t, v, h => by
    simp only [sourceVar, bind_eq_ok, pure_eq, Except.ok.injEq, Prod.mk.injEq] at h
    obtain ⟨t', hparts, rfl, rfl⟩ := h
    obtain ⟨hext, hfeeds⟩ := relateParts_spec parts hparts
    refine ⟨(s.extends_addVar _).trans hext, ?_, fun u hu => by rw [hu]⟩
    exact .aggregate (fun part hpart src hsrc => (hfeeds part hpart src hsrc).1)
      fun part hpart src hsrc => (hfeeds part hpart src hsrc).2

theorem sourceVars_spec : ∀ (value : List Source) {s t : ConstraintSet} {vs : List RegionVar},
    r.sourceVars value s = .ok (vs, t) →
      s.Extends t ∧ ∀ src ∈ value, r.Recorded t src ∧ ∀ u, r.HasVar src u → u ∈ vs
  | [], s, t, vs, h => by
    simp only [sourceVars, Except.ok.injEq, Prod.mk.injEq] at h
    obtain ⟨rfl, rfl⟩ := h
    exact ⟨.refl _, by simp⟩
  | src :: rest, s, t, vs, h => by
    simp only [sourceVars, bind_eq_ok, pure_eq, Except.ok.injEq, Prod.mk.injEq] at h
    obtain ⟨⟨v, t₁⟩, hsrc, ⟨vs', t₂⟩, hrest, rfl, rfl⟩ := h
    obtain ⟨hext₁, hrec, hvar⟩ := sourceVar_spec src hsrc
    obtain ⟨hext₂, hall⟩ := sourceVars_spec rest hrest
    refine ⟨hext₁.trans hext₂, ?_⟩
    intro x hx
    rcases List.mem_cons.mp hx with rfl | hx
    · refine ⟨hrec.mono hext₂, fun u hu => List.mem_append_left _ ?_⟩
      simp [hvar u hu]
    · exact ⟨(hall x hx).1, fun u hu => List.mem_append_right _ ((hall x hx).2 u hu)⟩

theorem relateParts_spec : ∀ (parts : List (List Source)) {agg : RegionVar} {s t : ConstraintSet},
    r.relateParts agg parts s = .ok t → s.Extends t ∧ ∀ part ∈ parts, r.Feeds t agg part
  | [], agg, s, t, h => by
    simp only [relateParts, Except.ok.injEq] at h
    subst h
    exact ⟨.refl _, by simp⟩
  | part :: rest, agg, s, t, h => by
    simp only [relateParts, bind_eq_ok] at h
    obtain ⟨⟨vs, t₁⟩, hpart, hrest⟩ := h
    obtain ⟨hext₁, hall⟩ := sourceVars_spec part hpart
    obtain ⟨hext₂, hfeeds⟩ := relateParts_spec rest hrest
    have hadd := t₁.extends_addAll agg vs {}
    refine ⟨hext₁.trans (hadd.trans hext₂), ?_⟩
    intro x hx
    rcases List.mem_cons.mp hx with rfl | hx
    · intro src hsrc
      refine ⟨(hall src hsrc).1.mono (hadd.trans hext₂), fun u hu => hext₂.relates ?_⟩
      exact t₁.relates_addAll agg {} ((hall src hsrc).2 u hu)
    · exact hfeeds x hx

end

theorem holderVars_extends {value : Value} {vs : List RegionVar} (h : r.holderVars value s = .ok (vs, t)) :
    s.Extends t := by
  have hinv := foldlM_invariant (fun x : List RegionVar × ConstraintSet => s.Extends x.2) ?_
    (ConstraintSet.Extends.refl s) h
  · exact hinv
  · rintro ⟨vs, u⟩ src ⟨vs', u'⟩ _ hu hstep
    simp only [bind_eq_ok, pure_eq, Except.ok.injEq, Prod.mk.injEq] at hstep
    obtain ⟨⟨v, u₁⟩, hv, _, rfl⟩ := hstep
    refine hu.trans ?_
    cases src with
    | loan site =>
      simp only [holderVar, Except.ok.injEq, Prod.mk.injEq] at hv
      exact hv.2 ▸ .refl _
    | place p => exact (sourceVar_spec _ hv).1
    | call site => exact (sourceVar_spec _ hv).1
    | aggregate site parts => exact (sourceVar_spec _ hv).1

theorem relateNested_extends (call : CallSite) (nested : List String) (holders : List RegionVar)
    (s : ConstraintSet) : s.Extends (relateNested call nested holders s) := by
  refine .foldl (fun s region => ?_) nested s
  refine (s.extends_addVar _).trans (.foldl (fun s h => ?_) holders _)
  exact (s.extends_add _ _ _).trans (ConstraintSet.extends_add _ _ _ _)

theorem relateOutlives_extends (call : CallSite) (s : ConstraintSet) :
    s.Extends (relateOutlives call s) := by
  refine .foldl (fun s pair => ?_) call.signature.outlives s
  exact (s.extends_addVar _).trans ((ConstraintSet.extends_addVar _ _).trans
    (ConstraintSet.extends_add _ _ _ _))

theorem relateOutlives_relates (call : CallSite) (s : ConstraintSet) {longer shorter : String}
    (h : (longer, shorter) ∈ call.signature.outlives) :
    (relateOutlives call s).Relates (instanceVar call.site shorter) (instanceVar call.site longer) := by
  unfold relateOutlives
  generalize call.signature.outlives = pairs at h
  induction pairs generalizing s with
  | nil => cases h
  | cons pair pairs ih =>
    rcases List.mem_cons.mp h with rfl | h
    · refine ConstraintSet.Extends.relates (.foldl (fun s pair => ?_) pairs _) (ConstraintSet.relates_add ..)
      exact (s.extends_addVar _).trans ((ConstraintSet.extends_addVar _ _).trans
        (ConstraintSet.extends_add _ _ _ _))
    · exact ih _ h

theorem relateArg_spec {call : CallSite} {i : Nat} {ty : TypeId} {arg : Value}
    (h : r.relateArg call i ty arg s = .ok t) :
    s.Extends t ∧ ∀ v, r.paramVar call.site ty i = .ok (some v) → r.Feeds t v arg := by
  simp only [relateArg, bind_eq_ok] at h
  obtain ⟨param, hparam, h⟩ := h
  split at h
  · simp only [pure_eq, Except.ok.injEq] at h
    subst h
    refine ⟨.refl _, fun v hv => ?_⟩
    have := Except.ok.inj (hparam.symm.trans hv)
    cases this
  · rename_i param
    simp only [bind_eq_ok, pure_eq, Except.ok.injEq] at h
    obtain ⟨⟨vs, t₁⟩, hvars, ⟨holders, t₂⟩, hholders, nested, _, rfl⟩ := h
    obtain ⟨hext, hall⟩ := sourceVars_spec arg hvars
    have hadd := t₁.extends_addAll param vs call.span
    have hrest := (holderVars_extends hholders).trans (relateNested_extends call nested holders t₂)
    refine ⟨(s.extends_addVar _).trans (hext.trans (hadd.trans hrest)), fun v hv => ?_⟩
    obtain rfl := Option.some.inj (Except.ok.inj (hparam.symm.trans hv))
    intro src hsrc
    refine ⟨(hall src hsrc).1.mono (hadd.trans hrest), fun u hu => hrest.relates ?_⟩
    exact t₁.relates_addAll param call.span ((hall src hsrc).2 u hu)

theorem relateArgs_spec {call : CallSite} {i : Nat} {types : List TypeId} {args : List Value}
    (h : r.relateArgs call i types args s = .ok t) :
    s.Extends t ∧ ∀ j ty arg v, types[j]? = some ty → args[j]? = some arg →
      r.paramVar call.site ty (i + j) = .ok (some v) → r.Feeds t v arg := by
  induction types generalizing i args s with
  | nil =>
    simp only [relateArgs, Except.ok.injEq] at h
    subst h
    exact ⟨.refl _, by simp⟩
  | cons ty types ih =>
    cases args with
    | nil =>
      simp only [relateArgs, Except.ok.injEq] at h
      subst h
      exact ⟨.refl _, by simp⟩
    | cons arg args =>
      simp only [relateArgs, bind_eq_ok] at h
      obtain ⟨t₁, hfirst, hrest⟩ := h
      obtain ⟨hext₁, hfeeds⟩ := relateArg_spec hfirst
      obtain ⟨hext₂, hall⟩ := ih hrest
      refine ⟨hext₁.trans hext₂, ?_⟩
      intro j ty' arg' v hty harg hv
      cases j with
      | zero =>
        obtain rfl := Option.some.inj hty
        obtain rfl := Option.some.inj harg
        exact (hfeeds v hv).mono hext₂
      | succ j =>
        refine hall j ty' arg' v hty harg ?_
        rwa [Nat.add_right_comm]

/-- All that generation relates for a call. -/
structure CallRelated (r : RegionProblem) (s : ConstraintSet) (call : CallSite) : Prop where
  args : ∀ i ty arg v, call.signature.params[i]? = some ty → call.args[i]? = some arg →
    r.paramVar call.site ty i = .ok (some v) → r.Feeds s v arg
  outlives : ∀ longer shorter, (longer, shorter) ∈ call.signature.outlives →
    s.Relates (instanceVar call.site shorter) (instanceVar call.site longer)

theorem CallRelated.mono {call : CallSite} (h : s.Extends t) (hc : r.CallRelated s call) : r.CallRelated t call :=
  ⟨fun i ty arg v hty harg hv => (hc.args i ty arg v hty harg hv).mono h,
    fun longer shorter hp => h.relates (hc.outlives longer shorter hp)⟩

theorem relateCall_spec {call : CallSite} (h : r.relateCall s call = .ok t) :
    s.Extends t ∧ r.CallRelated t call := by
  simp only [relateCall, bind_eq_ok, pure_eq, Except.ok.injEq] at h
  obtain ⟨_, _, t₁, hargs, rfl⟩ := h
  obtain ⟨hext, hall⟩ := relateArgs_spec hargs
  have hout := relateOutlives_extends call t₁
  refine ⟨hext.trans hout, fun i ty arg v hty harg hv => (hall i ty arg v hty harg ?_).mono hout,
    fun longer shorter => relateOutlives_relates call t₁⟩
  rwa [Nat.zero_add]

theorem relateLoan_extends (r : RegionProblem) (s : ConstraintSet) (a : Access) :
    s.Extends (r.relateLoan s a) := by
  unfold relateLoan
  split
  · exact .refl s
  · simp only
    split
    · split
      · exact (s.extends_addVar _).trans (ConstraintSet.extends_add _ _ _ _)
      · exact s.extends_addVar _
    · exact s.extends_addVar _

theorem relateLoan_relates {a : Access} {site : Site} {w : RegionVar} (hl : a.loan = some site)
    (hw : r.holder? a.place.root = some w) (hd : a.place.throughDeref = true) :
    (r.relateLoan s a).Relates (.loan site) w := by
  unfold relateLoan
  simp only [hl, hw, hd, if_true]
  exact ConstraintSet.relates_add _ _ _ _

theorem relateFlow_spec {f : Flow} (h : r.relateFlow s f = .ok t) :
    s.Extends t ∧ ∀ d, r.holder? f.dest.root = some d → r.Feeds t d f.value := by
  unfold relateFlow at h
  split at h
  · rename_i hnone
    simp only [pure_eq, Except.ok.injEq] at h
    subst h
    exact ⟨.refl _, fun d hd => by simp [hnone] at hd⟩
  · rename_i dest hdest
    simp only [bind_eq_ok, pure_eq, Except.ok.injEq] at h
    obtain ⟨⟨vs, t₁⟩, hvars, rfl⟩ := h
    obtain ⟨hext, hall⟩ := sourceVars_spec f.value hvars
    have hadd := t₁.extends_addAll dest vs f.span
    refine ⟨hext.trans hadd, fun d hd src hsrc => ?_⟩
    obtain rfl := Option.some.inj (hdest.symm.trans hd)
    refine ⟨(hall src hsrc).1.mono hadd, fun u hu => ?_⟩
    exact t₁.relates_addAll dest f.span ((hall src hsrc).2 u hu)

/-- All that generation relates for the effects of one point. -/
structure Generated (r : RegionProblem) (s : ConstraintSet) (fx : Effects) : Prop where
  loans : ∀ a ∈ fx.accesses, ∀ site w, a.loan = some site → r.holder? a.place.root = some w →
    a.place.throughDeref = true → s.Relates (.loan site) w
  calls : ∀ c ∈ fx.calls, r.CallRelated s c
  flows : ∀ f ∈ fx.flows, ∀ d, r.holder? f.dest.root = some d → r.Feeds s d f.value

theorem Generated.mono {fx : Effects} (h : s.Extends t) (hg : r.Generated s fx) : r.Generated t fx :=
  ⟨fun a ha site w hl hw hd => h.relates (hg.loans a ha site w hl hw hd),
    fun c hc => (hg.calls c hc).mono h, fun f hf d hd => (hg.flows f hf d hd).mono h⟩

theorem foldl_relateLoan_relates {as : List Access} {a : Access} (ha : a ∈ as) {site : Site} {w : RegionVar}
    (hl : a.loan = some site) (hw : r.holder? a.place.root = some w) (hd : a.place.throughDeref = true) :
    (as.foldl r.relateLoan s).Relates (.loan site) w := by
  induction as generalizing s with
  | nil => cases ha
  | cons b as ih =>
    rcases List.mem_cons.mp ha with rfl | ha
    · exact (ConstraintSet.Extends.foldl r.relateLoan_extends as _).relates
        (relateLoan_relates hl hw hd)
    · exact ih ha

theorem relatePoint_spec {fx : Effects} (h : r.relatePoint s fx = .ok t) :
    s.Extends t ∧ r.Generated t fx := by
  simp only [relatePoint, bind_eq_ok] at h
  obtain ⟨t₁, hcalls, hflows⟩ := h
  have hloans := ConstraintSet.Extends.foldl r.relateLoan_extends fx.accesses s
  obtain ⟨hext₁, hcall⟩ := ConstraintSet.Extends.foldlM (fun c t => r.CallRelated t c)
    (fun c s t => CallRelated.mono) (fun c s t => relateCall_spec) hcalls
  obtain ⟨hext₂, hflow⟩ := ConstraintSet.Extends.foldlM
    (fun (f : Flow) t => ∀ d, r.holder? f.dest.root = some d → r.Feeds t d f.value)
    (fun f s t hst hf d hd => (hf d hd).mono hst) (fun f s t => relateFlow_spec) hflows
  refine ⟨hloans.trans (hext₁.trans hext₂), ?_, ?_, hflow⟩
  · intro a ha site w hl hw hd
    exact (hext₁.trans hext₂).relates (foldl_relateLoan_relates ha hl hw hd)
  · exact fun c hc => (hcall c hc).mono hext₂

/-- Generation relates all it should at every point, and keeps the variables it starts with. -/
theorem generate_spec {points : List Point} (h : r.generate points = .ok t) :
    initialVars r.frame ⊆ t.vars ∧ ∀ p ∈ points, r.Generated t (r.effects.get p) := by
  obtain ⟨hext, hall⟩ := ConstraintSet.Extends.foldlM
    (fun p t => r.Generated t (r.effects.get p))
    (fun p s t hst hg => hg.mono hst) (fun p s t => relatePoint_spec) h
  exact ⟨hext.vars, hall⟩

end RegionProblem

end Ownership
