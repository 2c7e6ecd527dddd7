import Ownership.Proofs.Effect.Evaluation
import Ownership.Proofs.Region.Frame

/-!
Region inference looks up types and calls that are there. Where every type is in the table,
declaring the regions of a function and generating its constraints fail only with a breach of
contract.
-/
namespace Ownership

open Outcome

namespace Context

variable {cx : Context}

/-- The types of all that can be called are in the table, so those of the function's own signature are. -/
theorem Typed.ownSignature (h : cx.Typed) : cx.ownSignature.Known cx.types := by
  unfold Context.ownSignature
  cases hs : cx.signatures.get? cx.function.name with
  | none => exact h.function.signature
  | some s => exact h.signatures s (List.mem_of_find?_eq_some hs)

theorem Typed.param_known (h : cx.Typed) {p : Param} (hp : p ∈ cx.function.params) :
    ∀ x ∈ some p.ty, cx.types.Knows x :=
  (h.function.signature.params p.ty (List.mem_map_of_mem hp)).some

theorem paramRegion_failsOnly (h : cx.Typed) {p : Param} (hp : p ∈ cx.function.params) :
    FailsOnly Fault.IsBreach (cx.paramRegion p) := by
  refine FailsOnly.bind (.ofTypes (h.founded.regionOf (h.param_known hp))) fun region _ => ?_
  cases region with
  | none => exact .ok _
  | some region => exact FailsOnly.ite (fun _ => .ok _) fun _ => .breach

theorem declareParam_failsOnly (h : cx.Typed) (r : RegionFrame) {p : Param} (hp : p ∈ cx.function.params) :
    FailsOnly Fault.IsBreach (cx.declareParam r p) := by
  refine FailsOnly.bind (.ofTypes (h.founded.carriesRefs (h.param_known hp))) fun carries _ => ?_
  refine FailsOnly.ite (fun _ => ?_) fun _ => .ok _
  refine (paramRegion_failsOnly h hp).bind fun region _ => ?_
  exact FailsOnly.bind (.ofTypes (h.founded.nestedRegions (h.param_known hp))) fun _ _ => .ok _

theorem anonymousReturn_failsOnly (h : cx.Typed) {s : Signature} (hs : s.Known cx.types) :
    FailsOnly Fault.IsBreach (cx.anonymousReturn s) := by
  refine FailsOnly.bind (.ofTypes (Signature.elisionSource_neverFails hs h.founded)) fun source _ => ?_
  cases source with
  | none => exact .breach
  | some i =>
    cases hp : cx.function.params[i]? with
    | none =>
      simp only [hp]
      exact .breach
    | some p =>
      have hknown := h.param_known (List.mem_of_getElem? hp)
      simp only [hp]
      refine FailsOnly.bind (.ofTypes (h.founded.carriesRefs hknown)) fun carries _ => ?_
      refine FailsOnly.bind (.ofTypes (h.founded.regionOf hknown)) fun region _ => ?_
      exact FailsOnly.ite (fun _ => .ok _) fun _ => .breach

theorem declareReturn_failsOnly (h : cx.Typed) {s : Signature} (hs : s.Known cx.types) (r : RegionFrame) :
    FailsOnly Fault.IsBreach (cx.declareReturn s r) := by
  unfold declareReturn
  cases hslot : cx.function.bindings.get? returnSlot with
  | none => exact .ok r
  | some slot =>
    have hknown := (h.function.bindings returnSlot slot hslot).some
    refine FailsOnly.bind (.ofTypes (h.founded.carriesRefs hknown)) fun carries _ => ?_
    refine FailsOnly.ite (fun _ => ?_) fun _ => .ok _
    refine FailsOnly.bind (.ofTypes (Signature.returnRegion_neverFails hs h.founded)) fun named _ => ?_
    cases named with
    | some region => exact .ok _
    | none => exact (anonymousReturn_failsOnly h hs).bind fun _ _ => .ok _

theorem declareUniversals_failsOnly (h : cx.Typed) {s : Signature} (hs : s.Known cx.types) :
    FailsOnly Fault.IsBreach (cx.declareUniversals s) := by
  refine FailsOnly.bind (.foldlM (fun _ => True) (fun r p hp _ => ?_) trivial) fun r _ =>
    declareReturn_failsOnly h hs r
  exact ⟨declareParam_failsOnly h r hp, fun _ _ => trivial⟩

theorem trackedLocals_neverFails (h : cx.Typed) : NeverFails cx.trackedLocals := by
  refine FailsOnly.bind (.filterM fun ⟨id, b⟩ hb => ?_) fun _ _ => .ok _
  refine FailsOnly.ite (fun _ => .ofTypes ?_) fun _ => .ok _
  have hknown := h.function.bindings id b (OrderedMap.get?_eq_some_of_mem hb)
  exact h.founded.carriesRefs hknown.some

/-- Only bindings of the function hold a region. -/
def Bears (cx : Context) (r : RegionFrame) : Prop :=
  ∀ id v, r.holders.get? id = some v → ∃ b, cx.function.bindings.get? id = some b

theorem Bears.hold {r : RegionFrame} (h : cx.Bears r) {id : BindingId} {b : Binding}
    (hb : cx.function.bindings.get? id = some b) (v : RegionVar) : cx.Bears (r.hold id v) := by
  intro j u hu
  by_cases hj : j = id
  · exact ⟨b, hj ▸ hb⟩
  · exact h j u ((OrderedMap.get?_insert_other _ _ hj).symm.trans hu)

theorem Bears.addUniversal {r : RegionFrame} (h : cx.Bears r) (name : String) : cx.Bears (r.addUniversal name) := by
  unfold RegionFrame.addUniversal
  split <;> exact h

theorem Bears.addUniversals {r : RegionFrame} (h : cx.Bears r) (names : List String) :
    cx.Bears (names.foldl RegionFrame.addUniversal r) := by
  induction names generalizing r with
  | nil => exact h
  | cons name names ih => exact ih (h.addUniversal name)

theorem declareParam_bears (hbound : cx.function.WellBound) {r r' : RegionFrame} {p : Param}
    (hp : p ∈ cx.function.params) (hr : cx.Bears r) (h : cx.declareParam r p = .ok r') : cx.Bears r' := by
  rcases declareParam_cases h with ⟨_, rfl⟩ | ⟨_, region, nested, _, _, rfl⟩
  · exact hr
  · exact (hr.addUniversal region).hold (hbound.bound p hp).2 _

theorem declareReturn_bears {signature : Signature} {r r' : RegionFrame} (hr : cx.Bears r)
    (h : cx.declareReturn signature r = .ok r') : cx.Bears r' := by
  unfold declareReturn at h
  cases hslot : cx.function.bindings.get? returnSlot with
  | none =>
    simp only [hslot, pure_eq, Except.ok.injEq] at h
    exact h ▸ hr
  | some slot =>
    simp only [hslot, bind_eq_ok] at h
    obtain ⟨carries, _, h⟩ := h
    split at h
    · simp only [bind_eq_ok] at h
      obtain ⟨named, _, h⟩ := h
      cases named with
      | some region =>
        obtain rfl := Except.ok.inj h
        exact (hr.addUniversal region).hold hslot _
      | none =>
        simp only [bind_eq_ok, pure_eq, Except.ok.injEq] at h
        obtain ⟨region, _, rfl⟩ := h
        exact hr.hold hslot _
    · exact Except.ok.inj h ▸ hr

theorem declareUniversals_bears (hbound : cx.function.WellBound) {signature : Signature} {r : RegionFrame}
    (h : cx.declareUniversals signature = .ok r) : cx.Bears r := by
  simp only [declareUniversals, bind_eq_ok] at h
  obtain ⟨r', hparams, hreturn⟩ := h
  have hstart : cx.Bears {} := fun _ _ hv => by cases hv
  refine declareReturn_bears ?_ hreturn
  exact foldlM_invariant cx.Bears (fun r p r' hp hr hs => declareParam_bears hbound hp hr hs)
    (hstart.addUniversals _) hparams

theorem declareLocals_bears {r : RegionFrame} (hr : cx.Bears r) (tracked : List BindingId) :
    cx.Bears (cx.declareLocals tracked r) := by
  intro id v hv
  rcases cx.declareLocals_get? tracked r id with ⟨b, _, hb, _⟩ | ⟨_, hsame⟩
  · exact ⟨b, hb⟩
  · exact hr id v (hsame.symm.trans hv)

end Context

namespace RegionProblem

variable {r : RegionProblem} {s : ConstraintSet}

/-- What generation may rely on: every type that a callee mentions is in the table. -/
structure Typed (r : RegionProblem) : Prop where
  founded : r.types.Founded
  callees : ∀ p, ∀ c ∈ (r.effects.get p).calls, c.signature.Known r.types

variable (h : r.Typed)

include h

theorem paramVar_failsOnly {site : Site} {ty : TypeId} (hty : r.types.Knows ty) (i : Nat) :
    FailsOnly Fault.IsBreach (r.paramVar site ty i) := by
  refine FailsOnly.bind (.ofTypes (h.founded.carriesRefs hty.some)) fun carries _ => ?_
  refine FailsOnly.ite (fun _ => ?_) fun _ => .ok _
  exact FailsOnly.bind (.ofTypes (h.founded.regionOf hty.some)) fun _ _ => .ok _

theorem resultRegion_failsOnly {call : CallSite} (hc : call.signature.Known r.types) :
    FailsOnly Fault.IsBreach (r.resultRegion call) := by
  refine FailsOnly.bind (.ofTypes (Signature.returnRegion_neverFails hc h.founded)) fun named _ => ?_
  cases named with
  | some region => exact .ok _
  | none =>
    refine FailsOnly.bind (.ofTypes (Signature.elisionSource_neverFails hc h.founded)) fun source _ => ?_
    cases source with
    | none => exact .breach
    | some i =>
      cases hty : call.signature.params[i]? with
      | none =>
        simp only [hty]
        exact .ok _
      | some ty =>
        simp only [hty]
        exact paramVar_failsOnly h (hc.params ty (List.mem_of_getElem? hty)) i

theorem resultVar_failsOnly (site : Site) : FailsOnly Fault.IsBreach (r.resultVar site s) := by
  unfold resultVar
  cases hcall : r.call? site with
  | none => exact .ok _
  | some call =>
    have hknown := h.callees _ call (List.mem_of_find?_eq_some hcall)
    refine FailsOnly.bind (resultRegion_failsOnly h hknown) fun result _ => ?_
    cases result with
    | none => exact .ok _
    | some result => exact FailsOnly.bind (.ofTypes (h.founded.nestedRegions hknown.ret)) fun _ _ => .ok _

omit h

mutual

theorem sourceVar_failsOnly (h : r.Typed) : ∀ (src : Source) {s : ConstraintSet},
    FailsOnly Fault.IsBreach (r.sourceVar src s)
  | .loan _, _ | .place _, _ => .ok _
  | .call site, _ => resultVar_failsOnly h site
  | .aggregate _ parts, _ => (relateParts_failsOnly h parts).bind fun _ _ => .ok _

theorem sourceVars_failsOnly (h : r.Typed) : ∀ (value : List Source) {s : ConstraintSet},
    FailsOnly Fault.IsBreach (r.sourceVars value s)
  | [], _ => .ok _
  | src :: rest, _ => (sourceVar_failsOnly h src).bind fun _ _ => (sourceVars_failsOnly h rest).bind fun _ _ => .ok _

theorem relateParts_failsOnly (h : r.Typed) : ∀ (parts : List (List Source)) {agg : RegionVar} {s : ConstraintSet},
    FailsOnly Fault.IsBreach (r.relateParts agg parts s)
  | [], _, _ => .ok _
  | part :: rest, _, _ => (sourceVars_failsOnly h part).bind fun _ _ => relateParts_failsOnly h rest

end

include h

theorem holderVars_failsOnly (value : Value) : FailsOnly Fault.IsBreach (r.holderVars value s) := by
  refine .foldlM (fun _ => True) (fun acc src _ _ => ⟨FailsOnly.bind ?_ fun _ _ => .ok _, fun _ _ => trivial⟩) trivial
  cases src with
  | loan site => exact .ok _
  | place p => exact sourceVar_failsOnly h (.place p)
  | call site => exact sourceVar_failsOnly h (.call site)
  | aggregate site parts => exact sourceVar_failsOnly h (.aggregate site parts)

theorem relateArg_failsOnly {call : CallSite} {i : Nat} {ty : TypeId} (hty : r.types.Knows ty) (arg : Value) :
    FailsOnly Fault.IsBreach (r.relateArg call i ty arg s) := by
  refine (paramVar_failsOnly h hty i).bind fun param _ => ?_
  cases param with
  | none => exact .ok _
  | some param =>
    refine (sourceVars_failsOnly h arg).bind fun vs _ => (holderVars_failsOnly h arg).bind fun holders _ => ?_
    exact FailsOnly.bind (.ofTypes (h.founded.nestedRegions hty.some)) fun _ _ => .ok _

theorem relateArgs_failsOnly {call : CallSite} {types : List TypeId} (htypes : ∀ ty ∈ types, r.types.Knows ty) :
    ∀ (i : Nat) (args : List Value) {s : ConstraintSet},
      FailsOnly Fault.IsBreach (r.relateArgs call i types args s) := by
  induction types with
  | nil => exact fun _ _ _ => .ok _
  | cons ty types ih =>
    intro i args s
    cases args with
    | nil => exact .ok _
    | cons arg args =>
      refine (relateArg_failsOnly h (htypes ty List.mem_cons_self) arg).bind fun _ _ => ?_
      exact ih (fun x hx => htypes x (List.mem_cons_of_mem ty hx)) (i + 1) args

theorem relateCall_failsOnly {call : CallSite} (hc : call.signature.Known r.types) :
    FailsOnly Fault.IsBreach (r.relateCall s call) := by
  refine (Signature.validate_failsOnly hc h.founded).bind fun _ _ => ?_
  exact (relateArgs_failsOnly h hc.params 0 call.args).bind fun _ _ => .ok _

theorem relateFlow_failsOnly (f : Flow) : FailsOnly Fault.IsBreach (r.relateFlow s f) := by
  unfold relateFlow
  cases r.holder? f.dest.root with
  | none => exact .ok _
  | some dest => exact (sourceVars_failsOnly h f.value).bind fun _ _ => .ok _

/-- Generation fails only with a breach of contract. -/
theorem generate_failsOnly (points : List Point) : FailsOnly Fault.IsBreach (r.generate points) := by
  refine .foldlM (fun _ => True) (fun s p _ _ => ⟨?_, fun _ _ => trivial⟩) trivial
  refine FailsOnly.bind (.foldlM (fun _ => True) (fun s c hc _ => ?_) trivial) fun s _ => ?_
  · exact ⟨relateCall_failsOnly h (h.callees p c hc), fun _ _ => trivial⟩
  · exact .foldlM (fun _ => True) (fun s f _ _ => ⟨relateFlow_failsOnly h f, fun _ _ => trivial⟩) trivial

end RegionProblem

theorem Context.Typed.regionProblem {cx : Context} (h : cx.Typed) {g : Graph} {fx : EffectMap}
    (hfx : cx.effects g = .ok fx) (frame : RegionFrame) :
    RegionProblem.Typed { types := cx.types, effects := fx, frame := frame } :=
  ⟨h.founded, fun _ c hc => h.signatures c.signature (Context.callee_of_effects hfx hc)⟩

theorem Context.extentProblem_failsOnly {cx : Context} (h : cx.Typed) {g : Graph} {fx : EffectMap}
    (hfx : cx.effects g = .ok fx) (frame : RegionFrame) (live : Liveness) :
    FailsOnly Fault.IsBreach (cx.extentProblem g fx frame live) :=
  (RegionProblem.generate_failsOnly (h.regionProblem hfx _) g.allPoints).bind fun _ _ => .ok _

end Ownership
