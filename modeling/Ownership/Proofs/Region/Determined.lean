import Ownership.Proofs.Effect.Sources
import Ownership.Proofs.Region.Escape
import Ownership.Proofs.Verdict.Survival

/-!
What checking a signature settles for region inference. A checked signature names
declared regions only, and a result without a region of its own takes one from a
parameter. So neither the regions of the function nor those of a call can be in
doubt: a call is met after the calls that it is passed results of, and each is
checked as it is met. The only breaches left are those of the callees.
-/
namespace Ownership

open Outcome

theorem Outcome.FailsOnly.lookup {α : Type} {kind : Fault → Prop} (htypes : ∀ f, kind (.types f))
    (r : Except TypeFault α) : FailsOnly kind (Fault.ofTypes r) := by
  cases r with
  | error f => exact .error (htypes f)
  | ok a => exact .ok a

theorem Outcome.forM_eq_ok {ε α : Type} {f : α → Except ε Unit} {xs : List α} (h : xs.forM f = .ok ()) :
    ∀ x ∈ xs, f x = .ok () := by
  induction xs with
  | nil => exact fun _ hx => by cases hx
  | cons x xs ih =>
    have hcons : (x :: xs).forM f = (f x >>= fun _ => xs.forM f) := rfl
    rw [hcons, bind_eq_ok] at h
    obtain ⟨⟨⟩, hx, hxs⟩ := h
    exact List.forall_mem_cons.mpr ⟨hx, ih hxs⟩

theorem TypeTable.mem_joinRegions {region : String} {outer : Option String} (h : region ∈ outer)
    (inner : List String) : region ∈ joinRegions outer inner := by
  have hkeeps : ∀ (inner out : List String), region ∈ out →
      region ∈ inner.foldl (fun out r => if out.contains r then out else out ++ [r]) out := by
    intro inner
    induction inner with
    | nil => exact fun _ hout => hout
    | cons r inner ih =>
      intro out hout
      refine ih _ ?_
      beta_reduce
      split
      · exact hout
      · exact List.mem_append_left _ hout
  exact hkeeps inner _ (Option.mem_toList.mpr h)

namespace Signature

variable {s : Signature} {types : TypeTable}

/-- Regions are declared, and a result that names none takes it from a parameter without a named one. -/
structure Determined (s : Signature) (types : TypeTable) : Prop where
  params : ∀ ty ∈ s.params, ∀ region, types.regionOf (some ty) = .ok (some region) → s.declares region = true
  elided : types.carriesRefs s.ret = .ok true → s.returnRegion types = .ok none →
    ∃ i ty, s.elisionSource types = .ok (some i) ∧ s.params[i]? = some ty ∧
      types.carriesRefs (some ty) = .ok true ∧ types.regionOf (some ty) = .ok none

/-- The parameters that are found to carry references do. -/
theorem carries_of_carrying {found : List Nat} (h : s.carrying types = .ok found) {i : Nat} (hi : i ∈ found) :
    ∃ ty, s.params[i]? = some ty ∧ types.carriesRefs (some ty) = .ok true := by
  simp only [carrying, bind_eq_ok, pure_eq, Except.ok.injEq] at h
  obtain ⟨flags, hflags, rfl⟩ := h
  have hflag : flags[i]? = some true := by simpa using (List.mem_filter.mp hi).2
  have hmap : flags.map Except.ok = s.params.map fun ty => types.carriesRefs (some ty) :=
    map_of_mapM hflags fun _ _ _ hy => hy.symm
  have hget := congrArg (·[i]?) hmap
  simp only [List.getElem?_map, hflag, Option.map_some] at hget
  obtain ⟨ty, hty, hcarries⟩ := Option.map_eq_some_iff.mp hget.symm
  exact ⟨ty, hty, hcarries⟩

/-- An unnamed region is taken from a parameter that carries references. -/
theorem carries_of_elisionSource {i : Nat} (h : s.elisionSource types = .ok (some i)) :
    ∃ ty, s.params[i]? = some ty ∧ types.carriesRefs (some ty) = .ok true := by
  simp only [elisionSource, bind_eq_ok] at h
  obtain ⟨found, hfound, h⟩ := h
  split at h
  · simp at h
  · simp only [pure_eq, Except.ok.injEq, Option.some.injEq] at h
    exact carries_of_carrying hfound (h ▸ List.mem_cons_self)
  · simp only [bind_eq_ok, pure_eq, Except.ok.injEq] at h
    obtain ⟨_, _, _, _, h⟩ := h
    split at h
    · exact carries_of_carrying hfound (Option.some.inj h ▸ List.mem_cons_self)
    · cases h

/-- A result that carries references has no named region only where there is no source, or the source has none. -/
theorem source_of_returnRegion (hcarries : types.carriesRefs s.ret = .ok true)
    (h : s.returnRegion types = .ok none) : types.regionOf s.ret = .ok none ∧
      ∃ source, s.elisionSource types = .ok source ∧ ∀ i ∈ source, s.paramRegion types i = .ok none := by
  simp only [returnRegion, bind_eq_ok] at h
  obtain ⟨region, hregion, h⟩ := h
  cases region with
  | some region => simp at h
  | none =>
    refine ⟨hregion, ?_⟩
    simp only [Option.isSome_none, Bool.false_eq_true, if_false, hcarries, bind_eq_ok, Except.ok.injEq,
      exists_eq_left', if_true] at h
    obtain ⟨found, _, h⟩ := h
    split at h
    · simp at h
    · simp only [bind_eq_ok] at h
      obtain ⟨source, hsource, h⟩ := h
      refine ⟨source, hsource, fun i hi => ?_⟩
      obtain rfl := Option.mem_def.mp hi
      exact h

theorem declares_of_checkRegions {ty : Option TypeId} (h : s.checkRegions types ty = .ok ()) {region : String}
    (hregion : types.regionOf ty = .ok (some region)) : s.declares region = true := by
  simp only [checkRegions, bind_eq_ok] at h
  obtain ⟨regions, hregions, h⟩ := h
  have hnone : regions.find? (!s.declares ·) = none := by
    split at h
    · simp at h
    · assumption
  cases ty with
  | none => simp [TypeTable.regionOf] at hregion
  | some ty =>
    have hregions := Fault.ofTypes_eq_ok.mp hregions
    simp only [TypeTable.regionsIn, hregion, bind_eq_ok, pure_eq, Except.ok.injEq, exists_eq_left'] at hregions
    obtain ⟨inner, _, rfl⟩ := hregions
    simpa using List.find?_eq_none.mp hnone region (TypeTable.mem_joinRegions rfl inner)

/-- A checked signature leaves no region in doubt. -/
theorem determined_of_validate (h : s.validate types = .ok ()) : s.Determined types := by
  simp only [validate, bind_eq_ok] at h
  obtain ⟨⟨⟩, hchecked, h⟩ := h
  refine ⟨fun ty hty region hregion => ?_, fun hret hnone => ?_⟩
  · refine declares_of_checkRegions (forM_eq_ok hchecked (some ty) ?_) hregion
    exact List.mem_append_left _ (List.mem_map_of_mem hty)
  · obtain ⟨hregion, source, hsource, hparam⟩ := source_of_returnRegion hret hnone
    cases source with
    | none =>
      split at h
      · simp at h
      · simp [Fault.ofTypes_eq_ok.mpr hret, Fault.ofTypes_eq_ok.mpr hregion, Fault.ofTypes_eq_ok.mpr hnone,
          Fault.ofTypes_eq_ok.mpr hsource] at h
    | some i =>
      obtain ⟨ty, hty, htyc⟩ := carries_of_elisionSource hsource
      have hunnamed := hparam i rfl
      rw [paramRegion, hty] at hunnamed
      exact ⟨i, ty, hsource, hty, htyc, hunnamed⟩

/-- What checking a signature can find. -/
inductive Flaw (s : Signature) : Breach → Prop where
  | region (region : String) : Flaw s (.undeclaredRegion s.name region)
  | outlives (longer shorter : String) : Flaw s (.undeclaredOutlives s.name longer shorter)
  | result : Flaw s (.returnNotElidable s.name)

theorem flaw_of_validate {cause : Breach} {loc : Span} (h : s.validate types = .error (.breach cause loc)) :
    s.Flaw cause := by
  have hfails : FailsOnly (fun e => ∀ cause loc, e = Fault.breach cause loc → s.Flaw cause) (s.validate types) := by
    have htypes : ∀ f cause loc, Fault.types f = Fault.breach cause loc → s.Flaw cause := fun _ _ _ he => by cases he
    refine FailsOnly.bind (.forM fun ty _ => ?_) fun _ _ => ?_
    · refine FailsOnly.bind (.lookup htypes _) fun regions _ => ?_
      cases regions.find? (!s.declares ·) with
      | some region => exact .error fun _ _ he => by cases he; exact .region region
      | none => exact .ok ()
    cases s.outlives.find? fun p => !(s.declares p.1 && s.declares p.2) with
    | some pair => exact .error fun _ _ he => by cases he; exact .outlives pair.1 pair.2
    | none =>
      refine FailsOnly.bind (.lookup htypes (types.carriesRefs s.ret)) fun _ _ =>
        FailsOnly.ite (fun _ => ?_) fun _ => .ok ()
      refine FailsOnly.bind (.lookup htypes _) fun _ _ => FailsOnly.ite (fun _ => ?_) fun _ => .ok ()
      refine FailsOnly.bind (.lookup htypes _) fun _ _ => FailsOnly.ite (fun _ => ?_) fun _ => .ok ()
      refine FailsOnly.bind (.lookup htypes _) fun _ _ => FailsOnly.ite (fun _ => ?_) fun _ => .ok ()
      exact .error fun _ _ he => by cases he; exact .result
  exact hfails _ h cause loc rfl

end Signature

namespace Context

variable {cx : Context} {kind : Fault → Prop}

theorem paramRegion_determined (htypes : ∀ f, kind (.types f)) (h : cx.function.signature.Determined cx.types)
    {p : Param} (hp : p ∈ cx.function.params) : FailsOnly kind (cx.paramRegion p) := by
  refine FailsOnly.bind (.lookup htypes _) fun region hregion => ?_
  cases region with
  | none => exact .ok _
  | some region =>
    have hdeclares := h.params p.ty (List.mem_map_of_mem hp) region (Fault.ofTypes_eq_ok.mp hregion)
    exact FailsOnly.ite (fun _ => .ok _) fun hnot => absurd hdeclares hnot

theorem anonymousReturn_determined (h : cx.function.signature.Determined cx.types)
    (hret : cx.types.carriesRefs cx.function.ret = .ok true)
    (hnone : cx.function.signature.returnRegion cx.types = .ok none) :
    ∃ region, cx.anonymousReturn cx.function.signature = .ok region := by
  obtain ⟨i, ty, hsource, hty, hcarries, hregion⟩ := h.elided hret hnone
  simp only [Function.signature, List.getElem?_map, Option.map_eq_some_iff] at hty
  obtain ⟨p, hp, rfl⟩ := hty
  refine ⟨p.anonymousRegion, ?_⟩
  simp [anonymousReturn, Fault.ofTypes_eq_ok.mpr hsource, Fault.ofTypes_eq_ok.mpr hcarries,
    Fault.ofTypes_eq_ok.mpr hregion, hp]

/-- The regions of a function with a checked signature can be declared. -/
theorem declareUniversals_determined (htypes : ∀ f, kind (.types f))
    (h : cx.function.signature.Determined cx.types)
    (hslot : ∀ b, cx.function.bindings.get? returnSlot = some b → cx.types.carriesRefs (some b.ty) = .ok true →
      cx.types.carriesRefs cx.function.ret = .ok true) :
    FailsOnly kind (cx.declareUniversals cx.function.signature) := by
  refine FailsOnly.bind (.foldlM (fun _ => True) (fun r p hp _ => ⟨?_, fun _ _ => trivial⟩) trivial) fun r _ => ?_
  · refine FailsOnly.bind (.lookup htypes _) fun _ _ => FailsOnly.ite (fun _ => ?_) fun _ => .ok _
    exact (paramRegion_determined htypes h hp).bind fun _ _ => FailsOnly.bind (.lookup htypes _) fun _ _ => .ok _
  · unfold declareReturn
    cases hb : cx.function.bindings.get? returnSlot with
    | none => exact .ok r
    | some slot =>
      refine FailsOnly.bind (.lookup htypes _) fun carries hcarries => FailsOnly.ite (fun htrue => ?_) fun _ => .ok _
      refine FailsOnly.bind (.lookup htypes _) fun named hnamed => ?_
      cases named with
      | some region => exact .ok _
      | none =>
        have hret := hslot slot hb (htrue ▸ Fault.ofTypes_eq_ok.mp hcarries)
        obtain ⟨region, hregion⟩ := anonymousReturn_determined h hret (Fault.ofTypes_eq_ok.mp hnamed)
        exact FailsOnly.bind (.of_eq_ok hregion) fun _ _ => .ok _

end Context

namespace RegionProblem

variable {r : RegionProblem} {kind : Fault → Prop} {calls : List CallSite} {s : ConstraintSet}

theorem paramVar_lookups (htypes : ∀ f, kind (.types f)) (site : Site) (ty : TypeId) (i : Nat) :
    FailsOnly kind (r.paramVar site ty i) := by
  refine FailsOnly.bind (.lookup htypes _) fun _ _ => FailsOnly.ite (fun _ => ?_) fun _ => .ok _
  exact FailsOnly.bind (.lookup htypes _) fun _ _ => .ok _

theorem resultRegion_determined (htypes : ∀ f, kind (.types f)) {call : CallSite}
    (h : call.signature.Determined r.types) (hcarries : r.types.carriesRefs call.signature.ret = .ok true) :
    FailsOnly kind (r.resultRegion call) := by
  refine FailsOnly.bind (.lookup htypes _) fun named hnamed => ?_
  cases named with
  | some region => exact .ok _
  | none =>
    obtain ⟨i, ty, hsource, hty, _⟩ := h.elided hcarries (Fault.ofTypes_eq_ok.mp hnamed)
    simp only [Fault.ofTypes_eq_ok.mpr hsource]
    refine FailsOnly.bind (.ok _) fun source hsome => ?_
    obtain rfl := Except.ok.inj hsome
    simp only [hty]
    exact paramVar_lookups htypes call.site ty i

/-- The calls have been found to have signatures without doubt, and are found under their sites. -/
structure Settled (r : RegionProblem) (calls : List CallSite) : Prop where
  determined : ∀ c ∈ calls, c.signature.Determined r.types
  found : ∀ c ∈ calls, r.call? c.site = some c

variable (htypes : ∀ f, kind (.types f)) (hsettled : r.Settled calls)

include htypes hsettled

theorem resultVar_settled {c : CallSite} (hc : c ∈ calls)
    (hcarries : r.types.carriesRefs c.signature.ret = .ok true) : FailsOnly kind (r.resultVar c.site s) := by
  simp only [resultVar, hsettled.found c hc]
  refine (resultRegion_determined htypes (hsettled.determined c hc) hcarries).bind fun result _ => ?_
  cases result with
  | none => exact .ok _
  | some result => exact FailsOnly.bind (.lookup htypes _) fun _ _ => .ok _

omit htypes hsettled

mutual

theorem sourceVar_settled (htypes : ∀ f, kind (.types f)) (hsettled : r.Settled calls) : ∀ (src : Source)
    {s : ConstraintSet}, src.From r.types calls → FailsOnly kind (r.sourceVar src s)
  | .loan _, _, _ | .place _, _, _ => .ok _
  | .call _, _, h => by
    cases h with
    | call hc hcarries => exact resultVar_settled htypes hsettled hc hcarries
  | .aggregate _ parts, _, h => by
    cases h with
    | aggregate hparts => exact (relateParts_settled htypes hsettled parts hparts).bind fun _ _ => .ok _

theorem sourceVars_settled (htypes : ∀ f, kind (.types f)) (hsettled : r.Settled calls) : ∀ (value : List Source)
    {s : ConstraintSet}, (∀ src ∈ value, src.From r.types calls) → FailsOnly kind (r.sourceVars value s)
  | [], _, _ => .ok _
  | src :: rest, _, h => by
    obtain ⟨hsrc, hrest⟩ := List.forall_mem_cons.mp h
    refine (sourceVar_settled htypes hsettled src hsrc).bind fun _ _ => ?_
    exact (sourceVars_settled htypes hsettled rest hrest).bind fun _ _ => .ok _

theorem relateParts_settled (htypes : ∀ f, kind (.types f)) (hsettled : r.Settled calls) :
    ∀ (parts : List (List Source)) {agg : RegionVar} {s : ConstraintSet},
      (∀ part ∈ parts, ∀ src ∈ part, src.From r.types calls) → FailsOnly kind (r.relateParts agg parts s)
  | [], _, _, _ => .ok _
  | part :: rest, _, _, h => by
    obtain ⟨hpart, hrest⟩ := List.forall_mem_cons.mp h
    refine (sourceVars_settled htypes hsettled part hpart).bind fun _ _ => ?_
    exact relateParts_settled htypes hsettled rest hrest

end

include htypes hsettled

theorem holderVars_settled {value : Value} (h : ∀ src ∈ value, src.From r.types calls) :
    FailsOnly kind (r.holderVars value s) := by
  refine .foldlM (fun _ => True) (fun acc src hsrc _ => ⟨FailsOnly.bind ?_ fun _ _ => .ok _, fun _ _ => trivial⟩)
    trivial
  have hvar := sourceVar_settled htypes hsettled src (s := acc.2) (h src hsrc)
  cases src with
  | loan site => exact .ok _
  | place | call | aggregate => exact hvar

theorem relateArg_settled {call : CallSite} {i : Nat} {ty : TypeId} {arg : Value}
    (h : ∀ src ∈ arg, src.From r.types calls) : FailsOnly kind (r.relateArg call i ty arg s) := by
  refine (paramVar_lookups htypes call.site ty i).bind fun param _ => ?_
  cases param with
  | none => exact .ok _
  | some param =>
    refine (sourceVars_settled htypes hsettled arg h).bind fun _ _ => ?_
    refine (holderVars_settled htypes hsettled h).bind fun _ _ => ?_
    exact FailsOnly.bind (.lookup htypes _) fun _ _ => .ok _

theorem relateArgs_settled {call : CallSite} : ∀ (i : Nat) (types : List TypeId) (args : List Value)
    {s : ConstraintSet}, (∀ arg ∈ args, ∀ src ∈ arg, src.From r.types calls) →
      FailsOnly kind (r.relateArgs call i types args s)
  | i, ty :: types, arg :: args, _, h => by
    obtain ⟨harg, hargs⟩ := List.forall_mem_cons.mp h
    refine (relateArg_settled htypes hsettled harg).bind fun _ _ => ?_
    exact relateArgs_settled (i + 1) types args hargs
  | _, [], _, _, _ | _, _ :: _, [], _, _ => .ok _

omit hsettled

/-- Calls in order can be related one after the other, each on what checking the ones before it settled. -/
theorem relateCalls_settled (h : CallSite.InOrder r.types calls) (hfound : ∀ c ∈ calls, r.call? c.site = some c)
    (hvalid : ∀ c ∈ calls, FailsOnly kind (c.signature.validate r.types)) :
    FailsOnly kind (calls.foldlM r.relateCall s) ∧
      ∀ t, calls.foldlM r.relateCall s = .ok t → r.Settled calls := by
  induction h with
  | nil => exact ⟨.ok s, fun _ _ => ⟨by simp, by simp⟩⟩
  | @snoc calls c _ hargs ih =>
    simp only [List.forall_mem_append, List.forall_mem_singleton] at hfound hvalid
    obtain ⟨hfails, hsettled⟩ := ih hfound.1 hvalid.1
    simp only [List.foldlM_append, List.foldlM_cons, List.foldlM_nil, bind_pure, bind_eq_ok]
    refine ⟨hfails.bind fun t ht => hvalid.2.bind fun _ _ => ?_, fun u hu => ?_⟩
    · exact (relateArgs_settled htypes (hsettled t ht) 0 _ _ hargs).bind fun _ _ => .ok _
    · obtain ⟨t, ht, hc⟩ := hu
      simp only [relateCall, bind_eq_ok] at hc
      obtain ⟨⟨⟩, hchecked, _⟩ := hc
      have hbefore := hsettled t ht
      refine ⟨fun d hd => ?_, fun d hd => ?_⟩
      · rcases List.mem_append.mp hd with hd | hd
        · exact hbefore.determined d hd
        · exact List.mem_singleton.mp hd ▸ Signature.determined_of_validate hchecked
      · rcases List.mem_append.mp hd with hd | hd
        · exact hbefore.found d hd
        · exact List.mem_singleton.mp hd ▸ hfound.2

theorem relatePoint_settled {fx : Effects} (h : fx.InOrder r.types)
    (hfound : ∀ c ∈ fx.calls, r.call? c.site = some c)
    (hvalid : ∀ c ∈ fx.calls, FailsOnly kind (c.signature.validate r.types)) :
    FailsOnly kind (r.relatePoint s fx) := by
  obtain ⟨hfails, hsettled⟩ := relateCalls_settled htypes h.calls hfound hvalid (s := fx.accesses.foldl r.relateLoan s)
  refine hfails.bind fun t ht => .foldlM (fun _ => True) (fun u f hf _ => ⟨?_, fun _ _ => trivial⟩) trivial
  unfold relateFlow
  cases r.holder? f.dest.root with
  | none => exact .ok _
  | some dest =>
    exact (sourceVars_settled htypes (hsettled t ht) f.value (h.values f hf)).bind fun _ _ => .ok _

end RegionProblem

namespace Context

variable {cx : Context} {g : Graph} {fx : EffectMap} {kind : Fault → Prop}

/-- Constraints fail to be generated only with what checking a callee gives. -/
theorem extentProblem_settled (htypes : ∀ f, kind (.types f)) (hfx : cx.effects g = .ok fx)
    (hvalid : ∀ p, ∀ c ∈ (fx.get p).calls, FailsOnly kind (c.signature.validate cx.types)) (frame : RegionFrame)
    (live : Liveness) : FailsOnly kind (cx.extentProblem g fx frame live) := by
  refine FailsOnly.bind (.foldlM (fun _ => True) (fun s p hp _ => ⟨?_, fun _ _ => trivial⟩) trivial) fun _ _ => .ok _
  refine RegionProblem.relatePoint_settled htypes (effects_inOrder hfx hp) (fun c hc => ?_) (hvalid p)
  obtain ⟨w, rfl, hget, hcollected⟩ := effects_collected hfx hp
  have hpoint := hcollected.calls c (hget ▸ hc)
  refine RegionProblem.call?_of_mem (hpoint.symm ▸ hc) fun d hd hsite => ?_
  rw [hpoint] at hd
  exact hcollected.distinct d (hget ▸ hd) c (hget ▸ hc) hsite

theorem trackedLocals_lookups (htypes : ∀ f, kind (.types f)) : FailsOnly kind cx.trackedLocals :=
  FailsOnly.bind (.filterM fun _ _ => FailsOnly.ite (fun _ => .lookup htypes _) fun _ => .ok _) fun _ _ => .ok _

/-- Inference of regions fails as declaring the function's own does, or as checking a callee does. -/
theorem solution_settled {config : Config} (htypes : ∀ f, kind (.types f)) (hlimit : ∀ stage n, kind (.limit stage n))
    (hg : (cx.analysis config).graph = .ok g) (hfx : (cx.analysis config).effects = .ok fx)
    (hframe : FailsOnly kind (cx.analysis config).frame)
    (hvalid : ∀ p, ∀ c ∈ (fx.get p).calls, FailsOnly kind (c.signature.validate cx.types)) :
    FailsOnly kind (cx.analysis config).solution := by
  have hlive : FailsOnly kind (cx.analysis config).liveness := by
    rw [analysis_liveness, hg, hfx]
    refine hframe.bind fun _ _ => ?_
    exact liveness_failsOnly (graph_of_analysis hg) (trackedLocals_lookups htypes) fun n _ => hlimit _ n
  rw [analysis_solution, hg, hfx]
  refine hframe.bind fun frame _ => hlive.bind fun live hlive => ?_
  refine (extentProblem_settled htypes (effects_of_analysis hg hfx) hvalid frame live).bind fun problem hproblem => ?_
  refine ExtentProblem.solution_failsOnly (fun b p hp => ?_) fun n _ => hlimit _ n
  simp only [extentProblem, bind_eq_ok, pure_eq, Except.ok.injEq] at hproblem
  obtain ⟨_, _, rfl⟩ := hproblem
  exact pointsOf_subset (graph_of_analysis hg) (liveness_of_analysis hg hfx hlive) hp

end Context

namespace SignatureTable

/-- A table that is built holds the signatures it is built of, under different names. -/
theorem signatures_of_foldlM : ∀ (ss : List Signature) {t u : SignatureTable}, ss.foldlM add t = .ok u →
    (t.signatures.map Signature.name).Nodup →
    u.signatures = t.signatures ++ ss ∧ (u.signatures.map Signature.name).Nodup
  | [], t, u, h, ht => by
    obtain rfl := Except.ok.inj h
    exact ⟨(List.append_nil _).symm, ht⟩
  | s :: ss, t, u, h, ht => by
    simp only [List.foldlM_cons, bind_eq_ok, add] at h
    obtain ⟨t', hadd, hrest⟩ := h
    split at hadd
    · cases hadd
    · rename_i hnew
      obtain rfl := Except.ok.inj hadd
      have hfresh : ∀ r ∈ t.signatures, r.name ≠ s.name := by simpa [contains, get?] using hnew
      obtain ⟨hsignatures, hnodup⟩ := signatures_of_foldlM ss hrest (by
        rw [List.map_append, List.map_singleton, List.nodup_append]
        refine ⟨ht, List.nodup_singleton _, fun a ha b hb => ?_⟩
        obtain ⟨r, hr, rfl⟩ := List.mem_map.mp ha
        exact List.mem_singleton.mp hb ▸ hfresh r hr)
      exact ⟨by simpa using hsignatures, hnodup⟩

theorem get?_of_ofList {ss : List Signature} {t : SignatureTable} (h : ofList ss = .ok t) {s : Signature}
    (hs : s ∈ ss) : t.get? s.name = some s := by
  obtain ⟨hsignatures, hnodup⟩ := signatures_of_foldlM ss h List.nodup_nil
  have hmem : s ∈ t.signatures := hsignatures ▸ hs
  unfold get?
  cases hfound : t.signatures.find? (·.name = s.name) with
  | none => simpa using List.find?_eq_none.mp hfound s hmem
  | some r =>
    have hname : r.name = s.name := by simpa using List.find?_some hfound
    rw [List.inj_on_of_nodup_map hnodup (List.mem_of_find?_eq_some hfound) hmem hname]

end SignatureTable

theorem TypeTable.get_unit (t : TypeTable) : t.unit.2.get t.unit.1 = .ok .unit := by
  rw [get_eq_ok]
  unfold TypeTable.unit intern
  split
  · rename_i i hi
    obtain ⟨hlt, hkey, _⟩ := List.findIdx?_eq_some_iff_getElem.mp hi
    refine ⟨i, rfl, ?_⟩
    have hunit : t.defs[i] = .unit := by
      cases hd : t.defs[i] <;> simp [hd, TypeDef.key] at hkey
      rfl
    rw [List.getElem?_eq_getElem hlt, hunit]
  · exact ⟨t.defs.length, rfl, by simp⟩

/-- A function that returns nothing returns no references. -/
theorem TypeTable.carriesRefs_unit (t : TypeTable) : t.unit.2.carriesRefs (some t.unit.1) = .ok false := by
  have hpos : 0 < t.unit.2.nestingBound := Nat.mul_pos (Nat.succ_pos _) (Nat.succ_pos _)
  obtain ⟨n, hn⟩ := Nat.exists_eq_succ_of_ne_zero hpos.ne'
  simp [carriesRefs, hn, carriesRefsFrom, t.get_unit]

namespace Program

variable {p : Program} {table : SignatureTable} {f : Function}

/-- The context in which a function of the program is checked. -/
def contextOf (p : Program) (table : SignatureTable) (f : Function) : Context :=
  p.prepare.context table (f.withReturnSlot p.types.unit.1)

theorem ownSignature_contextOf (htable : p.signatures = .ok table) (hf : f ∈ p.functions) :
    (p.contextOf table f).ownSignature = f.signature := by
  have hget := SignatureTable.get?_of_ofList htable (List.mem_append_left _ (List.mem_map_of_mem hf))
  exact congrArg (Option.getD · _) hget

/-- The slot of the returned value has the type of the result. -/
theorem carriesRefs_returnSlot (hfree : f.bindings.get? returnSlot = none) {b : Binding}
    (hb : (p.contextOf table f).function.bindings.get? returnSlot = some b)
    (hcarries : (p.contextOf table f).types.carriesRefs (some b.ty) = .ok true) :
    (p.contextOf table f).types.carriesRefs f.ret = .ok true := by
  have hslot : b.ty = f.ret.getD p.types.unit.1 := by
    have habsent : f.bindings.contains returnSlot = false := by simp [OrderedMap.contains, hfree]
    simp only [contextOf, context, Function.withReturnSlot, OrderedMap.insertNew, habsent, Bool.false_eq_true,
      if_false, OrderedMap.get?_insert_self, Option.some.injEq] at hb
    rw [← hb]
  cases hret : f.ret with
  | some ty => rwa [hslot, hret] at hcarries
  | none =>
    rw [hslot, hret] at hcarries
    exact absurd (p.types.carriesRefs_unit.symm.trans hcarries) (by simp)

end Program

/-- Once the signature of a function has been checked and its effects are collected, region inference
breaches the contract only with what checking the signature of a callee gives. So it never finds a parameter
with an undeclared region, nor a returned value, be it the function's own or a call's, with a region in doubt. -/
theorem inference_breach_of_callee {p : Program} {table : SignatureTable} (htable : p.signatures = .ok table)
    {f : Function} (hf : f ∈ p.functions) (hfree : f.bindings.get? returnSlot = none) {config : Config}
    {effects : EffectMap} (heffects : ((p.contextOf table f).analysis config).effects = .ok effects)
    {cause : Breach} {loc : Span}
    (h : ((p.contextOf table f).analysis config).solution = .error (.breach cause loc)) :
    (∃ point, ∃ call ∈ (effects.get point).calls,
      call.signature.validate (p.contextOf table f).types = .error (.breach cause loc)) ∧
      (∀ parameter region, cause ≠ .parameterRegion parameter region) ∧
      ∀ function, cause ≠ .undeterminedReturn function := by
  obtain ⟨g, hg, _⟩ := bind_eq_ok.mp (Context.analysis_effects.symm.trans heffects)
  have hown := Program.ownSignature_contextOf htable hf
  have hvalid : f.signature.validate (p.contextOf table f).types = .ok () := by
    simp only [Context.analysis, Context.analyze, bind_eq_ok, hown] at hg
    obtain ⟨⟨⟩, hvalid, _⟩ := hg
    exact hvalid
  let kind (e : Fault) : Prop := e.IsBreach → ∃ point, ∃ call ∈ (effects.get point).calls,
    call.signature.validate (p.contextOf table f).types = .error e
  have htypes (e : TypeFault) : kind (.types e) := by
    rintro ⟨_, _, he⟩
    cases he
  have hlimit (stage : String) (n : Int) : kind (.limit stage n) := by
    rintro ⟨_, _, he⟩
    cases he
  have hframe : FailsOnly kind ((p.contextOf table f).analysis config).frame := by
    rw [Context.analysis_frame, hown]
    refine FailsOnly.bind (.of_eq_ok heffects) fun _ _ => ?_
    exact Context.declareUniversals_determined htypes (Signature.determined_of_validate hvalid)
      fun _ => Program.carriesRefs_returnSlot hfree
  have hsolution : FailsOnly kind ((p.contextOf table f).analysis config).solution :=
    Context.solution_settled htypes hlimit hg heffects hframe
      fun point call hcall e he _ => ⟨point, call, hcall, he⟩
  obtain ⟨point, call, hcall, hflaw⟩ := hsolution _ h ⟨cause, loc, rfl⟩
  refine ⟨⟨point, call, hcall, hflaw⟩, fun parameter region hcause => ?_, fun function hcause => ?_⟩
  · cases hcause ▸ Signature.flaw_of_validate hflaw
  · cases hcause ▸ Signature.flaw_of_validate hflaw

/-- The breach that a computation ends with, if it does. -/
def Fault.breach? {α : Type} : Except Fault α → Option (Breach × Span)
  | .error (.breach cause loc) => some (cause, loc)
  | _ => none

theorem Fault.of_breach? {α : Type} {x : Except Fault α} {cause : Breach} {loc : Span}
    (h : Fault.breach? x = some (cause, loc)) : x = .error (.breach cause loc) := by
  unfold Fault.breach? at h
  split at h
  · simp only [Option.some.injEq, Prod.mk.injEq] at h
    rw [h.1, h.2]
  · cases h

/-- Whether region inference breaches the contract for this cause, in a function whose effects are collected. -/
def Program.breaches (p : Program) (cause : Breach) : Bool :=
  p.signatures.toOption.any fun table => p.functions.any fun f =>
    (f.bindings.get? returnSlot).isNone && ((p.contextOf table f).analysis {}).effects.toOption.isSome &&
      (Fault.breach? ((p.contextOf table f).analysis {}).solution).any (·.1 = cause)

theorem Program.exists_of_breaches {p : Program} {cause : Breach} (h : p.breaches cause = true) :
    ∃ table f effects loc, p.signatures = .ok table ∧ f ∈ p.functions ∧ f.bindings.get? returnSlot = none ∧
      ((p.contextOf table f).analysis {}).effects = .ok effects ∧
      ((p.contextOf table f).analysis {}).solution = .error (.breach cause loc) := by
  simp only [breaches, Option.any_eq_true, List.any_eq_true, Bool.and_eq_true, Option.isNone_iff_eq_none,
    decide_eq_true_eq] at h
  obtain ⟨table, htable, f, hf, ⟨hfree, heffects⟩, ⟨_, loc⟩, hbreach, rfl⟩ := h
  obtain ⟨effects, heffects⟩ := exists_eq_ok heffects
  exact ⟨table, f, effects, loc, eq_ok_of_toOption htable, hf, hfree, heffects, Fault.of_breach? hbreach⟩

/-- It is in doubt which argument the innermost call gives back; the calls around it hand the result on. -/
def doubtful : String :=
  "extern fn pick(a: &Int, b: &Int) -> &Int; extern fn same<'s>(a: &'s Int, b: &'s Int) -> &Int; " ++
    "fn f(x: &Int, y: &Int) \x7b let r: &Int = same(x, same(pick(x, y), y)); \x7d"

theorem inference_breach_of_callee_doubtful : ∃ p table f effects loc, readProgram doubtful none = .ok p ∧
    p.signatures = .ok table ∧ f ∈ p.functions ∧ f.bindings.get? returnSlot = none ∧
    ((p.contextOf table f).analysis {}).effects = .ok effects ∧
    ((p.contextOf table f).analysis {}).solution = .error (.breach (.returnNotElidable "pick") loc) ∧
    ∃ point, ∃ call ∈ (effects.get point).calls,
      call.signature.validate (p.contextOf table f).types = .error (.breach (.returnNotElidable "pick") loc) := by
  have hread : (readProgram doubtful none).toOption.any (·.breaches (.returnNotElidable "pick")) = true := by
    decide +kernel
  simp only [Option.any_eq_true] at hread
  obtain ⟨p, hp, hbreaches⟩ := hread
  obtain ⟨table, f, effects, loc, htable, hf, hfree, heffects, hsolution⟩ := Program.exists_of_breaches hbreaches
  exact ⟨p, table, f, effects, loc, eq_ok_of_toOption hp, htable, hf, hfree, heffects, hsolution,
    (inference_breach_of_callee htable hf hfree heffects hsolution).1⟩

end Ownership
