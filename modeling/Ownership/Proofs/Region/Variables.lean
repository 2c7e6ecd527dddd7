import Ownership.Proofs.Region.Exact

/-!
Which region variables there are. The bindings that hold a variable are exactly those
whose type carries references, each with the variable that its declaration gives it.
The loans that have one are exactly those that are taken at reachable points.
-/
namespace Ownership

open Outcome

namespace RegionFrame

variable {r : RegionFrame}

theorem holders_addUniversals (names : List String) (r : RegionFrame) :
    (names.foldl addUniversal r).holders = r.holders := by
  induction names generalizing r with
  | nil => rfl
  | cons name names ih => exact (ih _).trans (r.holders_addUniversal name)

end RegionFrame

namespace Context

variable {cx : Context} {r s : RegionFrame} {signature : Signature}

/-- The type of the binding carries references. -/
def Carries (cx : Context) (id : BindingId) (b : Binding) : Prop :=
  cx.function.bindings.get? id = some b ∧ cx.types.carriesRefs (some b.ty) = .ok true

/-- The variable of a binding's region: a local binding has one of its own, a parameter and the return
slot have the region that the signature gives them. -/
inductive RegionOf (cx : Context) : BindingId → RegionVar → Prop where
  | ofLocal {id : BindingId} {b : Binding} (hb : cx.function.bindings.get? id = some b) (hk : b.kind = .localVar) :
      RegionOf cx id (.binding id b.name)
  | ofSignature {id : BindingId} {region : String} (h : cx.HasRegion id region) : RegionOf cx id (.universal region)

theorem HasRegion.carries (hbound : cx.function.WellBound) {id : BindingId} {region : String}
    (h : cx.HasRegion id region) : ∃ b, cx.Carries id b := by
  cases h with
  | @param p _ hp hc _ => exact ⟨p.binding, (hbound.bound p hp).2, hc⟩
  | @result b _ hb hc _ => exact ⟨b, hb, hc⟩

theorem IsRead.returnSlot_bound (h : cx.IsRead) : ∃ b, cx.function.bindings.get? returnSlot = some b := by
  obtain ⟨text, file, program, signatures, _, _, f, hf, rfl⟩ := h
  obtain ⟨f₀, _, rfl⟩ := List.mem_map.mp hf
  refine Option.isSome_iff_exists.mp (?_ : (f₀.bindings.insertNew returnSlot _).contains returnSlot = true)
  unfold OrderedMap.insertNew
  split
  · assumption
  · exact OrderedMap.contains_insert_self _ _ _

/-- Only the parameters and the return slot hold a region of the signature, and only what the signature says. -/
theorem hasRegion_of_declared (hread : cx.IsRead) (h : cx.declareUniversals cx.ownSignature = .ok s) {id : BindingId}
    {v : RegionVar} (hv : s.holders.get? id = some v) : ∃ region, v = .universal region ∧ cx.HasRegion id region := by
  simp only [declareUniversals, bind_eq_ok] at h
  obtain ⟨r, hparams, hreturn⟩ := h
  have hheld : ∀ b w, r.holders.get? b = some w → ∃ region, w = .universal region ∧ cx.HasRegion b region := by
    refine foldlM_invariant (fun r : RegionFrame => ∀ b w, r.holders.get? b = some w →
      ∃ region, w = .universal region ∧ cx.HasRegion b region) (fun r p r' hp hr hstep b w hw => ?_) ?_ hparams
    · by_cases hb : b = p.id
      · rcases declareParam_cases hstep with ⟨_, rfl⟩ | ⟨hc, region, nested, hregion, _, rfl⟩
        · exact hr b w hw
        · subst hb
          simp only [RegionFrame.imply, RegionFrame.hold, OrderedMap.get?_insert_self, Option.some.injEq] at hw
          exact ⟨region, hw.symm, .param hp hc hregion⟩
      · exact hr b w (by rwa [declareParam_other hstep hb] at hw)
    · intro b w hw
      rw [RegionFrame.holders_addUniversals] at hw
      cases hw
  by_cases hid : id = returnSlot
  · subst hid
    rcases declareReturn_cases hreturn with ⟨rfl, _⟩ | ⟨region, r', hin, rfl, _, hcarries⟩
    · exact hheld _ v hv
    · simp only [RegionFrame.hold, OrderedMap.get?_insert_self, Option.some.injEq] at hv
      obtain ⟨b, hb⟩ := hread.returnSlot_bound
      exact ⟨region, hv.symm, .result hb (hcarries b hb) hin⟩
  · exact hheld id v (by rwa [declareReturn_other hreturn hid] at hv)

/-- A tracked binding is a local one that carries references. -/
theorem carries_of_tracked {tracked : List BindingId}
    (ht : cx.trackedLocals = .ok tracked) {id : BindingId} (hid : id ∈ tracked) :
    ∃ b, cx.Carries id b ∧ b.kind = .localVar := by
  simp only [trackedLocals, bind_eq_ok, pure_eq, Except.ok.injEq] at ht
  obtain ⟨entries, hentries, rfl⟩ := ht
  obtain ⟨⟨_, b⟩, hmem, rfl⟩ := List.mem_map.mp hid
  obtain ⟨hentry, hkept⟩ := (filterM_eq_ok hentries).1 _ hmem
  by_cases hkind : b.kind = .localVar
  · simp only [hkind, if_true] at hkept
    exact ⟨b, ⟨OrderedMap.get?_eq_some_of_mem hentry, Fault.ofTypes_eq_ok.mp hkept⟩, hkind⟩
  · simp [hkind] at hkept

/-- The bindings that hold a variable are those whose type carries references, and the variable is theirs. -/
theorem holder_iff (hread : cx.IsRead) (hr : cx.declareUniversals cx.ownSignature = .ok r) {tracked : List BindingId}
    (ht : cx.trackedLocals = .ok tracked) {id : BindingId} {v : RegionVar} :
    (cx.declareLocals tracked r).holders.get? id = some v ↔ (∃ b, cx.Carries id b) ∧ cx.RegionOf id v := by
  have hbound := hread.wellBound
  constructor
  · intro hv
    rcases cx.declareLocals_get? tracked r id with ⟨b, hid, hb, he⟩ | ⟨_, he⟩
    · obtain ⟨b', hcarries, hkind⟩ := carries_of_tracked ht hid
      obtain rfl := Option.some.inj (hb.symm.trans hcarries.1)
      obtain rfl := Option.some.inj (hv.symm.trans he)
      exact ⟨⟨b, hcarries⟩, .ofLocal hb hkind⟩
    · obtain ⟨region, rfl, hregion⟩ := hasRegion_of_declared hread hr (he ▸ hv)
      exact ⟨hregion.carries hbound, .ofSignature hregion⟩
  · rintro ⟨⟨b, hb, hc⟩, hregion⟩
    cases hregion with
    | ofLocal hb' hk =>
      obtain rfl := Option.some.inj (hb.symm.trans hb')
      obtain ⟨c, hc', hin⟩ := (trackedLocals_spec ht).2 id b hb hk
      have hid : id ∈ tracked := hin (Except.ok.inj (hc'.symm.trans hc))
      rcases cx.declareLocals_get? tracked r id with ⟨b', _, hb', he⟩ | ⟨hnot, _⟩
      · rw [he, Option.some.inj (hb.symm.trans hb')]
      · exact absurd hb (hnot b hid)
    | ofSignature h => exact hasRegion_holder hr ht hbound h

end Context

/-- A variable that stands for a loan stands for one of the known ones. -/
def RegionVar.Backed (known : Site → Prop) : RegionVar → Prop
  | .loan site => known site
  | _ => True

/-- The loans in a source are known ones, at any depth. -/
inductive Source.Backed (known : Site → Prop) : Source → Prop where
  | loan {site : Site} (h : known site) : Source.Backed known (.loan site)
  | place (p : Place) : Source.Backed known (.place p)
  | call (site : Site) : Source.Backed known (.call site)
  | aggregate {site : Site} {parts : List Value} (h : ∀ part ∈ parts, ∀ src ∈ part, Source.Backed known src) :
      Source.Backed known (.aggregate site parts)

theorem Grounded.backed {cx : Context} {w : Walk} {src : Source} (h : Grounded cx w src) {known : Site → Prop}
    (hknown : ∀ a ∈ w.effects.accesses, ∀ site, a.loan = some site → known site) : src.Backed known := by
  induction h with
  | loan ha hs => exact .loan (hknown _ ha _ hs)
  | place => exact .place _
  | call => exact .call _
  | aggregate _ ih => exact .aggregate ih

/-- The loans among the variables and on the larger sides of constraints are known ones. -/
structure ConstraintSet.Backed (known : Site → Prop) (s : ConstraintSet) : Prop where
  vars : ∀ v ∈ s.vars, v.Backed known
  sups : ∀ c ∈ s.constraints, c.sup.Backed known

namespace ConstraintSet.Backed

variable {known : Site → Prop} {s : ConstraintSet} {v : RegionVar}

theorem addVar (h : s.Backed known) (hv : v.Backed known) : (s.addVar v).Backed known := by
  unfold ConstraintSet.addVar
  split
  · exact h
  · refine ⟨fun u hu => ?_, h.sups⟩
    rcases List.mem_append.mp hu with hu | hu
    · exact h.vars u hu
    · exact List.mem_singleton.mp hu ▸ hv

theorem add (h : s.Backed known) (sub : RegionVar) (hv : v.Backed known) (span : Span) :
    (s.add sub v span).Backed known := by
  unfold ConstraintSet.add
  split
  · exact h
  · refine ⟨h.vars, fun c hc => ?_⟩
    rcases List.mem_append.mp hc with hc | hc
    · exact h.sups c hc
    · exact List.mem_singleton.mp hc ▸ hv

/-- A fold of steps that keep the set backed. -/
theorem foldl {α : Type} {f : ConstraintSet → α → ConstraintSet} {xs : List α} (h : s.Backed known)
    (hf : ∀ (s : ConstraintSet), s.Backed known → ∀ x ∈ xs, (f s x).Backed known) : (xs.foldl f s).Backed known :=
  List.foldlRecOn xs f h hf

theorem addAll (h : s.Backed known) (sub : RegionVar) {vs : List RegionVar} (hvs : ∀ v ∈ vs, v.Backed known)
    (span : Span) : (s.addAll sub vs span).Backed known :=
  h.foldl fun _ ht v hv => ht.add sub (hvs v hv) span

end ConstraintSet.Backed

namespace RegionProblem

variable {r : RegionProblem} {known : Site → Prop} {s t : ConstraintSet}

theorem backed_instanceVar (site : Site) (region : String) : (instanceVar site region).Backed known := by
  unfold instanceVar
  split <;> trivial

theorem paramVar_backed {site : Site} {ty : TypeId} {i : Nat} {v : RegionVar}
    (h : r.paramVar site ty i = .ok (some v)) : v.Backed known := by
  simp only [paramVar, bind_eq_ok] at h
  obtain ⟨c, _, h⟩ := h
  split at h
  · simp only [bind_eq_ok, pure_eq, Except.ok.injEq, Option.some.injEq] at h
    obtain ⟨region, _, rfl⟩ := h
    exact backed_instanceVar _ _
  · cases h

theorem resultRegion_backed {call : CallSite} {v : RegionVar} (h : r.resultRegion call = .ok (some v)) :
    v.Backed known := by
  simp only [resultRegion, bind_eq_ok] at h
  obtain ⟨named, _, h⟩ := h
  split at h
  · obtain rfl := Option.some.inj (Except.ok.inj h)
    exact backed_instanceVar _ _
  · simp only [bind_eq_ok] at h
    obtain ⟨source, _, h⟩ := h
    split at h
    · simp at h
    · rename_i i _
      cases hp : call.signature.params[i]? with
      | none => simp [hp] at h
      | some ty =>
        rw [hp] at h
        exact paramVar_backed h

theorem resultVar_backed {site : Site} {v : Option RegionVar} (hs : s.Backed known)
    (h : r.resultVar site s = .ok (v, t)) : t.Backed known ∧ ∀ u, v = some u → u.Backed known := by
  unfold resultVar at h
  split at h
  · simp only [pure_eq, Except.ok.injEq, Prod.mk.injEq] at h
    obtain ⟨rfl, rfl⟩ := h
    exact ⟨hs, by simp⟩
  · simp only [bind_eq_ok] at h
    obtain ⟨result, hresult, h⟩ := h
    split at h
    · simp only [pure_eq, Except.ok.injEq, Prod.mk.injEq] at h
      obtain ⟨rfl, rfl⟩ := h
      exact ⟨hs, by simp⟩
    · rename_i result
      simp only [bind_eq_ok, pure_eq, Except.ok.injEq, Prod.mk.injEq] at h
      obtain ⟨nested, _, rfl, rfl⟩ := h
      have hbacked : result.Backed known := resultRegion_backed hresult
      refine ⟨(hs.addVar hbacked).foldl fun s hs region _ => ?_, fun u hu => Option.some.inj hu ▸ hbacked⟩
      exact (hs.addVar (backed_instanceVar _ _)).add _ (backed_instanceVar _ _) _

/-- The loans that bindings hold are known ones. -/
def Holds (known : Site → Prop) (r : RegionProblem) : Prop :=
  ∀ id v, r.holder? id = some v → v.Backed known

mutual

theorem sourceVar_backed (hheld : r.Holds known) : ∀ (src : Source) {s t : ConstraintSet} {v : Option RegionVar},
    src.Backed known → s.Backed known → r.sourceVar src s = .ok (v, t) →
    t.Backed known ∧ ∀ u, v = some u → u.Backed known
  | .loan site, s, t, v, hsrc, hs, h => by
    simp only [sourceVar, Except.ok.injEq, Prod.mk.injEq] at h
    obtain ⟨rfl, rfl⟩ := h
    cases hsrc with
    | loan hknown =>
      have hloan : (RegionVar.loan site).Backed known := hknown
      exact ⟨hs.addVar hloan, fun u hu => Option.some.inj hu ▸ hloan⟩
  | .place p, s, t, v, hsrc, hs, h => by
    simp only [sourceVar, Except.ok.injEq, Prod.mk.injEq] at h
    obtain ⟨rfl, rfl⟩ := h
    exact ⟨hs, hheld p.root⟩
  | .call site, s, t, v, hsrc, hs, h => by
    simp only [sourceVar] at h
    exact resultVar_backed hs h
  | .aggregate site parts, s, t, v, hsrc, hs, h => by
    simp only [sourceVar, bind_eq_ok, pure_eq, Except.ok.injEq, Prod.mk.injEq] at h
    obtain ⟨t', hparts, rfl, rfl⟩ := h
    cases hsrc with
    | aggregate hall =>
      have hagg : (RegionVar.aggregate site).Backed known := trivial
      exact ⟨relateParts_backed hheld parts hall (hs.addVar hagg) hparts, fun u hu => Option.some.inj hu ▸ hagg⟩

theorem sourceVars_backed (hheld : r.Holds known) : ∀ (value : List Source) {s t : ConstraintSet}
    {vs : List RegionVar}, (∀ src ∈ value, src.Backed known) → s.Backed known → r.sourceVars value s = .ok (vs, t) →
    t.Backed known ∧ ∀ u ∈ vs, u.Backed known
  | [], s, t, vs, hvalue, hs, h => by
    simp only [sourceVars, Except.ok.injEq, Prod.mk.injEq] at h
    obtain ⟨rfl, rfl⟩ := h
    exact ⟨hs, by simp⟩
  | src :: rest, s, t, vs, hvalue, hs, h => by
    simp only [sourceVars, bind_eq_ok, pure_eq, Except.ok.injEq, Prod.mk.injEq] at h
    obtain ⟨⟨v, t₁⟩, hsrc, ⟨vs', t₂⟩, hrest, rfl, rfl⟩ := h
    obtain ⟨hfirst, hmore⟩ := List.forall_mem_cons.mp hvalue
    obtain ⟨ht₁, hv⟩ := sourceVar_backed hheld src hfirst hs hsrc
    obtain ⟨ht₂, hvs⟩ := sourceVars_backed hheld rest hmore ht₁ hrest
    refine ⟨ht₂, fun u hu => ?_⟩
    rcases List.mem_append.mp hu with hu | hu
    · exact hv u (Option.mem_toList.mp hu)
    · exact hvs u hu

theorem relateParts_backed (hheld : r.Holds known) : ∀ (parts : List (List Source)) {agg : RegionVar}
    {s t : ConstraintSet}, (∀ part ∈ parts, ∀ src ∈ part, src.Backed known) → s.Backed known →
    r.relateParts agg parts s = .ok t → t.Backed known
  | [], agg, s, t, hparts, hs, h => by
    simp only [relateParts, Except.ok.injEq] at h
    exact h ▸ hs
  | part :: rest, agg, s, t, hparts, hs, h => by
    simp only [relateParts, bind_eq_ok] at h
    obtain ⟨⟨vs, t₁⟩, hpart, hrest⟩ := h
    obtain ⟨hfirst, hmore⟩ := List.forall_mem_cons.mp hparts
    obtain ⟨ht₁, hvs⟩ := sourceVars_backed hheld part hfirst hs hpart
    exact relateParts_backed hheld rest hmore (ht₁.addAll agg hvs {}) hrest

end

section

variable (hheld : r.Holds known)

include hheld

theorem holderVar_backed {src : Source} {v : Option RegionVar} (hsrc : src.Backed known) (hs : s.Backed known)
    (h : r.holderVar src s = .ok (v, t)) : t.Backed known ∧ ∀ u, v = some u → u.Backed known := by
  cases src with
  | loan site =>
    simp only [holderVar, Except.ok.injEq, Prod.mk.injEq] at h
    obtain ⟨rfl, rfl⟩ := h
    refine ⟨hs, fun u hu => ?_⟩
    obtain ⟨p, _, hp⟩ := Option.bind_eq_some_iff.mp hu
    exact hheld p.root u hp
  | place | call | aggregate => exact sourceVar_backed hheld _ hsrc hs h

theorem holderVars_backed {value : Value} {vs : List RegionVar} (hvalue : ∀ src ∈ value, src.Backed known)
    (hs : s.Backed known) (h : r.holderVars value s = .ok (vs, t)) : t.Backed known ∧ ∀ u ∈ vs, u.Backed known := by
  refine foldlM_invariant (fun x : List RegionVar × ConstraintSet => x.2.Backed known ∧ ∀ u ∈ x.1, u.Backed known)
    ?_ ⟨hs, by simp⟩ h
  rintro ⟨vs, u⟩ src ⟨vs', u'⟩ hmem ⟨hu, hvs⟩ hstep
  simp only [bind_eq_ok, pure_eq, Except.ok.injEq, Prod.mk.injEq] at hstep
  obtain ⟨⟨v, u₁⟩, hv, rfl, rfl⟩ := hstep
  obtain ⟨hu₁, hv⟩ := holderVar_backed hheld (hvalue src hmem) hu hv
  refine ⟨hu₁, fun w hw => ?_⟩
  rcases List.mem_append.mp hw with hw | hw
  · exact hvs w hw
  · exact hv w (Option.mem_toList.mp (List.mem_filter.mp hw).1)

theorem relateArg_backed {call : CallSite} {i : Nat} {ty : TypeId} {arg : Value}
    (harg : ∀ src ∈ arg, src.Backed known) (hs : s.Backed known) (h : r.relateArg call i ty arg s = .ok t) :
    t.Backed known := by
  simp only [relateArg, bind_eq_ok] at h
  obtain ⟨param, hparam, h⟩ := h
  split at h
  · simp only [pure_eq, Except.ok.injEq] at h
    exact h ▸ hs
  · rename_i param
    simp only [bind_eq_ok, pure_eq, Except.ok.injEq] at h
    obtain ⟨⟨vs, t₁⟩, hvars, ⟨holders, t₂⟩, hholders, nested, _, rfl⟩ := h
    obtain ⟨ht₁, hvs⟩ := sourceVars_backed hheld arg harg (hs.addVar (paramVar_backed hparam)) hvars
    obtain ⟨ht₂, hall⟩ := holderVars_backed hheld harg (ht₁.addAll param hvs call.span) hholders
    refine ht₂.foldl fun s hs region _ => (hs.addVar (backed_instanceVar _ _)).foldl fun s hs v hv => ?_
    exact (hs.add v (backed_instanceVar _ _) _).add _ (hall v hv) _

theorem relateArgs_backed {call : CallSite} {i : Nat} {types : List TypeId} {args : List Value}
    (hargs : ∀ arg ∈ args, ∀ src ∈ arg, src.Backed known) (hs : s.Backed known)
    (h : r.relateArgs call i types args s = .ok t) : t.Backed known := by
  induction types generalizing i args s with
  | nil =>
    simp only [relateArgs, Except.ok.injEq] at h
    exact h ▸ hs
  | cons ty types ih =>
    cases args with
    | nil =>
      simp only [relateArgs, Except.ok.injEq] at h
      exact h ▸ hs
    | cons arg args =>
      simp only [relateArgs, bind_eq_ok] at h
      obtain ⟨t₁, hfirst, hrest⟩ := h
      obtain ⟨harg, hmore⟩ := List.forall_mem_cons.mp hargs
      exact ih hmore (relateArg_backed hheld harg hs hfirst) hrest

theorem relateCall_backed {call : CallSite} (hargs : ∀ arg ∈ call.args, ∀ src ∈ arg, src.Backed known)
    (hs : s.Backed known) (h : r.relateCall s call = .ok t) : t.Backed known := by
  simp only [relateCall, bind_eq_ok, pure_eq, Except.ok.injEq] at h
  obtain ⟨_, _, t₁, hrelated, rfl⟩ := h
  refine (relateArgs_backed hheld hargs hs hrelated).foldl fun s hs pair _ => ?_
  exact ((hs.addVar (backed_instanceVar _ _)).addVar (backed_instanceVar _ _)).add _ (backed_instanceVar _ _) _

theorem relateLoan_backed {a : Access} (ha : ∀ site, a.loan = some site → known site) (hs : s.Backed known) :
    (r.relateLoan s a).Backed known := by
  unfold relateLoan
  split
  · exact hs
  · rename_i site hsite
    have hloan : (s.addVar (.loan site)).Backed known := hs.addVar (ha site hsite)
    simp only
    split
    · rename_i root hroot
      split
      · exact hloan.add _ (hheld _ root hroot) _
      · exact hloan
    · exact hloan

theorem relateFlow_backed {f : Flow} (hvalue : ∀ src ∈ f.value, src.Backed known) (hs : s.Backed known)
    (h : r.relateFlow s f = .ok t) : t.Backed known := by
  unfold relateFlow at h
  split at h
  · simp only [pure_eq, Except.ok.injEq] at h
    exact h ▸ hs
  · simp only [bind_eq_ok, pure_eq, Except.ok.injEq] at h
    obtain ⟨⟨vs, t₁⟩, hvars, rfl⟩ := h
    obtain ⟨ht₁, hvs⟩ := sourceVars_backed hheld f.value hvalue hs hvars
    exact ht₁.addAll _ hvs _

/-- What is collected at a point speaks of loans of the point only. -/
theorem relatePoint_backed {cx : Context} {w : Walk} (hw : w.Collected cx)
    (hknown : ∀ a ∈ w.effects.accesses, ∀ site, a.loan = some site → known site) (hs : s.Backed known)
    (h : r.relatePoint s w.effects = .ok t) : t.Backed known := by
  simp only [relatePoint, bind_eq_ok] at h
  obtain ⟨t₁, hcalls, hflows⟩ := h
  have hloans : (w.effects.accesses.foldl r.relateLoan s).Backed known :=
    hs.foldl fun s hs a ha => relateLoan_backed hheld (hknown a ha) hs
  have hrelated : t₁.Backed known := foldlM_invariant (fun t : ConstraintSet => t.Backed known)
    (fun s c t hc hs hstep => relateCall_backed hheld
      (fun arg harg src hsrc => (hw.args c hc arg harg src hsrc).backed hknown) hs hstep) hloans hcalls
  exact foldlM_invariant (fun t : ConstraintSet => t.Backed known)
    (fun s f t hf hs hstep => relateFlow_backed hheld
      (fun src hsrc => (hw.values f hf src hsrc).backed hknown) hs hstep) hrelated hflows

end

theorem mem_addVar (s : ConstraintSet) (v : RegionVar) : v ∈ (s.addVar v).vars := by
  unfold ConstraintSet.addVar
  split
  · rename_i h
    simpa using h
  · exact List.mem_append_right _ List.mem_cons_self

/-- Every loan of a point gets a variable. -/
theorem relatePoint_loans {fx : Effects} (h : r.relatePoint s fx = .ok t) {a : Access} (ha : a ∈ fx.accesses)
    {site : Site} (hl : a.loan = some site) : .loan site ∈ t.vars := by
  simp only [relatePoint, bind_eq_ok] at h
  obtain ⟨t₁, hcalls, hflows⟩ := h
  have hcall := (ConstraintSet.Extends.foldlM (fun _ _ => True) (fun _ _ _ _ h => h)
    (fun c s t h => ⟨(relateCall_spec h).1, trivial⟩) hcalls).1
  have hflow := (ConstraintSet.Extends.foldlM (fun _ _ => True) (fun _ _ _ _ h => h)
    (fun f s t h => ⟨(relateFlow_spec h).1, trivial⟩) hflows).1
  refine (hcall.trans hflow).vars ?_
  have hone : ∀ s : ConstraintSet, .loan site ∈ (r.relateLoan s a).vars := by
    intro s
    have hadded := mem_addVar s (.loan site)
    unfold relateLoan
    simp only [hl]
    split
    · split
      · exact (ConstraintSet.extends_add _ _ _ _).vars hadded
      · exact hadded
    · exact hadded
  obtain ⟨before, after, hsplit⟩ := List.append_of_mem ha
  rw [hsplit, List.foldl_append, List.foldl_cons]
  exact (ConstraintSet.Extends.foldl r.relateLoan_extends after _).vars (hone _)

end RegionProblem

/-- The loan is taken at a reachable point. -/
def EffectMap.Takes (fx : EffectMap) (g : Graph) (site : Site) : Prop :=
  ∃ p ∈ g.allPoints, ∃ a ∈ fx.accesses p, a.loan = some site

theorem RegionProblem.initialVars_backed {frame : RegionFrame} {known : Site → Prop}
    (hheld : ∀ id v, frame.holders.get? id = some v → v.Backed known) :
    ConstraintSet.Backed known { vars := initialVars frame } := by
  refine ⟨fun v hv => ?_, by simp⟩
  rcases mem_foldl_addNew.mp hv with hv | hv
  · obtain ⟨name, _, rfl⟩ := List.mem_map.mp hv
    trivial
  · obtain ⟨⟨id, w⟩, hmem, rfl⟩ := List.mem_map.mp hv
    exact hheld id w (OrderedMap.get?_eq_some_of_mem hmem)

namespace Context

variable {cx : Context} {signature : Signature} {g : Graph} {fx : EffectMap} {frame : RegionFrame} {live : Liveness}
  {e : ExtentProblem}

/-- The loan variables of a problem are those of the loans that are taken at reachable points. -/
theorem extentProblem_loans (hfx : cx.effects g = .ok fx) (hframe : cx.declareUniversals signature = .ok frame)
    (h : cx.extentProblem g fx frame live = .ok e) {site : Site} : .loan site ∈ e.allVars ↔ fx.Takes g site := by
  simp only [extentProblem, bind_eq_ok, pure_eq, Except.ok.injEq] at h
  obtain ⟨set, hset, rfl⟩ := h
  refine ⟨fun hmem => ?_, ?_⟩
  · have hheld : ∀ id v, (cx.declareLocals live.tracked frame).holders.get? id = some v →
        v.Backed (fx.Takes g) := by
      intro id v hv
      rcases holder_cases hframe hv with ⟨name, rfl, _⟩ | ⟨name, _, rfl⟩ <;> trivial
    have hbacked : set.Backed (fx.Takes g) := by
      refine foldlM_invariant (ConstraintSet.Backed _) (fun s p t hp hs hstep => ?_)
        (RegionProblem.initialVars_backed hheld) hset
      obtain ⟨w, rfl, hget, hcollected⟩ := effects_collected hfx hp
      rw [hget] at hstep
      refine RegionProblem.relatePoint_backed ?_ hcollected (fun a ha site hl => ?_) hs hstep
      · exact hheld
      · exact ⟨_, hp, a, by rwa [EffectMap.accesses, hget], hl⟩
    rcases mem_foldl_addNew.mp hmem with hmem | hmem
    · exact hbacked.vars _ hmem
    · obtain ⟨c, hc, hsup⟩ := List.mem_map.mp hmem
      have hloan := hbacked.sups c hc
      rwa [hsup] at hloan
  · rintro ⟨p, hp, a, ha, hl⟩
    refine mem_foldl_addNew.mpr (.inl ?_)
    have hall := ConstraintSet.Extends.foldlM
      (fun p t => ∀ a ∈ (fx.get p).accesses, ∀ site, a.loan = some site → .loan site ∈ t.vars)
      (fun p s t hst hfact a ha site hl => hst.vars (hfact a ha site hl))
      (fun p s t hstep => ⟨(RegionProblem.relatePoint_spec hstep).1, fun a ha site hl =>
        RegionProblem.relatePoint_loans hstep ha hl⟩) hset
    exact hall.2 p hp a ha site hl

/-- A problem takes in the local bindings, and has the variable of every binding that holds one. -/
theorem extentProblem_holds (h : cx.extentProblem g fx frame live = .ok e) :
    e.frame = cx.declareLocals live.tracked frame ∧
      ∀ {id v}, (cx.declareLocals live.tracked frame).holders.get? id = some v → v ∈ e.allVars := by
  simp only [extentProblem, bind_eq_ok, pure_eq, Except.ok.injEq] at h
  obtain ⟨set, hset, rfl⟩ := h
  refine ⟨rfl, fun hv => mem_foldl_addNew.mpr (.inl ?_)⟩
  exact (RegionProblem.generate_spec hset).1 (RegionProblem.holder_mem_initialVars hv)

end Context

/-- What a solution speaks of: the bindings that carry references, each with its variable, and the loans
that are taken at reachable points. -/
structure RegionSolution.Describes (sol : RegionSolution) (cx : Context) (g : Graph) (fx : EffectMap) : Prop where
  function : sol.function = cx.function
  holder : ∀ {id v}, sol.frame.holders.get? id = some v ↔ (∃ b, cx.Carries id b) ∧ cx.RegionOf id v
  held : ∀ {id b}, cx.Carries id b → ∃ v, sol.frame.holders.get? id = some v
  solved : ∀ {id v}, sol.frame.holders.get? id = some v → v ∈ sol.extents.keys
  loans : ∀ {site}, .loan site ∈ sol.extents.keys ↔ fx.Takes g site

namespace Context

variable {cx : Context} {signature : Signature} {graph : Except Fault Graph} {limit : Option Int}
  {sol : RegionSolution}

/-- The stages that a solution comes from. -/
theorem solution_stages (h : (cx.analyze signature graph limit).solution = .ok sol) :
    ∃ g fx frame live e, graph = .ok g ∧ cx.effects g = .ok fx ∧ cx.declareUniversals signature = .ok frame ∧
      cx.trackedLocals = .ok live.tracked ∧ cx.extentProblem g fx frame live = .ok e ∧
      e.solution cx.function limit = .ok sol := by
  simp only [analyze_solution, bind_eq_ok] at h
  obtain ⟨g, hg, fx, hfx, frame, hframe, live, hlive, e, he, hsol⟩ := h
  simp only [analyze, hg, bind_eq_ok, Except.ok.injEq, exists_eq_left'] at hfx hframe hlive
  obtain ⟨_, _, hframe⟩ := hframe
  obtain ⟨_, _, _, _, hlive⟩ := hlive
  exact ⟨g, fx, frame, live, e, hg, hfx, hframe, liveness_tracked hlive, he, hsol⟩

theorem solution_describes (hread : cx.IsRead) (h : (cx.analyze cx.ownSignature graph limit).solution = .ok sol) :
    ∃ g fx, graph = .ok g ∧ cx.effects g = .ok fx ∧ sol.Describes cx g fx := by
  obtain ⟨g, fx, frame, live, e, hg, hfx, hframe, htracked, he, hsol⟩ := solution_stages h
  have hkeys := (ExtentProblem.solution_grounded hsol).1
  have hsame : sol.frame = cx.declareLocals live.tracked frame :=
    (ExtentProblem.solution_frame hsol).1.trans (extentProblem_holds he).1
  refine ⟨g, fx, hg, hfx, ?_⟩
  constructor
  case function =>
    simp only [ExtentProblem.solution, bind_eq_ok, pure_eq, Except.ok.injEq] at hsol
    obtain ⟨_, _, rfl⟩ := hsol
    rfl
  case holder =>
    rw [hsame]
    exact holder_iff hread hframe htracked
  case held =>
    rintro id b ⟨hb, hc⟩
    rw [hsame]
    obtain ⟨c, hc', hheld⟩ := exists_holder hframe htracked hread.wellBound hb
    exact hheld (Except.ok.inj (hc'.symm.trans hc))
  case solved =>
    intro id v hv
    exact (hkeys v).mpr ((extentProblem_holds he).2 (hsame ▸ hv))
  case loans => exact (hkeys _).trans (extentProblem_loans hfx hframe he)

end Context

end Ownership
