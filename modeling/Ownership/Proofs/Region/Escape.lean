import Ownership.Proofs.Region.Inference
import Ownership.Proofs.Region.Outlives
import Ownership.Proofs.TypeTable.Alike

/-!
No reference escapes into a region of the signature that it is not declared to
outlive. Each store relates the variable of the binding that is stored into to
that of every binding the stored value takes references from, so along a chain
of stores the ends of the last region come to the first one, where acceptance
asks for a declaration. A store through a reference is related to the region of
the reference only, not to the region of what lies behind it.
-/
namespace Ownership

open Outcome

namespace Signature

/-- The region of a parameter that carries references, under the name that a call gives it. -/
def TakesIn (s : Signature) (types : TypeTable) (i : Nat) (region : String) : Prop :=
  ∃ ty named, s.params[i]? = some ty ∧ types.carriesRefs (some ty) = .ok true ∧
    types.regionOf (some ty) = .ok named ∧ region = named.getD ("'_" ++ toString i)

/-- The region of a result that carries references: a named one, or that of the parameter that it is
taken from. -/
def GivesBack (s : Signature) (types : TypeTable) (region : String) : Prop :=
  types.carriesRefs s.ret = .ok true ∧ (s.returnRegion types = .ok (some region) ∨
    s.returnRegion types = .ok none ∧ ∃ i, s.elisionSource types = .ok (some i) ∧ s.TakesIn types i region)

end Signature

namespace Context

/-- The value of the expression has references that come out of the binding: by a use of a place in it,
by a borrow through a reference in it, or by way of a part of an aggregate or of an argument whose
region is that of the call's result or is declared to outlive it. -/
inductive Takes (cx : Context) : Expr → BindingId → Prop where
  | place {e : Expr} {place : Place} {ty : TypeId} (hp : Place.ofExpr? e = some place)
      (hty : cx.PlaceType place ty) (hc : cx.types.carriesRefs (some ty) = .ok true) : Takes cx e place.root
  | reborrow {subject : Expr} {mutable : Bool} {loc : Span} {place : Place}
      (hp : Place.ofExpr? subject = some place) (hd : place.throughDeref = true) :
      Takes cx (.borrow subject mutable loc) place.root
  | part {e part : Expr} {es : List Expr} {i : Nat} {b : BindingId} (hes : e.parts? = some es)
      (hpart : es[i]? = some part) (ht : Takes cx part b) : Takes cx e b
  | call {name : String} {args : List Expr} {loc : Span} {signature : Signature} {i : Nat} {arg : Expr}
      {given back : String} {b : BindingId} (hs : cx.signatures.get? name = some signature)
      (harg : args[i]? = some arg) (hgiven : signature.TakesIn cx.types i given)
      (hback : signature.GivesBack cx.types back)
      (hlonger : Relation.ReflTransGen (fun longer shorter => (longer, shorter) ∈ signature.outlives) given back)
      (ht : Takes cx arg b) : Takes cx (.call name args loc) b

/-- A statement in reachable code stores references out of the one binding into the other, whose type
carries references. -/
structure HandsOn (cx : Context) (g : Graph) (b c : BindingId) : Prop where
  stored : ∃ p ∈ g.allPoints, ∃ st e, g.statementAt p = some st ∧ st.store? = some (c, e) ∧ cx.Takes e b
  carries : ∃ bd, cx.function.bindings.get? c = some bd ∧ cx.types.carriesRefs (some bd.ty) = .ok true

/-- An assignment in reachable code of a parameter to a place, with the regions that their types name. -/
structure AssignsParam (cx : Context) (g : Graph) (dest : Place) (behind given : String) : Prop where
  stored : ∃ p ∈ g.allPoints, ∃ target name q loc loc',
    g.statementAt p = some (.assign target (.var name q.id loc) loc') ∧ Place.ofExpr? target = some dest ∧
      q ∈ cx.function.params ∧ cx.types.regionOf (some q.ty) = .ok (some given)
  typed : ∃ ty, cx.PlaceType dest ty ∧ cx.types.regionOf (some ty) = .ok (some behind)

/-- The outlives pairs that are declared and those that the types of the parameters imply, closed. -/
def outlivesClosure (cx : Context) (frame : RegionFrame) : Outlives :=
  Outlives.closure cx.function.regionParams (cx.function.outlives ++ frame.implied)

/-- One region outlives another by a declaration, by the type of a parameter, or as the static one. -/
def Outlasts (cx : Context) (longer shorter : String) : Prop :=
  (longer, shorter) ∈ cx.function.outlives ∨ cx.Implies longer shorter ∨
    longer = staticRegion ∧ shorter ∈ cx.function.regionParams

section

variable {cx : Context} {signature : Signature} {frame : RegionFrame}
  (hframe : cx.declareUniversals signature = .ok frame) {a b : String}
include hframe

theorem outlasts_of_base (hpair : (a, b) ∈ Outlives.base cx.function.regionParams
    (cx.function.outlives ++ frame.implied)) : Relation.ReflTransGen cx.Outlasts a b := by
  rcases Outlives.mem_base.mp hpair with ⟨rfl, _⟩ | hstatic | hpair
  · exact .refl
  · exact .single (.inr (.inr hstatic))
  · rcases List.mem_append.mp hpair with hdeclared | himplied
    · exact .single (.inl hdeclared)
    · exact .single (.inr (.inl ((mem_implied_iff hframe).mp himplied).2))

theorem base_of_outlasts (h : cx.Outlasts a b) : a = b ∨
    (a, b) ∈ Outlives.base cx.function.regionParams (cx.function.outlives ++ frame.implied) := by
  by_cases hab : a = b
  · exact .inl hab
  · refine .inr (Outlives.mem_base.mpr (.inr ?_))
    rcases h with hdeclared | himplied | hstatic
    · exact .inr (List.mem_append_left _ hdeclared)
    · exact .inr (List.mem_append_right _ ((mem_implied_iff hframe).mpr ⟨hab, himplied⟩))
    · exact .inl hstatic

/-- The closure says of different regions what follows from the pairs that hold at once. -/
theorem outlasts_iff : Relation.ReflTransGen cx.Outlasts a b ↔ a = b ∨ (a, b) ∈ cx.outlivesClosure frame := by
  rw [outlivesClosure, Outlives.mem_closure]
  constructor
  · intro h
    induction h with
    | refl => exact .inl rfl
    | tail _ hstep ih =>
      rcases base_of_outlasts hframe hstep with rfl | hpair
      · exact ih
      · rcases ih with rfl | hchain
        · exact .inr (.single hpair)
        · exact .inr (hchain.tail hpair)
  · rintro (rfl | h)
    · exact .refl
    · induction h with
      | single hpair => exact outlasts_of_base hframe hpair
      | tail _ hpair ih => exact ih.trans (outlasts_of_base hframe hpair)

end

end Context

namespace RegionProblem

variable {r : RegionProblem} {call : CallSite}

theorem paramVar_of_takesIn {signature : Signature} {i : Nat} {region : String}
    (h : signature.TakesIn r.types i region) (site : Site) :
    ∃ ty, signature.params[i]? = some ty ∧ r.paramVar site ty i = .ok (some (instanceVar site region)) := by
  obtain ⟨ty, named, hty, hcarries, hnamed, rfl⟩ := h
  refine ⟨ty, hty, ?_⟩
  simp only [paramVar, Fault.ofTypes_eq_ok.mpr hcarries, Fault.ofTypes_eq_ok.mpr hnamed]
  rfl

theorem resultRegion_of_givesBack {region : String} (h : call.signature.GivesBack r.types region) :
    r.resultRegion call = .ok (some (instanceVar call.site region)) := by
  rcases h.2 with hnamed | ⟨hnone, i, hi, htakes⟩
  · simp only [resultRegion, Fault.ofTypes_eq_ok.mpr hnamed]
    rfl
  · obtain ⟨ty, hty, hvar⟩ := paramVar_of_takesIn htakes call.site
    simp only [resultRegion, Fault.ofTypes_eq_ok.mpr hnone, Fault.ofTypes_eq_ok.mpr hi]
    simp only [bind, Except.bind, hty, Option.elim_some, hvar]

/-- A call is found under its site, as no other call of the point has it. -/
theorem call?_of_mem (hmem : call ∈ (r.effects.get call.site.point).calls)
    (hdistinct : ∀ c ∈ (r.effects.get call.site.point).calls, c.site = call.site → c = call) :
    r.call? call.site = some call := by
  unfold call?
  cases hfound : (r.effects.get call.site.point).calls.find? (·.site = call.site) with
  | none => simpa using List.find?_eq_none.mp hfound call hmem
  | some c =>
    have hsite : c.site = call.site := by simpa using List.find?_some hfound
    rw [hdistinct c (List.mem_of_find?_eq_some hfound) hsite]

end RegionProblem

namespace Context.Completes

variable {cx : Context} {limit : Option Int} {s : Stages} (h : cx.Completes limit s)

include h

/-- At a call, a region that is declared to outlive another one includes it. -/
theorem instance_inside {p : Point} (hp : p ∈ s.graph.allPoints) {c : CallSite}
    (hc : c ∈ (s.effects.get p).calls) {longer shorter : String}
    (hout : Relation.ReflTransGen (fun longer shorter => (longer, shorter) ∈ c.signature.outlives) longer shorter) :
    s.Inside (RegionProblem.instanceVar c.site shorter) (RegionProblem.instanceVar c.site longer) := by
  induction hout with
  | refl => exact .refl _
  | tail _ hpair ih => exact .trans (h.inside (((h.generated hp).calls c hc).outlives _ _ hpair)) ih

/-- The calls of a point are found under their sites. -/
theorem call?_eq {p : Point} (hp : p ∈ s.graph.allPoints) {c : CallSite} (hc : c ∈ (s.effects.get p).calls) :
    (s.regions cx).call? c.site = some c := by
  obtain ⟨w, rfl, hget, hcollected⟩ := effects_collected h.effects hp
  have hpoint := hcollected.calls c (hget ▸ hc)
  refine RegionProblem.call?_of_mem (hpoint.symm ▸ hc) fun d hd hsite => ?_
  rw [hpoint] at hd
  exact hcollected.distinct d (hget ▸ hd) c (hget ▸ hc) hsite

/-- A value that takes references from a binding has a source whose variable lies inside that of the
binding. -/
theorem takes_inside {p : Point} (hp : p ∈ s.graph.allPoints) {e : Expr} {b : BindingId} (ht : cx.Takes e b)
    {v : RegionVar} (hv : (s.regions cx).holder? b = some v) :
    ∀ {span : Span} {w w' : Walk} {value : Value}, w.Evaluated cx → cx.operand e span w = .ok (value, w') →
      w'.effects.accesses ⊆ s.effects.accesses p → w'.effects.calls ⊆ (s.effects.get p).calls →
      (∀ src ∈ value, (s.regions cx).Recorded s.generated src) →
      ∃ src ∈ value, ∃ u, (s.regions cx).HasVar src u ∧ s.Inside u v := by
  induction ht with
  | @place e place ty hplace hty hcarries =>
    intro span w w' value _ ho _ _ _
    obtain ⟨_, ty', carries, hty', hcarries', rfl⟩ := operand_place hplace ho
    obtain rfl := hty.unique hty'
    obtain rfl := Except.ok.inj (hcarries.symm.trans hcarries')
    exact ⟨.place place, List.mem_singleton_self _, v, hv, .refl v⟩
  | @reborrow subject mutable loc place hplace hd =>
    intro span w w' value _ ho hsub _ _
    obtain ⟨a, ha, rfl, k, hk, rfl⟩ := operand_borrow hplace ho
    have hrelates := (h.generated hp).loans a (hsub ha) k v hk hv hd
    exact ⟨.loan k, List.mem_singleton_self _, _, rfl, h.inside hrelates⟩
  | @part e part es i b hes hpart _ ih =>
    intro span w w' value hw ho hsub hcalls hrec
    obtain ⟨parts, u, hparts, rfl, heffects⟩ := operand_parts hes ho
    rw [heffects] at hsub hcalls
    obtain ⟨w₁, w₂, found, hw₁, hfound, hgrows, hget⟩ := operands_get hw hparts hpart
    have hmem := List.mem_of_getElem? hget
    obtain ⟨src, hsrc, x, hx, hinside⟩ := ih hv hw₁ hfound (fun a ha => hsub (hgrows.accesses.subset ha))
      (fun c hc => hcalls (hgrows.calls.subset hc))
      fun src hsrc => (RegionProblem.recorded_part hrec hmem hsrc).1
    obtain ⟨_, whole, hwhole, hvar, hrelates⟩ := RegionProblem.recorded_part hrec hmem hsrc
    exact ⟨whole, hwhole, _, hvar, .trans (h.inside (hrelates x hx)) hinside⟩
  | @call name args loc signature i arg given back b hs harg hgiven hback hlonger _ ih =>
    intro span w w' value hw ho hsub hcalls _
    obtain ⟨c, hc, u, hsig, hargs, hgrows', hvalue⟩ := operand_call ho
    obtain rfl := Option.some.inj (hs.symm.trans hsig)
    obtain ⟨w₁, w₂, found, hw₁, hfound, hgrows, hget⟩ := operands_get hw hargs harg
    have hall := hgrows.trans hgrows'
    obtain ⟨ty, hty, hparam⟩ := RegionProblem.paramVar_of_takesIn (r := s.regions cx) hgiven c.site
    have hfeeds := ((h.generated hp).calls c (hcalls hc)).args i ty found _ hty hget hparam
    obtain ⟨src, hsrc, x, hx, hinside⟩ := ih hv hw₁ hfound (fun a ha => hsub (hall.accesses.subset ha))
      (fun d hd => hcalls (hall.calls.subset hd)) fun src hsrc => (hfeeds src hsrc).1
    have harg := h.inside ((hfeeds src hsrc).2 x hx)
    have hresult : (s.regions cx).HasVar (.call c.site) (RegionProblem.instanceVar c.site back) :=
      ⟨c, h.call?_eq hp (hcalls hc), RegionProblem.resultRegion_of_givesBack hback⟩
    refine ⟨.call c.site, ?_, _, hresult, ((h.instance_inside hp (hcalls hc) hlonger).trans harg).trans hinside⟩
    rw [hvalue hback.1]
    exact List.mem_singleton_self _

/-- The variable of a binding that is stored into lies inside that of the binding that the stored
references come from. -/
theorem handsOn_inside (hread : cx.IsRead) {b c : BindingId} (hc : cx.HandsOn s.graph b c) {v : RegionVar}
    (hv : (s.regions cx).holder? b = some v) : ∃ u, (s.regions cx).holder? c = some u ∧ s.Inside u v := by
  obtain ⟨⟨p, hp, st, e, hat, hst, ht⟩, bd, hbd, hcarries⟩ := hc
  obtain ⟨carries, hcarries', hheld⟩ := exists_holder h.frame h.tracked hread.wellBound hbd
  obtain ⟨u, hu⟩ := hheld (Except.ok.inj (hcarries'.symm.trans hcarries))
  refine ⟨u, hu, ?_⟩
  obtain ⟨w, hw, hget⟩ := effects_get h.effects hp
  rw [collectAt_statement hat] at hw
  obtain ⟨dest, rfl, ⟨loc, w', f, hf, hdest, ho, hsub, hcalls⟩, _⟩ := stores_of_store? hst hw
  have hfeeds := (h.generated hp).flows f (hget ▸ hf) u (hdest ▸ hu)
  obtain ⟨src, hsrc, x, hx, hinside⟩ := h.takes_inside hp ht hv (cx.evaluated_start p) ho
    (by rwa [EffectMap.accesses, hget]) (by rwa [hget]) fun src hsrc => (hfeeds src hsrc).1
  exact (h.inside ((hfeeds src hsrc).2 x hx)).trans hinside

/-- So it is along a chain of stores. -/
theorem chain_inside (hread : cx.IsRead) {b c : BindingId} (hc : Relation.TransGen (cx.HandsOn s.graph) b c)
    {v : RegionVar} (hv : (s.regions cx).holder? b = some v) :
    ∃ u, (s.regions cx).holder? c = some u ∧ s.Inside u v := by
  induction hc with
  | single hstep => exact h.handsOn_inside hread hstep hv
  | tail _ hstep ih =>
    obtain ⟨u, hu, hinside⟩ := ih
    obtain ⟨u', hu', hinside'⟩ := h.handsOn_inside hread hstep hu
    exact ⟨u', hu', hinside'.trans hinside⟩

theorem solution_outlives : s.solution.outlives = cx.outlivesClosure s.frame := by
  rw [(ExtentProblem.solution_frame h.solution).2, h.problem_eq.1]
  simp only [Stages.regions, regionProblem, declareLocals_implied, outlivesClosure]

/-- Where nothing is found, a region whose extent has the end of another one outlives it. -/
theorem outlives_of_end (hclean : s.Clean) {a b : String} (ha : a ∈ s.frame.universals)
    (hend : b ∈ (s.solution.extent (.universal a)).ends) :
    b = a ∨ a = staticRegion ∨ (a, b) ∈ cx.outlivesClosure s.frame := by
  have hnone : s.solution.outlivesFindings = [] := (List.append_eq_nil_iff.mp hclean.validity).2
  have hframe : a ∈ s.solution.frame.universals := by
    rw [(ExtentProblem.solution_frame h.solution).1, h.problem_eq.1]
    simpa only [Stages.regions, regionProblem, declareLocals_universals] using ha
  have hends := List.map_eq_nil_iff.mp (List.flatMap_eq_nil_iff.mp hnone a hframe)
  have hkept := List.filter_eq_nil_iff.mp hends b (mem_sortBy.mpr hend)
  simpa [Outlives.holds, h.solution_outlives, or_iff_not_imp_left] using hkept

/-- The region that a chain of stores starts from outlives the one that it leads to. -/
theorem outlives_of_chain (hread : cx.IsRead) (hclean : s.Clean) {y z : BindingId} {a b : String}
    (hy : cx.HasRegion y a) (hz : cx.HasRegion z b) (hc : Relation.TransGen (cx.HandsOn s.graph) y z) :
    b = a ∨ a = staticRegion ∨ (a, b) ∈ cx.outlivesClosure s.frame := by
  have hv := hasRegion_holder h.frame h.tracked hread.wellBound hy
  have hu := hasRegion_holder h.frame h.tracked hread.wellBound hz
  obtain ⟨u, hu', hinside⟩ := h.chain_inside hread hc hv
  obtain rfl := Option.some.inj (hu.symm.trans hu')
  have hmarker := h.universal_has (hasRegion_mem h.frame hread.wellBound hz) (x := .inr b) List.mem_cons_self
  exact h.outlives_of_end hclean (hasRegion_mem h.frame hread.wellBound hy) (hinside _ hmarker)

theorem outlasts_of_mem {a b : String} (hab : (a, b) ∈ cx.outlivesClosure s.frame) :
    Relation.ReflTransGen cx.Outlasts a b :=
  (outlasts_iff h.frame).mpr (.inr hab)

/-- An assignment hands the references of the parameter on to the root of the place. -/
theorem assigns_handsOn (hread : cx.IsRead) {dest : Place} {behind given : String}
    (ha : cx.AssignsParam s.graph dest behind given) :
    ∃ q, cx.HasRegion q given ∧ (given = staticRegion ∨ given ∈ cx.function.regionParams) ∧
      cx.HandsOn s.graph q dest.root := by
  obtain ⟨⟨p, hp, target, name, q, loc, loc', hat, hdest, hq, hgiven⟩, ty, hty, hbehind⟩ := ha
  obtain ⟨hregion, hdeclared⟩ := hasRegion_of_regionOf h.frame hq hgiven
  obtain ⟨bd, hbd, hcarries⟩ := carriesRefs_root hread.separate hty
    (.inl (TypeTable.carriesRefs_of_regionOf hbehind))
  obtain ⟨c, hc, _⟩ := exists_holder h.frame h.tracked hread.wellBound hbd
  have htakes : cx.Takes (.var name q.id loc) q.id := .place rfl
    (placeType_root (hread.wellBound.bound q hq).2 name) (TypeTable.carriesRefs_of_regionOf hgiven)
  refine ⟨q.id, hregion, hdeclared, ⟨p, hp, _, _, hat, ?_, htakes⟩, bd, hbd, hcarries c hc ▸ hc⟩
  rw [Stmt.store?, hdest]
  rfl

end Context.Completes

/-- If references out of a parameter of an accepted function reach another parameter or the return slot
by a chain of stores, the region of the first is static or outlives that of the other. -/
theorem escape_declared {cx : Context} {config : Config} {v : Verdict} {log : List LogLine} {g : Graph}
    (hread : cx.IsRead) (h : cx.verdict config = .ok (v, log)) (ha : v.accepted = true)
    (hg : cx.function.graph = .ok g) {y z : BindingId} {a b : String} (hy : cx.HasRegion y a)
    (hz : cx.HasRegion z b) (hc : Relation.TransGen (cx.HandsOn g) y z) :
    a = staticRegion ∨ Relation.ReflTransGen cx.Outlasts a b := by
  obtain ⟨s, hs, hclean, _⟩ := Context.accepted_clean h ha
  obtain rfl := Except.ok.inj (hg.symm.trans hs.graph)
  rcases hs.outlives_of_chain hread hclean hy hz hc with rfl | hstatic | hab
  · exact .inr .refl
  · exact .inl hstatic
  · exact .inr (hs.outlasts_of_mem hab)

/-- Whether the type of the binding carries references. -/
def Context.bindingCarries (cx : Context) (b : BindingId) : Bool :=
  (cx.function.bindings.get? b).any fun bd => (cx.types.carriesRefs (some bd.ty)).toOption = some true

theorem Context.bindingCarries_eq_true {cx : Context} {b : BindingId} (h : cx.bindingCarries b = true) :
    ∃ bd, cx.function.bindings.get? b = some bd ∧ cx.types.carriesRefs (some bd.ty) = .ok true := by
  simp only [bindingCarries, Option.any_eq_true, decide_eq_true_eq] at h
  obtain ⟨bd, hbd, hcarries⟩ := h
  exact ⟨bd, hbd, eq_ok_of_toOption hcarries⟩

/-- Whether a parameter of this id has the region. -/
def Context.paramHasRegion (cx : Context) (id : BindingId) (region : String) : Bool :=
  cx.function.params.any fun p => p.id = id && (cx.types.carriesRefs (some p.ty)).toOption = some true &&
    (cx.paramRegion p).toOption = some region

theorem Context.hasRegion_of_param {cx : Context} {id : BindingId} {region : String}
    (h : cx.paramHasRegion id region = true) : cx.HasRegion id region := by
  simp only [paramHasRegion, List.any_eq_true, Bool.and_eq_true, decide_eq_true_eq] at h
  obtain ⟨p, hp, ⟨hid, hcarries⟩, hregion⟩ := h
  exact hid ▸ .param hp (eq_ok_of_toOption hcarries) (eq_ok_of_toOption hregion)

/-- Whether the return slot has the named region. -/
def Context.resultHasRegion (cx : Context) (region : String) : Bool :=
  cx.bindingCarries returnSlot && (cx.ownSignature.returnRegion cx.types).toOption = some (some region)

theorem Context.hasRegion_of_result {cx : Context} {region : String} (h : cx.resultHasRegion region = true) :
    cx.HasRegion returnSlot region := by
  simp only [resultHasRegion, Bool.and_eq_true, decide_eq_true_eq] at h
  obtain ⟨b, hb, hcarries⟩ := bindingCarries_eq_true h.1
  exact .result hb hcarries (.inl (eq_ok_of_toOption h.2))

/-- Whether a call takes a reference in and gives back one whose region the other's is declared to outlive. -/
def Signature.shortens (s : Signature) (types : TypeTable) (i : Nat) (given back : String) : Bool :=
  (s.params[i]?.any fun ty => (types.carriesRefs (some ty)).toOption = some true &&
    (types.regionOf (some ty)).toOption = some (some given)) &&
  (types.carriesRefs s.ret).toOption = some true && (s.returnRegion types).toOption = some (some back) &&
  s.outlives.contains (given, back)

theorem Signature.shortens_eq_true {s : Signature} {types : TypeTable} {i : Nat} {given back : String}
    (h : s.shortens types i given back = true) :
    s.TakesIn types i given ∧ s.GivesBack types back ∧ (given, back) ∈ s.outlives := by
  simp only [shortens, Option.any_eq_true, Bool.and_eq_true, decide_eq_true_eq, List.contains_iff_mem] at h
  obtain ⟨⟨⟨⟨ty, hty, hcarries, hregion⟩, hret⟩, hback⟩, hpair⟩ := h
  exact ⟨⟨ty, _, hty, eq_ok_of_toOption hcarries, eq_ok_of_toOption hregion, rfl⟩,
    ⟨eq_ok_of_toOption hret, .inl (eq_ok_of_toOption hback)⟩, hpair⟩

/-- Whether the body builds an aggregate of the result of a call, and returns a reborrow out of a field. -/
def Context.relays (cx : Context) (g : Graph) : Bool :=
  match g.statementAt ⟨g.entry, 0⟩, g.statementAt ⟨g.entry, 1⟩ with
  | some (.declare _ t (some (.construct _ [.mk _ (.call name [.var _ y _] _)] _)) _),
    some (.assign (.var _ z _) (.borrow (.deref (.field (.var _ u _) _ _) _) _ _) _) =>
    y = 1 && t = 2 && u = 2 && z = returnSlot && g.allPoints.contains ⟨g.entry, 0⟩ &&
      g.allPoints.contains ⟨g.entry, 1⟩ && [1, 2, returnSlot].all cx.bindingCarries &&
      (cx.signatures.get? name).any (·.shortens cx.types 0 "'l" "'s")
  | _, _ => false

theorem Context.chain_of_relays {cx : Context} {g : Graph} (h : cx.relays g = true) :
    Relation.TransGen (cx.HandsOn g) 1 returnSlot := by
  unfold relays at h
  split at h
  · rename_i hfirst hlast
    simp only [Bool.and_eq_true, decide_eq_true_eq, List.contains_iff_mem, List.all_eq_true,
      Option.any_eq_true] at h
    obtain ⟨⟨⟨⟨⟨⟨⟨rfl, rfl⟩, rfl⟩, rfl⟩, hp⟩, hq⟩, hcarries⟩, signature, hs, hshortens⟩ := h
    obtain ⟨htakes, hgives, hpair⟩ := Signature.shortens_eq_true hshortens
    have hheld := fun b hb => bindingCarries_eq_true (hcarries b hb)
    obtain ⟨bd, hbd, hbdc⟩ := hheld 1 (by decide)
    have hvar : ∀ name loc, cx.Takes (.var name 1 loc) 1 :=
      fun name _ => .place rfl (placeType_root hbd name) hbdc
    have hdeclared : cx.HandsOn g 1 2 := by
      refine ⟨⟨_, hp, _, _, hfirst, rfl, .part (i := 0) rfl rfl ?_⟩, hheld 2 (by decide)⟩
      exact .call (i := 0) hs rfl htakes hgives (.single hpair) (hvar _ _)
    have hreturned : cx.HandsOn g 2 returnSlot := by
      refine ⟨⟨_, hq, _, _, hlast, rfl, ?_⟩, hheld returnSlot (by decide)⟩
      exact .reborrow (show Place.ofExpr? _ = some ⟨2, [.field _, .deref], _⟩ from rfl)
        (by simp [Place.throughDeref])
    exact (Relation.TransGen.single hdeclared).tail hreturned
  · cases h

/-- Whether the function is accepted, has such a body, and the two bindings have these regions. -/
def Context.acceptsRelay (cx : Context) (given back : String) : Bool :=
  cx.paramHasRegion 1 given && cx.resultHasRegion back && (cx.verdict {}).toOption.any (·.1.accepted) &&
    cx.function.graph.toOption.any cx.relays

/-- References out of a parameter go through a call into an aggregate, and out of it to the caller. -/
def relayed : Context :=
  Context.ofText ("struct P<'p> \x7b l: &'p Int \x7d extern fn g<'s, 'l: 's>(x: &'l Int) -> &'s Int; " ++
    "fn f<'z, 'y: 'z>(y: &'y Int) -> &'z Int \x7b let t: P<'z> = new P<'z> \x7b l: g(y) \x7d; return &*t.l; \x7d") "f"

/-- The region of the parameter is declared to outlive that of the result. -/
theorem escape_declared_relayed : relayed.IsRead ∧ ∃ r g, relayed.verdict {} = .ok r ∧ r.1.accepted = true ∧
    relayed.function.graph = .ok g ∧ relayed.HasRegion 1 "'y" ∧ relayed.HasRegion returnSlot "'z" ∧
      Relation.TransGen (relayed.HandsOn g) 1 returnSlot ∧
      ("'y" = staticRegion ∨ Relation.ReflTransGen relayed.Outlasts "'y" "'z") := by
  obtain ⟨hread, hrelay⟩ : relayed.IsRead ∧ relayed.acceptsRelay "'y" "'z" = true :=
    Context.ofText_of_any (t := (·.acceptsRelay "'y" "'z")) (by decide +kernel)
  simp only [Context.acceptsRelay, Bool.and_eq_true, Option.any_eq_true] at hrelay
  obtain ⟨⟨⟨hy, hz⟩, r, hr, ha⟩, g, hg, hrelays⟩ := hrelay
  have hv := eq_ok_of_toOption hr
  have hg := eq_ok_of_toOption hg
  have hy := Context.hasRegion_of_param hy
  have hz := Context.hasRegion_of_result hz
  have hchain := Context.chain_of_relays hrelays
  exact ⟨hread, r, g, hv, ha, hg, hy, hz, hchain, escape_declared hread hv ha hg hy hz hchain⟩

/-- If an accepted function assigns a parameter to a place, the region of the parameter is static or
outlives the region of the root of the place, and that of every binding that the root is handed on to.
Where such a region outlives the one that the type of the place names, the parameter's does so too. -/
theorem store_outlives_root {cx : Context} {config : Config} {v : Verdict} {log : List LogLine} {g : Graph}
    {frame : RegionFrame} (hread : cx.IsRead) (h : cx.verdict config = .ok (v, log)) (ha : v.accepted = true)
    (hg : cx.function.graph = .ok g) (hframe : cx.declareUniversals cx.ownSignature = .ok frame)
    {dest : Place} {behind given root : String} {z : BindingId} (hst : cx.AssignsParam g dest behind given)
    (hc : Relation.ReflTransGen (cx.HandsOn g) dest.root z) (hz : cx.HasRegion z root) :
    (given = staticRegion ∨ (given, root) ∈ cx.outlivesClosure frame) ∧
      ((root, behind) ∈ cx.outlivesClosure frame →
        given = staticRegion ∨ (given, behind) ∈ cx.outlivesClosure frame) := by
  obtain ⟨s, hs, hclean, _⟩ := Context.accepted_clean h ha
  obtain rfl := Except.ok.inj (hg.symm.trans hs.graph)
  obtain rfl := Except.ok.inj (hframe.symm.trans hs.frame)
  obtain ⟨q, hq, hdeclared, hstep⟩ := hs.assigns_handsOn hread hst
  have hroot : given = staticRegion ∨ (given, root) ∈ cx.outlivesClosure s.frame := by
    rcases hs.outlives_of_chain hread hclean hq hz (.head' hstep hc) with rfl | hstatic | hout
    · exact .inr (Outlives.mem_closure.mpr (.single (Outlives.mem_base.mpr (.inl ⟨rfl, hdeclared⟩))))
    · exact .inl hstatic
    · exact .inr hout
  refine ⟨hroot, fun hbehind => hroot.imp_right fun hout => ?_⟩
  exact Outlives.mem_closure.mpr ((Outlives.mem_closure.mp hout).trans (Outlives.mem_closure.mp hbehind))

/-- Whether the statement at the point assigns a parameter to a place in the binding, with these regions. -/
def Context.assignsParamAt (cx : Context) (g : Graph) (p : Point) (root : BindingId) (behind given : String) :
    Bool :=
  match g.statementAt p with
  | some (.assign target (.var _ id _) _) =>
    g.allPoints.contains p && (Place.ofExpr? target).any (fun dest => dest.root = root &&
      (cx.function.typeOf cx.types dest {}).toOption.any fun ty =>
        (cx.types.regionOf (some ty)).toOption = some (some behind)) &&
    cx.function.params.any fun q => q.id = id && (cx.types.regionOf (some q.ty)).toOption = some (some given)
  | _ => false

theorem Context.assignsParam_of_at {cx : Context} {g : Graph} {p : Point} {root : BindingId} {behind given : String}
    (h : cx.assignsParamAt g p root behind given = true) :
    ∃ dest, dest.root = root ∧ cx.AssignsParam g dest behind given := by
  unfold assignsParamAt at h
  split at h
  · rename_i hat
    simp only [Bool.and_eq_true, List.contains_iff_mem, Option.any_eq_true, List.any_eq_true,
      decide_eq_true_eq] at h
    obtain ⟨⟨hp, dest, hdest, hroot, ty, hty, hbehind⟩, q, hq, rfl, hgiven⟩ := h
    exact ⟨dest, hroot, ⟨p, hp, _, _, q, _, _, hat, hdest, hq, eq_ok_of_toOption hgiven⟩,
      ty, ⟨{}, eq_ok_of_toOption hty⟩, eq_ok_of_toOption hbehind⟩
  · cases h

/-- Whether the function is accepted and starts with such an assignment to a place in its first parameter,
and the closure passes a test. -/
def Context.acceptsStore (cx : Context) (root behind given : String) (test : Outlives → Bool) : Bool :=
  cx.paramHasRegion 1 root && (cx.verdict {}).toOption.any (·.1.accepted) &&
    cx.function.graph.toOption.any (fun g => cx.assignsParamAt g ⟨g.entry, 0⟩ 1 behind given) &&
    (cx.declareUniversals cx.ownSignature).toOption.any fun frame => test (cx.outlivesClosure frame)

theorem Context.exists_of_acceptsStore {cx : Context} {root behind given : String} {test : Outlives → Bool}
    (h : cx.acceptsStore root behind given test = true) :
    ∃ r g frame dest, cx.verdict {} = .ok r ∧ r.1.accepted = true ∧ cx.function.graph = .ok g ∧
      cx.declareUniversals cx.ownSignature = .ok frame ∧ cx.AssignsParam g dest behind given ∧
      cx.HasRegion dest.root root ∧ test (cx.outlivesClosure frame) = true := by
  simp only [acceptsStore, Bool.and_eq_true, Option.any_eq_true] at h
  obtain ⟨⟨⟨hp, r, hr, ha⟩, g, hg, hat⟩, frame, hframe, htest⟩ := h
  obtain ⟨dest, hroot, hst⟩ := assignsParam_of_at hat
  exact ⟨r, g, frame, dest, eq_ok_of_toOption hr, ha, eq_ok_of_toOption hg, eq_ok_of_toOption hframe, hst,
    hroot ▸ hasRegion_of_param hp, htest⟩

/-- A reference is stored behind another one, with these declared regions. -/
def storeBehind (regions : String) : Context :=
  Context.ofText ("fn f<" ++ regions ++ ">(p: &'r mut &'b Int, y: &'y Int) \x7b *p = y; \x7d") "f"

/-- The stored reference outlives the outer region, and the outer region the inner one. -/
def storeDeclared : Context := storeBehind "'b, 'r: 'b, 'y: 'r"

/-- So it outlives the inner one. -/
theorem store_outlives_root_storeDeclared : storeDeclared.IsRead ∧ ∃ r g frame dest,
    storeDeclared.verdict {} = .ok r ∧ r.1.accepted = true ∧ storeDeclared.function.graph = .ok g ∧
      storeDeclared.declareUniversals storeDeclared.ownSignature = .ok frame ∧
      storeDeclared.AssignsParam g dest "'b" "'y" ∧ storeDeclared.HasRegion dest.root "'r" ∧
      ("'r", "'b") ∈ storeDeclared.outlivesClosure frame ∧
      ("'y" = staticRegion ∨ ("'y", "'b") ∈ storeDeclared.outlivesClosure frame) := by
  obtain ⟨hread, hstore⟩ : storeDeclared.IsRead ∧
      storeDeclared.acceptsStore "'r" "'b" "'y" (·.holds "'r" "'b") = true :=
    Context.ofText_of_any (t := (·.acceptsStore "'r" "'b" "'y" (·.holds "'r" "'b"))) (by decide +kernel)
  obtain ⟨r, g, frame, dest, hv, ha, hg, hframe, hst, hp, hout⟩ := Context.exists_of_acceptsStore hstore
  have hbehind : ("'r", "'b") ∈ storeDeclared.outlivesClosure frame := List.contains_iff_mem.mp hout
  exact ⟨hread, r, g, frame, dest, hv, ha, hg, hframe, hst, hp, hbehind,
    (store_outlives_root hread hv ha hg hframe hst .refl hp).2 hbehind⟩

/-- The stored reference outlives the outer region only. -/
def storeUndeclared : Context := storeBehind "'b, 'r, 'y: 'r"

/-- The function is accepted, although the stored reference is not declared to outlive the inner one. -/
theorem store_behind_storeUndeclared : storeUndeclared.IsRead ∧ ∃ r g frame dest,
    storeUndeclared.verdict {} = .ok r ∧ r.1.accepted = true ∧ storeUndeclared.function.graph = .ok g ∧
      storeUndeclared.declareUniversals storeUndeclared.ownSignature = .ok frame ∧
      storeUndeclared.AssignsParam g dest "'b" "'y" ∧ ("'b", "'b") ∈ storeUndeclared.outlivesClosure frame ∧
      "'y" ≠ staticRegion ∧ ("'y", "'b") ∉ storeUndeclared.outlivesClosure frame := by
  obtain ⟨hread, hstore⟩ : storeUndeclared.IsRead ∧
      storeUndeclared.acceptsStore "'r" "'b" "'y" (fun r => r.holds "'b" "'b" && !r.holds "'y" "'b") = true :=
    Context.ofText_of_any (t := (·.acceptsStore "'r" "'b" "'y" fun r => r.holds "'b" "'b" && !r.holds "'y" "'b"))
      (by decide +kernel)
  obtain ⟨r, g, frame, dest, hv, ha, hg, hframe, hst, _, hout⟩ := Context.exists_of_acceptsStore hstore
  rw [Bool.and_eq_true, Outlives.holds, List.contains_iff_mem] at hout
  refine ⟨hread, r, g, frame, dest, hv, ha, hg, hframe, hst, hout.1, by decide, fun hmem => ?_⟩
  simp [Outlives.holds, hmem] at hout

end Ownership
