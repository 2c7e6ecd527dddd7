import Ownership.Proofs.Region.Escape

/-!
Which parameters share a region. A parameter that names no region gets one that is made up
from its own name, and such a region is told from the others by its spelling alone. Nothing
reserves the spelling: a declared region may have it, and so may the region of another
parameter of the same name.
-/
namespace Ownership

open Outcome

namespace Param

variable {p q : Param}

theorem anonymousRegion_inj : p.anonymousRegion = q.anonymousRegion ↔ p.name = q.name :=
  String.append_right_inj "'_"

theorem anonymousRegion_ne_static (p : Param) : p.anonymousRegion ≠ staticRegion := by
  intro h
  have hspelled := congrArg String.toList h
  simp [anonymousRegion, staticRegion] at hspelled

end Param

namespace Context

variable {cx : Context} {r : RegionFrame} {p : Param}

/-- A parameter that carries references holds the region its type names, or the one made up for it. -/
theorem param_holder (hbound : cx.function.WellBound) (hr : cx.declareUniversals cx.ownSignature = .ok r)
    (hp : p ∈ cx.function.params) (hc : cx.types.carriesRefs (some p.ty) = .ok true) :
    ∃ a, cx.types.regionOf (some p.ty) = .ok a ∧
      r.holders.get? p.id = some (.universal (a.getD p.anonymousRegion)) ∧
      ∀ region ∈ a, region = staticRegion ∨ region ∈ cx.function.regionParams := by
  obtain ⟨c, hc', hdeclared⟩ := (declareUniversals_spec hr).2.2.1 p hp
  obtain rfl := Except.ok.inj (hc.symm.trans hc')
  obtain ⟨_, region, _, hregion⟩ := hdeclared rfl
  have hheld := hasRegion_declared hr hbound (.param hp hc hregion)
  obtain ⟨a, ha, hfound⟩ := bind_eq_ok.mp hregion
  have ha := Fault.ofTypes_eq_ok.mp ha
  cases a with
  | none =>
    obtain rfl := Except.ok.inj hfound
    exact ⟨none, ha, hheld, fun _ h => by cases h⟩
  | some named =>
    obtain ⟨hnamed, hknown⟩ := hasRegion_of_regionOf hr hp ha
    refine ⟨some named, ha, hasRegion_declared hr hbound hnamed, fun region h => ?_⟩
    obtain rfl := Option.some.inj h
    exact hknown

/-- A named region that is spelled as a made-up one is a declared one. -/
theorem anonymousRegion_eq_iff {region : String}
    (h : region = staticRegion ∨ region ∈ cx.function.regionParams) :
    p.anonymousRegion = region ↔ region = p.anonymousRegion ∧ p.anonymousRegion ∈ cx.function.regionParams := by
  constructor
  · rintro rfl
    exact ⟨rfl, h.resolve_left p.anonymousRegion_ne_static⟩
  · exact fun h => h.1.symm

end Context

/-- Two parameters that carry references hold the same region just if their types name the same one, or
a made-up one is not told apart: neither names a region and they have the same name, or the one names a
declared region that is spelled as the region made up for the other. The static region is never spelled so. -/
theorem shares_region_iff {cx : Context} {r : RegionFrame} (hbound : cx.function.WellBound)
    (hr : cx.declareUniversals cx.ownSignature = .ok r) {p q : Param} (hp : p ∈ cx.function.params)
    (hq : q ∈ cx.function.params) (hpc : cx.types.carriesRefs (some p.ty) = .ok true)
    (hqc : cx.types.carriesRefs (some q.ty) = .ok true) :
    ∃ a b, cx.types.regionOf (some p.ty) = .ok a ∧ cx.types.regionOf (some q.ty) = .ok b ∧
      (r.holders.get? p.id).isSome = true ∧
      (r.holders.get? p.id = r.holders.get? q.id ↔
        (∃ region, a = some region ∧ b = some region) ∨
        (a = none ∧ b = none ∧ p.name = q.name) ∨
        (a = none ∧ b = some p.anonymousRegion ∧ p.anonymousRegion ∈ cx.function.regionParams) ∨
        (b = none ∧ a = some q.anonymousRegion ∧ q.anonymousRegion ∈ cx.function.regionParams)) := by
  obtain ⟨a, ha, hheldp, hknowna⟩ := Context.param_holder hbound hr hp hpc
  obtain ⟨b, hb, hheldq, hknownb⟩ := Context.param_holder hbound hr hq hqc
  refine ⟨a, b, ha, hb, by rw [hheldp]; rfl, ?_⟩
  rw [hheldp, hheldq, Option.some.injEq, RegionVar.universal.injEq]
  cases a with
  | none =>
    cases b with
    | none => simp [Param.anonymousRegion_inj]
    | some y => simp [Context.anonymousRegion_eq_iff (hknownb y rfl)]
  | some x =>
    cases b with
    | none =>
      rw [Option.getD_some, Option.getD_none, eq_comm, Context.anonymousRegion_eq_iff (hknowna x rfl)]
      simp
    | some y => simp [eq_comm]

/-- Whether two different parameters that carry references pass a test with the declared regions. -/
def Context.paramsPass (cx : Context) (i j : Nat) (test : RegionFrame → Param → Param → Bool) : Bool :=
  (cx.declareUniversals cx.ownSignature).toOption.any fun r =>
    cx.function.params[i]?.any fun p => cx.function.params[j]?.any fun q =>
      (cx.types.carriesRefs (some p.ty)).toOption = some true &&
        (cx.types.carriesRefs (some q.ty)).toOption = some true && p.id ≠ q.id && test r p q

theorem Context.exists_of_paramsPass {cx : Context} {i j : Nat} {test : RegionFrame → Param → Param → Bool}
    (h : cx.paramsPass i j test = true) :
    ∃ r, cx.declareUniversals cx.ownSignature = .ok r ∧ ∃ p ∈ cx.function.params, ∃ q ∈ cx.function.params,
      cx.types.carriesRefs (some p.ty) = .ok true ∧ cx.types.carriesRefs (some q.ty) = .ok true ∧
      p.id ≠ q.id ∧ test r p q = true := by
  simp only [paramsPass, Option.any_eq_true, Bool.and_eq_true, decide_eq_true_eq] at h
  obtain ⟨r, hr, p, hp, q, hq, ⟨⟨hpc, hqc⟩, hne⟩, htest⟩ := h
  exact ⟨r, eq_ok_of_toOption hr, p, List.mem_of_getElem? hp, q, List.mem_of_getElem? hq, eq_ok_of_toOption hpc,
    eq_ok_of_toOption hqc, hne, htest⟩

/-- The regions that the types of two parameters name. -/
def Context.regionsAre (cx : Context) (a b : Option String) (p q : Param) : Bool :=
  (cx.types.regionOf (some p.ty)).toOption = some a && (cx.types.regionOf (some q.ty)).toOption = some b

/-- Whether the function is accepted where the second of three parameters alone names a region, which the
first one shares. -/
def Context.sharesNamed (cx : Context) (region : String) : Bool :=
  (cx.verdict {}).toOption.any (·.1.accepted) &&
    cx.paramsPass 0 1 (fun r p q =>
      cx.regionsAre none (some region) p q && r.holders.get? p.id = r.holders.get? q.id) &&
    cx.paramsPass 1 2 (fun _ p q => cx.regionsAre (some region) none p q && q.anonymousRegion ≠ region)

/-- Of the three references that are passed, one names a region and the first is returned as if it did. -/
def namesake : Context :=
  Context.ofText "fn f<'_x>(x: &Int, y: &'_x Int, z: &Int) -> &'_x Int \x7b return x; \x7d" "f"

theorem namesake_sharesNamed : namesake.IsRead ∧ namesake.sharesNamed "'_x" = true :=
  Context.ofText_of_any (t := (·.sharesNamed "'_x")) (by decide +kernel)

/-- The region made up for the third parameter is told from the declared one. -/
theorem shares_region_iff_namesake : namesake.IsRead ∧ ∃ r,
    namesake.declareUniversals namesake.ownSignature = .ok r ∧ ∃ p ∈ namesake.function.params,
      ∃ q ∈ namesake.function.params, namesake.types.carriesRefs (some p.ty) = .ok true ∧
        namesake.types.carriesRefs (some q.ty) = .ok true ∧ p.id ≠ q.id ∧
        namesake.types.regionOf (some p.ty) = .ok (some "'_x") ∧ namesake.types.regionOf (some q.ty) = .ok none ∧
        q.anonymousRegion ≠ "'_x" ∧ r.holders.get? p.id ≠ r.holders.get? q.id := by
  obtain ⟨hread, htests⟩ := namesake_sharesNamed
  simp only [Context.sharesNamed, Bool.and_eq_true] at htests
  obtain ⟨r, hr, p, hp, q, hq, hpc, hqc, hne, htest⟩ := Context.exists_of_paramsPass htests.2
  simp only [Context.regionsAre, Bool.and_eq_true, decide_eq_true_eq] at htest
  obtain ⟨⟨ha, hb⟩, hname⟩ := htest
  refine ⟨hread, r, hr, p, hp, q, hq, hpc, hqc, hne, eq_ok_of_toOption ha, eq_ok_of_toOption hb, hname, ?_⟩
  obtain ⟨a, b, ha', hb', _, hiff⟩ := shares_region_iff hread.wellBound hr hp hq hpc hqc
  obtain rfl := Except.ok.inj ((eq_ok_of_toOption ha).symm.trans ha')
  obtain rfl := Except.ok.inj ((eq_ok_of_toOption hb).symm.trans hb')
  rw [Ne, hiff]
  simp [Ne.symm hname]

/-- The region made up for the first parameter is the declared one, so that it may be returned. -/
theorem shares_declared_region_namesake : namesake.IsRead ∧
    (∃ r, namesake.verdict {} = .ok r ∧ r.1.accepted = true) ∧ ∃ r,
    namesake.declareUniversals namesake.ownSignature = .ok r ∧ ∃ p ∈ namesake.function.params,
      ∃ q ∈ namesake.function.params, namesake.types.carriesRefs (some p.ty) = .ok true ∧
        namesake.types.carriesRefs (some q.ty) = .ok true ∧ p.id ≠ q.id ∧
        namesake.types.regionOf (some p.ty) = .ok none ∧ namesake.types.regionOf (some q.ty) = .ok (some "'_x") ∧
        r.holders.get? p.id = r.holders.get? q.id := by
  obtain ⟨hread, htests⟩ := namesake_sharesNamed
  simp only [Context.sharesNamed, Bool.and_eq_true, Option.any_eq_true] at htests
  obtain ⟨⟨⟨v, hv, haccepted⟩, htest⟩, _⟩ := htests
  obtain ⟨r, hr, p, hp, q, hq, hpc, hqc, hne, htest⟩ := Context.exists_of_paramsPass htest
  simp only [Context.regionsAre, Bool.and_eq_true, decide_eq_true_eq] at htest
  exact ⟨hread, ⟨v, eq_ok_of_toOption hv, haccepted⟩, r, hr, p, hp, q, hq, hpc, hqc, hne,
    eq_ok_of_toOption htest.1.1, eq_ok_of_toOption htest.1.2, htest.2⟩

end Ownership
