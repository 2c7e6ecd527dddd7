import Ownership.Proofs.Region.Escape
import Ownership.Proofs.Region.Exact

/-!
What is reported as undeclared between regions of the signature. The closure that checking looks into has
the static region outlive the declared regions only, not the regions that are made up for parameters
without a name. So a pair is reported that follows from the declarations, from the types of the parameters
and from the static region outliving every region of the signature, just when the one region outlives the
static one and the other is, or is outlived by, a region that is not declared.
-/
namespace Ownership

open Outcome Relation

namespace Context

/-- One region outlives another by a declaration, by the type of a parameter, or as the static one, which
outlives all the regions that are given. -/
def Entails (cx : Context) (regions : List String) (longer shorter : String) : Prop :=
  (longer, shorter) ∈ cx.function.outlives ∨ cx.Implies longer shorter ∨ longer = staticRegion ∧ shorter ∈ regions

variable {cx : Context} {regions : List String} {a b : String}

theorem Outlasts.entails (hsub : cx.function.regionParams ⊆ regions) (h : cx.Outlasts a b) : cx.Entails regions a b :=
  h.imp_right (Or.imp_right (And.imp_right fun hb => hsub hb))

/-- A chain needs the static region to outlive an undeclared one at most once. -/
theorem entails_chain_iff (hsub : cx.function.regionParams ⊆ regions) :
    ReflTransGen (cx.Entails regions) a b ↔ ReflTransGen cx.Outlasts a b ∨
      ReflTransGen cx.Outlasts a staticRegion ∧ ∃ u ∈ regions, ReflTransGen cx.Outlasts u b := by
  have hmono : ∀ {x y}, ReflTransGen cx.Outlasts x y → ReflTransGen (cx.Entails regions) x y :=
    fun h => ReflTransGen.mono (fun _ _ hstep => hstep.entails hsub) _ _ h
  constructor
  · intro h
    induction h with
    | refl => exact .inl .refl
    | @tail m c _ hstep ih =>
      have hstatic : m = staticRegion → ReflTransGen cx.Outlasts a staticRegion := by
        rintro rfl
        exact ih.elim id And.left
      have hkeep : cx.Outlasts m c → ReflTransGen cx.Outlasts a c ∨
          ReflTransGen cx.Outlasts a staticRegion ∧ ∃ u ∈ regions, ReflTransGen cx.Outlasts u c := by
        intro hmc
        rcases ih with ih | ⟨ha, u, hu, ih⟩
        · exact .inl (ih.tail hmc)
        · exact .inr ⟨ha, u, hu, ih.tail hmc⟩
      rcases hstep with hdeclared | himplied | ⟨hm, hc⟩
      · exact hkeep (.inl hdeclared)
      · exact hkeep (.inr (.inl himplied))
      · exact .inr ⟨hstatic hm, c, hc, .refl⟩
  · rintro (h | ⟨ha, u, hu, hb⟩)
    · exact hmono h
    · exact ((hmono ha).tail (.inr (.inr ⟨rfl, hu⟩))).trans (hmono hb)

/-- A solution speaks of the regions that the signature declares, and of their closure. -/
theorem solution_declares {signature : Signature} {graph : Except Fault Graph} {limit : Option Int}
    {sol : RegionSolution} (h : (cx.analyze signature graph limit).solution = .ok sol) :
    ∃ frame, cx.declareUniversals signature = .ok frame ∧ sol.frame.universals = frame.universals ∧
      sol.outlives = cx.outlivesClosure frame := by
  simp only [analyze_solution, bind_eq_ok] at h
  obtain ⟨g, _, fx, _, frame, hframe, live, _, e, he, hsol⟩ := h
  have hdeclared : cx.declareUniversals signature = .ok frame := by
    simp only [analyze, bind_eq_ok] at hframe
    obtain ⟨_, _, hframe⟩ := hframe
    exact hframe
  simp only [extentProblem, bind_eq_ok, pure_eq, Except.ok.injEq] at he
  obtain ⟨set, _, rfl⟩ := he
  obtain ⟨hsame, houtlives⟩ := ExtentProblem.solution_frame hsol
  refine ⟨frame, hdeclared, ?_, ?_⟩
  · rw [hsame, declareLocals_universals]
  · rw [houtlives, declareLocals_implied, outlivesClosure]

end Context

namespace RegionSolution

variable {r : RegionSolution} {name marker : String}

theorem mem_undeclaredEnds : marker ∈ r.undeclaredEnds name ↔ marker ∈ (r.extent (.universal name)).ends ∧
    marker ≠ name ∧ name ≠ staticRegion ∧ (name, marker) ∉ r.outlives := by
  simp [undeclaredEnds, sortTexts, mem_sortBy, Outlives.holds, and_assoc]

theorem outlivesFinding_mem (hname : name ∈ r.frame.universals) (hmarker : marker ∈ r.undeclaredEnds name) :
    r.outlivesFinding name marker ∈ r.outlivesFindings :=
  List.mem_flatMap.mpr ⟨name, hname, List.mem_map_of_mem hmarker⟩

end RegionSolution

/-- Of a pair of regions that is reported: it does not follow from the declarations, the types of the parameters
and the static region outliving the declared ones. If the static region outlives every region of the signature,
the pair follows exactly when the first region outlives the static one and some region that is not declared
outlives the second, or is the second. -/
theorem reported_entailed_iff {cx : Context} {signature : Signature} {graph : Except Fault Graph}
    {limit : Option Int} {sol : RegionSolution} (h : (cx.analyze signature graph limit).solution = .ok sol)
    {name marker : String} (hname : name ∈ sol.frame.universals) (hmarker : marker ∈ sol.undeclaredEnds name) :
    sol.outlivesFinding name marker ∈ sol.outlivesFindings ∧ ¬ReflTransGen cx.Outlasts name marker ∧
      (ReflTransGen (cx.Entails sol.frame.universals) name marker ↔
        ReflTransGen cx.Outlasts name staticRegion ∧ ∃ u ∈ sol.frame.universals, u ≠ staticRegion ∧
          u ∉ cx.function.regionParams ∧ ReflTransGen cx.Outlasts u marker) := by
  obtain ⟨frame, hframe, huniversals, houtlives⟩ := Context.solution_declares h
  obtain ⟨_, hne, _, hnone⟩ := RegionSolution.mem_undeclaredEnds.mp hmarker
  have hunrelated : ¬ReflTransGen cx.Outlasts name marker := by
    rw [Context.outlasts_iff hframe, ← houtlives]
    exact not_or.mpr ⟨Ne.symm hne, hnone⟩
  have hsub : cx.function.regionParams ⊆ sol.frame.universals := huniversals ▸ Context.regionParams_subset hframe
  refine ⟨RegionSolution.outlivesFinding_mem hname hmarker, hunrelated, ?_⟩
  rw [Context.entails_chain_iff hsub]
  constructor
  · rintro (hchain | ⟨hstatic, u, hu, hchain⟩)
    · exact absurd hchain hunrelated
    · refine ⟨hstatic, u, hu, ?_, fun hparam => ?_, hchain⟩
      · rintro rfl
        exact hunrelated (hstatic.trans hchain)
      · exact hunrelated ((hstatic.tail (.inr (.inr ⟨rfl, hparam⟩))).trans hchain)
  · rintro ⟨hstatic, u, hu, _, _, hchain⟩
    exact .inr ⟨hstatic, u, hu, hchain⟩

/-- Whether checking reports the pair, with a further test of the solution. -/
def Context.reports (cx : Context) (name marker : String) (test : RegionSolution → Bool) : Bool :=
  (cx.analysis {}).solution.toOption.any fun sol =>
    sol.frame.universals.contains name && (sol.undeclaredEnds name).contains marker && test sol

theorem Context.reports_eq_true {cx : Context} {name marker : String} {test : RegionSolution → Bool}
    (h : cx.reports name marker test = true) : ∃ sol, (cx.analysis {}).solution = .ok sol ∧
      name ∈ sol.frame.universals ∧ marker ∈ sol.undeclaredEnds name ∧ test sol = true := by
  simp only [reports, Option.any_eq_true, Bool.and_eq_true, List.contains_eq_mem, decide_eq_true_eq] at h
  obtain ⟨sol, hsol, ⟨hname, hmarker⟩, htest⟩ := h
  exact ⟨sol, eq_ok_of_toOption hsol, hname, hmarker, htest⟩

/-- A function that gives back a parameter whose region need not last as long as the result's. -/
def givesShort : Context :=
  Context.ofText "fn f<'a>(x: &Int, y: &'a Int) -> &'a Int \x7b return x; \x7d" "f"

/-- The region of the parameter does not outlive the static one, so the pair that is reported does not follow. -/
theorem reported_entailed_iff_givesShort : givesShort.IsRead ∧ ∃ sol, (givesShort.analysis {}).solution = .ok sol ∧
    sol.outlivesFinding "'_x" "'a" ∈ sol.outlivesFindings ∧
      ¬ReflTransGen (givesShort.Entails sol.frame.universals) "'_x" "'a" := by
  obtain ⟨hread, hreports⟩ : givesShort.IsRead ∧
      givesShort.reports "'_x" "'a" (fun sol => !sol.outlives.holds "'_x" staticRegion) = true :=
    Context.ofText_of_any (t := (·.reports "'_x" "'a" fun sol => !sol.outlives.holds "'_x" staticRegion))
      (by decide +kernel)
  obtain ⟨sol, hsol, hname, hmarker, hshort⟩ := Context.reports_eq_true hreports
  obtain ⟨hfinding, _, hiff⟩ := reported_entailed_iff hsol hname hmarker
  refine ⟨hread, sol, hsol, hfinding, fun hentailed => ?_⟩
  obtain ⟨frame, hframe, _, houtlives⟩ := Context.solution_declares hsol
  have hstatic := (Context.outlasts_iff hframe).mp (hiff.mp hentailed).1
  rw [← houtlives] at hstatic
  rcases hstatic with heq | hstatic
  · exact absurd heq (by decide)
  · simp [Outlives.holds, hstatic] at hshort

/-- A function that stores a reference with a region that outlives the static one where a region without a
name is asked for. -/
def storesStatic : Context :=
  Context.ofText "fn f<'a: 'static>(p: &mut &Int, y: &'a Int) \x7b *p = y; \x7d" "f"

/-- Whether the region is declared to outlive the static one, and is reported not to outlive the other. -/
def Context.reportsStatic (cx : Context) (name marker : String) : Bool :=
  cx.function.outlives.contains (name, staticRegion) &&
    cx.reports name marker (·.frame.universals.contains marker)

/-- The pair is reported although it follows. -/
theorem reported_although_entailed_storesStatic : storesStatic.IsRead ∧
    ∃ sol, (storesStatic.analysis {}).solution = .ok sol ∧
      sol.outlivesFinding "'a" "'_p" ∈ sol.outlivesFindings ∧
      ReflTransGen (storesStatic.Entails sol.frame.universals) "'a" "'_p" := by
  obtain ⟨hread, hstatic⟩ : storesStatic.IsRead ∧ storesStatic.reportsStatic "'a" "'_p" = true :=
    Context.ofText_of_any (t := (·.reportsStatic "'a" "'_p")) (by decide +kernel)
  simp only [Context.reportsStatic, Bool.and_eq_true, List.contains_eq_mem, decide_eq_true_eq] at hstatic
  obtain ⟨hdeclared, hreports⟩ := hstatic
  obtain ⟨sol, hsol, hname, hmarker, hregion⟩ := Context.reports_eq_true hreports
  refine ⟨hread, sol, hsol, RegionSolution.outlivesFinding_mem hname hmarker, ?_⟩
  have hfirst : storesStatic.Entails sol.frame.universals "'a" staticRegion := .inl hdeclared
  exact (ReflTransGen.single hfirst).tail (.inr (.inr ⟨rfl, of_decide_eq_true hregion⟩))

end Ownership
