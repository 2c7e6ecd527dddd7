import Ownership.Proofs.Effect.Operands
import Ownership.Proofs.Region.Extents
import Ownership.Proofs.Region.Frame
import Ownership.Proofs.Region.Generation
import Ownership.Proofs.Verdict.Stages

/-!
What the inferred extents say. The extent of a binding's variable covers the
points where the binding is live, regions of the signature cover every point,
and whatever generation relates is included in each other.
-/
namespace Ownership

open Outcome

/-- What generation looks things up in, once all bindings have been declared. -/
def Context.regionProblem (cx : Context) (fx : EffectMap) (frame : RegionFrame) (live : Liveness) :
    RegionProblem :=
  { types := cx.types, effects := fx, frame := cx.declareLocals live.tracked frame }

namespace Stages

variable {s : Stages} {u v w : RegionVar}

def regions (s : Stages) (cx : Context) : RegionProblem :=
  cx.regionProblem s.effects s.frame s.liveness

/-- The generated variables and constraints. -/
def generated (s : Stages) : ConstraintSet := ⟨s.problem.vars, s.problem.constraints⟩

/-- The point belongs to the extent of the variable. -/
def Covers (s : Stages) (v : RegionVar) (p : Point) : Prop := p ∈ (s.solution.extent v).points

/-- All of one extent, its points and its ends, belongs to another one. -/
def Inside (s : Stages) (u v : RegionVar) : Prop :=
  ∀ x, (s.solution.extent u).Has x → (s.solution.extent v).Has x

theorem Inside.refl (u : RegionVar) : s.Inside u u := fun _ h => h

theorem Inside.trans (h : s.Inside u v) (k : s.Inside v w) : s.Inside u w := fun x hu => k x (h x hu)

/-- The reachable points of one extent belong to another one. -/
def Within (s : Stages) (u v : RegionVar) : Prop :=
  ∀ p ∈ s.graph.allPoints, s.Covers u p → s.Covers v p

theorem Within.refl (u : RegionVar) : s.Within u u := fun _ _ h => h

theorem Within.trans (h : s.Within u v) (k : s.Within v w) : s.Within u w :=
  fun p hp hu => k p hp (h p hp hu)

/-- What the binding holds may still be used: it is live, or its region is one of the signature. -/
def Active (s : Stages) (b : BindingId) (p : Point) : Prop :=
  b ∉ s.liveness.tracked ∨ LiveAt s.graph s.effects b p

theorem active_of_use {p : Point} {a : Access} (ha : a ∈ s.effects.accesses p) (hd : a.defines = false) :
    s.Active a.place.root p :=
  .inr (.use ha rfl hd)

/-- A binding that is active after a point was so before it, unless the point defines it. -/
theorem Active.before {p q : Point} (hp : p ∈ s.graph.allPoints) (hq : q ∈ s.graph.pointSuccessors p)
    {b : BindingId} (hb : s.Active b q)
    (hd : ∀ a ∈ s.effects.accesses p, a.place.root = b → a.defines = false) : s.Active b p :=
  hb.imp_right fun hlive => .pass (Graph.follows_of_mem (Graph.mem_allPoints.mp hp).2 hq) hlive hd

end Stages

namespace RegionProblem

/-- A part with a source is kept in an aggregate, and is recorded with it. -/
theorem recorded_part {r : RegionProblem} {s : ConstraintSet} {u : Walk} {parts : List Value}
    (hrec : ∀ src ∈ (u.aggregate parts).1, r.Recorded s src) {part : Value} (hpart : part ∈ parts)
    {src : Source} (hsrc : src ∈ part) : r.Recorded s src ∧ ∃ whole ∈ (u.aggregate parts).1,
      r.HasVar whole (.aggregate u.site) ∧ ∀ v, r.HasVar src v → s.Relates (.aggregate u.site) v := by
  obtain ⟨carrying, heq, hin⟩ := u.aggregate_of_mem hpart hsrc
  have hwhole : .aggregate u.site carrying ∈ (u.aggregate parts).1 := by simp [heq]
  cases hrec _ hwhole with
  | aggregate hparts hvars => exact ⟨hparts part hin src hsrc, _, hwhole, rfl, hvars part hin src hsrc⟩

theorem universal_mem_initialVars {frame : RegionFrame} {name : String} (h : name ∈ frame.universals) :
    .universal name ∈ initialVars frame :=
  mem_foldl_addNew.mpr (.inl (List.mem_map.mpr ⟨name, h, rfl⟩))

theorem holder_mem_initialVars {frame : RegionFrame} {b : BindingId} {v : RegionVar}
    (h : frame.holders.get? b = some v) : v ∈ initialVars frame :=
  mem_foldl_addNew.mpr (.inr (List.mem_map.mpr ⟨(b, v), OrderedMap.mem_entries_of_get? h, rfl⟩))

end RegionProblem

namespace Context.Completes

variable {cx : Context} {limit : Option Int} {s : Stages} (h : cx.Completes limit s)

include h

theorem pruned : s.graph.Pruned := Graph.pruned_of_graph h.graph

theorem tracked : cx.trackedLocals = .ok s.liveness.tracked := liveness_tracked h.liveness

theorem problem_eq : s.problem.frame = (s.regions cx).frame ∧ s.problem.liveness = s.liveness ∧
    s.problem.points = s.graph.allPoints ∧
    (s.regions cx).generate s.graph.allPoints = .ok s.generated := by
  have hproblem := h.problem
  simp only [extentProblem, bind_eq_ok, pure_eq, Except.ok.injEq] at hproblem
  obtain ⟨set, hset, he⟩ := hproblem
  rw [← he]
  refine ⟨rfl, rfl, rfl, ?_⟩
  rw [Stages.generated, ← he]
  exact hset

/-- Generation relates all it should at every point. -/
theorem generated {p : Point} (hp : p ∈ s.graph.allPoints) :
    (s.regions cx).Generated s.generated (s.effects.get p) :=
  (RegionProblem.generate_spec h.problem_eq.2.2.2).2 p hp

/-- What a constraint relates is included. -/
theorem inside {u v : RegionVar} (hr : s.generated.Relates u v) : s.Inside u v := by
  rcases hr with rfl | ⟨c, hc, rfl, rfl⟩
  · exact .refl u
  · exact (ExtentProblem.solution_settled h.solution).2 c hc

theorem within {u v : RegionVar} (hr : s.generated.Relates u v) : s.Within u v :=
  fun p _ hp => h.inside hr (.inl p) hp

theorem seed_has {v : RegionVar} (hv : v ∈ RegionProblem.initialVars (s.regions cx).frame) {x : Point ⊕ String}
    (hx : (s.problem.seed v).Has x) : (s.solution.extent v).Has x := by
  refine (ExtentProblem.solution_settled h.solution).1 v ?_ x hx
  exact mem_foldl_addNew.mpr (.inl ((RegionProblem.generate_spec h.problem_eq.2.2.2).1 hv))

/-- A region of the signature covers every point and its own end. -/
theorem universal_has {name : String} (hname : name ∈ s.frame.universals) {x : Point ⊕ String}
    (hx : Extent.Has ⟨s.graph.allPoints, [name]⟩ x) : (s.solution.extent (.universal name)).Has x := by
  obtain ⟨hframe, _, hpoints, _⟩ := h.problem_eq
  have hmem : name ∈ (s.regions cx).frame.universals := by
    rw [Stages.regions, regionProblem, declareLocals_universals]
    exact hname
  refine h.seed_has (RegionProblem.universal_mem_initialVars hmem) ?_
  rw [ExtentProblem.seed, hframe]
  simpa [hmem, hpoints] using hx

theorem universal_covers {name : String} (hname : name ∈ s.frame.universals) {p : Point}
    (hp : p ∈ s.graph.allPoints) : s.Covers (.universal name) p :=
  h.universal_has (x := .inl p) hname hp

/-- The variable of a binding covers the points where the binding is active. -/
theorem active_covers {b : BindingId} {v : RegionVar} (hv : (s.regions cx).holder? b = some v) {p : Point}
    (hp : p ∈ s.graph.allPoints) (hb : s.Active b p) : s.Covers v p := by
  rcases holder_cases h.frame hv with ⟨name, rfl, htracked⟩ | ⟨name, hname, rfl⟩
  · refine h.seed_has (x := .inl p) (RegionProblem.holder_mem_initialVars hv) ?_
    rw [ExtentProblem.seed, h.problem_eq.2.1]
    exact (mem_pointsOf_iff h.pruned h.liveness htracked hp).mpr (hb.resolve_left fun hn => hn htracked)
  · exact h.universal_covers hname hp

end Context.Completes

end Ownership
