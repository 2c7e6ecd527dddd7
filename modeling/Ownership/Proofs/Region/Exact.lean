import Mathlib.Logic.Relation
import Ownership.Proofs.Region.Inference
import Ownership.Proofs.Region.Termination

/-!
Exact liveness and least extents. A binding is live before a point exactly when a path
leads from there to a use of it, past no point that only defines it. A point or an end
marker belongs to the extent of a variable exactly when a chain of constraints leads there
from a variable that starts with it, so the extents are the least that keep the seeds and
satisfy the constraints.
-/
namespace Ownership

open Outcome Relation

/-- The access gives the whole binding a value, or it begins or ends its storage. -/
def Access.Sets (a : Access) : Prop :=
  a.kind = .init ∨ a.kind = .declare ∨ a.kind = .storageDead ∨ a.kind = .write ∧ a.place.path = []

theorem Access.defines_iff {a : Access} : a.defines = true ↔ a.Sets := by
  unfold defines Sets
  cases a.kind <;> simp [Place.isRoot]

namespace EffectMap

/-- Some access of the point defines the binding. -/
def Defines (fx : EffectMap) (p : Point) (b : BindingId) : Prop :=
  ∃ a ∈ fx.accesses p, a.place.root = b ∧ a.Sets

/-- Some access of the point goes to the binding, or to a part of it, and does not define it. -/
def Uses (fx : EffectMap) (p : Point) (b : BindingId) : Prop :=
  ∃ a ∈ fx.accesses p, a.place.root = b ∧ ¬a.Sets

end EffectMap

/-- Control goes on to a point, and leaves no point that only defines the binding. -/
def Graph.Spares (g : Graph) (fx : EffectMap) (b : BindingId) (p q : Point) : Prop :=
  g.Follows p q ∧ ¬(fx.Defines p b ∧ ¬fx.Uses p b)

theorem liveAt_of_uses {g : Graph} {fx : EffectMap} {b : BindingId} {p : Point} (h : fx.Uses p b) :
    LiveAt g fx b p := by
  obtain ⟨a, ha, hroot, hsets⟩ := h
  exact .use ha hroot (Bool.eq_false_iff.mpr fun hd => hsets (Access.defines_iff.mp hd))

/-- The path may end at a point that uses the binding and defines it, too. -/
theorem liveAt_iff {g : Graph} {fx : EffectMap} {b : BindingId} {p : Point} :
    LiveAt g fx b p ↔ ∃ q, ReflTransGen (g.Spares fx b) p q ∧ fx.Uses q b := by
  constructor
  · intro h
    induction h with
    | @use q a ha hroot hd =>
      exact ⟨q, .refl, a, ha, hroot, fun hsets => by simp [Access.defines_iff.mpr hsets] at hd⟩
    | @pass q r edge _ hd ih =>
      obtain ⟨last, hpath, huse⟩ := ih
      refine ⟨last, .head ⟨edge, ?_⟩ hpath, huse⟩
      rintro ⟨⟨a, ha, hroot, hsets⟩, _⟩
      have hdefines := Access.defines_iff.mpr hsets
      rw [hd a ha hroot] at hdefines
      cases hdefines
  · rintro ⟨last, hpath, huse⟩
    induction hpath using ReflTransGen.head_induction_on with
    | refl => exact liveAt_of_uses huse
    | @head q r hstep _ ih =>
      by_cases hused : fx.Uses q b
      · exact liveAt_of_uses hused
      · refine .pass hstep.1 ih fun a ha hroot => Bool.eq_false_iff.mpr fun hd => hstep.2 ⟨?_, hused⟩
        exact ⟨a, ha, hroot, Access.defines_iff.mp hd⟩

/-- Liveness is exact. It always comes to an answer, and for a local binding that carries references
the answer lists a reachable point exactly when a path leads from there to a use of the binding and no
point before that one defines the binding without using it. -/
theorem live_before_iff {cx : Context} {g : Graph} (hg : cx.function.graph = .ok g) (fx : EffectMap) :
    (∀ tracked, cx.trackedLocals = .ok tracked → ∃ live, cx.liveness g fx none = .ok live) ∧
      ∀ limit live, cx.liveness g fx limit = .ok live →
        ∀ b bd, cx.function.bindings.get? b = some bd → bd.kind = .localVar →
          cx.types.carriesRefs (some bd.ty) = .ok true → ∀ p ∈ g.allPoints,
            (p ∈ live.pointsOf b ↔ ∃ q, ReflTransGen (g.Spares fx b) p q ∧ fx.Uses q b) := by
  constructor
  · intro tracked htracked
    exact exists_ok (liveness_failsOnly hg (.of_eq_ok htracked) (by simp))
  · intro limit live hlive b bd hbd hkind hcarries p hp
    obtain ⟨c, hc, hin⟩ := (Context.trackedLocals_spec (liveness_tracked hlive)).2 b bd hbd hkind
    obtain rfl := Except.ok.inj (hc.symm.trans hcarries)
    rw [mem_pointsOf_iff (Graph.pruned_of_graph hg) hlive (hin rfl) hp, liveAt_iff]

/-- A loop that reads through a reference and then lets it point anew. -/
def renew : Context where
  function :=
    { name := "renew"
      params := []
      ret := none
      body := .mk
        [.declare "a" 1 (some (.int 1 {})) {},
          .declare "x" 2 (some (.borrow (.var "a" 1 {}) false {})) {},
          .loop (.mk
            [.eval (.deref (.var "x" 2 {}) {}) {},
              .assign (.var "x" 2 {}) (.borrow (.var "a" 1 {}) false {}) {}] {}) {}] {}
      bindings := .ofList [(1, ⟨1, "a", 1, .localVar, {}⟩), (2, ⟨2, "x", 2, .localVar, {}⟩)] }
  types := { defs := [.scalar "Int" true, .ref 1 false none] }
  signatures := {}

def renewGraph : Graph := renew.function.graph.toOption.getD default

def renewEffects : EffectMap := (renew.effects renewGraph).toOption.getD default

theorem renew_graph : renew.function.graph = .ok renewGraph := eq_ok_getD _ (by decide +kernel)

/-- The reference is live before the loop, which reads through it, and not after that reading. -/
theorem live_before_iff_renew :
    (∃ q, ReflTransGen (renewGraph.Spares renewEffects 2) ⟨0, 2⟩ q ∧ renewEffects.Uses q 2) ∧
      ¬∃ q, ReflTransGen (renewGraph.Spares renewEffects 2) ⟨3, 1⟩ q ∧ renewEffects.Uses q 2 := by
  obtain ⟨_, hexact⟩ := live_before_iff renew_graph renewEffects
  have hlive := eq_ok_getD (x := renew.liveness renewGraph renewEffects none) default (by decide +kernel)
  have hiff := hexact none _ hlive 2 ⟨2, "x", 2, .localVar, {}⟩ (by decide) rfl (by rfl)
  exact ⟨(hiff ⟨0, 2⟩ (by decide +kernel)).mp (by decide +kernel),
    fun h => absurd ((hiff ⟨3, 1⟩ (by decide +kernel)).mpr h) (by decide +kernel)⟩

/-- What a variable starts with: that of a binding has the points before which the binding is live, and
that of a region of the signature has all points and the region's own end. -/
inductive Seeded (g : Graph) (live : Liveness) (frame : RegionFrame) : RegionVar → Point ⊕ String → Prop where
  | live {b : BindingId} {name : String} {p : Point} (h : p ∈ live.pointsOf b) :
      Seeded g live frame (.binding b name) (.inl p)
  | point {name : String} {p : Point} (hname : name ∈ frame.universals) (h : p ∈ g.allPoints) :
      Seeded g live frame (.universal name) (.inl p)
  | ending {name : String} (hname : name ∈ frame.universals) : Seeded g live frame (.universal name) (.inr name)

/-- Some constraint has the variables as its smaller and its larger side. -/
def RegionSolution.Leads (r : RegionSolution) (u v : RegionVar) : Prop :=
  ∃ c ∈ r.constraints, c.sub = u ∧ c.sup = v

namespace ExtentSearch

variable {s : ExtentSearch}

theorem keys_push (c : Constraint) (hc : c.sup ∈ s.extents.keys) : (s.push c).extents.keys = s.extents.keys := by
  unfold push
  simp only
  split
  · rfl
  · simp only [foldl_addCause_extents]
    exact OrderedMap.keys_insert_of_mem _ _ hc

end ExtentSearch

namespace ExtentProblem

variable {e : ExtentProblem} {s t : ExtentSearch}

/-- Some constraint of the problem has the variables as its smaller and its larger side. -/
def Leads (e : ExtentProblem) (u v : RegionVar) : Prop := ∃ c ∈ e.constraints, c.sub = u ∧ c.sup = v

/-- What the search keeps: it knows the variables of the problem, and what it has found for one of them
came there along constraints from a seed. -/
structure Grounded (e : ExtentProblem) (s : ExtentSearch) : Prop where
  vars : ∀ v, v ∈ s.extents.keys ↔ v ∈ e.allVars
  backed : ∀ v x, s.Covers v x → ∃ w ∈ e.allVars, (e.seed w).Has x ∧ ReflTransGen e.Leads w v

theorem start_grounded (e : ExtentProblem) : e.Grounded e.start := by
  refine ⟨fun v => OrderedMap.mem_keys_tabulate, fun v x hx => ?_⟩
  rw [ExtentSearch.Covers, extent_start] at hx
  split at hx
  · rename_i hv
    exact ⟨v, hv, hx, .refl⟩
  · cases x <;> cases hx

theorem Grounded.push (h : e.Grounded s) {c : Constraint} (hc : c ∈ e.constraints) : e.Grounded (s.push c) := by
  have hkey : c.sup ∈ s.extents.keys := (h.vars _).mpr (sup_mem_allVars hc)
  refine ⟨fun v => by rw [ExtentSearch.keys_push c hkey, h.vars], fun v x hx => ?_⟩
  by_cases hv : v = c.sup
  · subst hv
    rcases (s.push_covers c).mp hx with hx | hx
    · exact h.backed _ x hx
    · obtain ⟨w, hw, hseed, hchain⟩ := h.backed _ x hx
      exact ⟨w, hw, hseed, hchain.tail ⟨c, hc, rfl, rfl⟩⟩
  · rw [ExtentSearch.Covers, s.push_other c hv] at hx
    exact h.backed v x hx

theorem Grounded.pushAll (h : e.Grounded s) {cs : List Constraint} (hcs : ∀ c ∈ cs, c ∈ e.constraints) :
    e.Grounded (cs.foldl ExtentSearch.push s) := by
  induction cs generalizing s with
  | nil => exact h
  | cons c cs ih => exact ih (h.push (hcs c List.mem_cons_self)) fun d hd => hcs d (List.mem_cons_of_mem c hd)

theorem next_grounded (s t : ExtentSearch) (h : e.Grounded s) (hn : ExtentSearch.next e.constraints s = some t) :
    e.Grounded t := by
  unfold ExtentSearch.next at hn
  split at hn
  · cases hn
  · rename_i v queue hqueue
    obtain rfl := Option.some.inj hn
    have hrest : e.Grounded { s with queue := queue } := ⟨h.vars, h.backed⟩
    exact hrest.pushAll fun c hc => (List.mem_filter.mp hc).1

variable {f : Function} {limit : Option Int} {sol : RegionSolution}

theorem solution_constraints (h : e.solution f limit = .ok sol) : sol.constraints = e.constraints := by
  simp only [solution, bind_eq_ok, pure_eq, Except.ok.injEq] at h
  obtain ⟨_, _, rfl⟩ := h
  rfl

/-- The variables of the solution are those of the problem, and nothing is in their extents but what
comes from a seed. -/
theorem solution_grounded (h : e.solution f limit = .ok sol) : (∀ v, v ∈ sol.extents.keys ↔ v ∈ e.allVars) ∧
    ∀ v x, (sol.extent v).Has x → ∃ w ∈ e.allVars, (e.seed w).Has x ∧ ReflTransGen e.Leads w v := by
  simp only [solution, bind_eq_ok, pure_eq, Except.ok.injEq] at h
  obtain ⟨⟨s, budget⟩, hsolve, hsol⟩ := h
  obtain ⟨hground, _⟩ := Budget.settle_invariant next_grounded (start_grounded e) hsolve
  constructor
  · intro v
    rw [← hsol, ← hground.vars]
    simp [RegionVar.sort]
  · intro v x hx
    have hextent : sol.extent v = s.extent v := by
      rw [← hsol]
      exact extent_sorted s v
    rw [hextent] at hx
    exact hground.backed v x hx

/-- What a chain of constraints passes on arrives at its end. -/
theorem solution_passes (h : e.solution f limit = .ok sol) {u v : RegionVar} (hchain : ReflTransGen e.Leads u v)
    {x : Point ⊕ String} (hx : (sol.extent u).Has x) : (sol.extent v).Has x := by
  induction hchain with
  | refl => exact hx
  | tail _ hlead ih =>
    obtain ⟨c, hc, rfl, rfl⟩ := hlead
    exact (solution_settled h).2 c hc x ih

theorem solution_has_iff (h : e.solution f limit = .ok sol) {v : RegionVar} {x : Point ⊕ String} :
    (sol.extent v).Has x ↔ ∃ w ∈ e.allVars, (e.seed w).Has x ∧ ReflTransGen e.Leads w v := by
  constructor
  · exact (solution_grounded h).2 v x
  · rintro ⟨w, hw, hseed, hchain⟩
    exact solution_passes h hchain ((solution_settled h).1 w hw x hseed)

end ExtentProblem

/-- The problem's seeds are those of its frame and of the live points. -/
theorem seed_has_iff {e : ExtentProblem} {g : Graph} (hpoints : e.points = g.allPoints) {v : RegionVar}
    {x : Point ⊕ String} : (e.seed v).Has x ↔ Seeded g e.liveness e.frame v x := by
  constructor
  · intro h
    unfold ExtentProblem.seed at h
    split at h
    · cases x with
      | inl p => exact .live h
      | inr marker => cases h
    · split at h
      · rename_i name hname
        have hname := List.contains_iff_mem.mp hname
        cases x with
        | inl p => exact .point hname (hpoints ▸ h)
        | inr marker =>
          rw [List.mem_singleton.mp h]
          exact .ending hname
      · cases x <;> cases h
    · cases x <;> cases h
  · intro h
    cases h with
    | live h => exact h
    | point hname h => simpa [ExtentProblem.seed, hname, Extent.Has, hpoints] using h
    | ending hname => simp [ExtentProblem.seed, hname, Extent.Has]

/-- A problem speaks of all points and of the liveness it is made from, and every region of the signature is
one of its variables. -/
theorem extentProblem_eq {cx : Context} {g : Graph} {fx : EffectMap} {frame : RegionFrame} {live : Liveness}
    {e : ExtentProblem} (h : cx.extentProblem g fx frame live = .ok e) : e.points = g.allPoints ∧
      e.liveness = live ∧ ∀ name ∈ e.frame.universals, .universal name ∈ e.allVars := by
  simp only [Context.extentProblem, bind_eq_ok, pure_eq, Except.ok.injEq] at h
  obtain ⟨set, hset, rfl⟩ := h
  refine ⟨rfl, rfl, fun name hname => mem_foldl_addNew.mpr (.inl ?_)⟩
  exact (RegionProblem.generate_spec hset).1 (RegionProblem.universal_mem_initialVars hname)

theorem analyze_solution {cx : Context} {signature : Signature} {graph : Except Fault Graph} {limit : Option Int} :
    (cx.analyze signature graph limit).solution = (do
      let problem ← cx.extentProblem (← graph) (← (cx.analyze signature graph limit).effects)
        (← (cx.analyze signature graph limit).frame) (← (cx.analyze signature graph limit).liveness)
      problem.solution cx.function limit) := rfl

/-- Region inference yields the least solution. A point is in the extent of a variable exactly when a chain of
constraints leads there from a variable that starts with the point, and an end marker exactly when one leads
there from the region of that name. So every constraint holds, and whatever else keeps what the variables
start with and satisfies the constraints has all that the extents have. -/
theorem extents_least {cx : Context} {signature : Signature} {graph : Except Fault Graph} {limit : Option Int}
    {sol : RegionSolution} (h : (cx.analyze signature graph limit).solution = .ok sol) :
    ∃ g live, graph = .ok g ∧ (cx.analyze signature graph limit).liveness = .ok live ∧
      (∀ v p, p ∈ (sol.extent v).points ↔
        ∃ w ∈ sol.extents.keys, Seeded g live sol.frame w (.inl p) ∧ ReflTransGen sol.Leads w v) ∧
      (∀ v name, name ∈ (sol.extent v).ends ↔
        name ∈ sol.frame.universals ∧ ReflTransGen sol.Leads (.universal name) v) ∧
      (∀ c ∈ sol.constraints, ∀ x, (sol.extent c.sub).Has x → (sol.extent c.sup).Has x) ∧
      ∀ held : RegionVar → Point ⊕ String → Prop,
        (∀ w ∈ sol.extents.keys, ∀ x, Seeded g live sol.frame w x → held w x) →
        (∀ c ∈ sol.constraints, ∀ x, held c.sub x → held c.sup x) →
        ∀ v x, (sol.extent v).Has x → held v x := by
  have hstages : ∃ g fx frame live e, graph = .ok g ∧ (cx.analyze signature graph limit).liveness = .ok live ∧
      cx.extentProblem g fx frame live = .ok e ∧ e.solution cx.function limit = .ok sol := by
    simp only [analyze_solution, bind_eq_ok] at h
    obtain ⟨g, hg, fx, _, frame, _, live, hlive, e, he, hsol⟩ := h
    exact ⟨g, fx, frame, live, e, hg, hlive, he, hsol⟩
  obtain ⟨g, fx, frame, live, e, hg, hlive, he, hsol⟩ := hstages
  obtain ⟨hpoints, hliveness, huniversals⟩ := extentProblem_eq he
  have hframe := (ExtentProblem.solution_frame hsol).1
  have hleads : e.Leads = sol.Leads := by
    unfold ExtentProblem.Leads RegionSolution.Leads
    rw [ExtentProblem.solution_constraints hsol]
  have hkeys := (ExtentProblem.solution_grounded hsol).1
  have hhas : ∀ v x, (sol.extent v).Has x ↔
      ∃ w ∈ sol.extents.keys, Seeded g live sol.frame w x ∧ ReflTransGen sol.Leads w v := by
    intro v x
    rw [ExtentProblem.solution_has_iff hsol, hleads, hframe, ← hliveness]
    simp only [hkeys, seed_has_iff hpoints]
  refine ⟨g, live, hg, hlive, fun v p => hhas v (.inl p), fun v name => ?_, ?_, ?_⟩
  · refine (hhas v (.inr name)).trans ⟨?_, ?_⟩
    · rintro ⟨w, _, hseed, hchain⟩
      cases hseed with
      | ending hname => exact ⟨hname, hchain⟩
    · rintro ⟨hname, hchain⟩
      exact ⟨_, (hkeys _).mpr (huniversals name (hframe ▸ hname)), .ending hname, hchain⟩
  · rw [ExtentProblem.solution_constraints hsol]
    exact (ExtentProblem.solution_settled hsol).2
  · intro held hseeds hconstraints v x hx
    obtain ⟨w, hw, hseed, hchain⟩ := (hhas v x).mp hx
    induction hchain with
    | refl => exact hseeds w hw x hseed
    | tail hchain hlead ih =>
      obtain ⟨c, hc, rfl, rfl⟩ := hlead
      exact hconstraints c hc x (ih ((hhas _ x).mpr ⟨w, hw, hseed, hchain⟩))

/-- The second loan lasts before the loop, where it is not made yet, since the reference is live there. -/
theorem extents_least_renew :
    ∃ live sol, (renew.analyze { name := "renew" } renew.function.graph none).liveness = .ok live ∧
      (renew.analyze { name := "renew" } renew.function.graph none).solution = .ok sol ∧
      ∃ w ∈ sol.extents.keys, Seeded renewGraph live sol.frame w (.inl ⟨0, 2⟩) ∧
        ReflTransGen sol.Leads w (.loan ⟨⟨3, 1⟩, 0⟩) := by
  have hsol := eq_ok_getD (x := (renew.analyze { name := "renew" } renew.function.graph none).solution) default
    (by decide +kernel)
  obtain ⟨g, live, hg, hlive, hpoints, _⟩ := extents_least hsol
  obtain rfl := Except.ok.inj (hg.symm.trans renew_graph)
  exact ⟨live, _, hlive, hsol, (hpoints (.loan ⟨⟨3, 1⟩, 0⟩) ⟨0, 2⟩).mp (by decide +kernel)⟩

end Ownership
