import Ownership.Proofs.Outcome
import Ownership.Region.Solution

/-!
Solved extents. The extents that the search ends with contain their seeds, and
whatever belongs to a constraint's smaller side, be it a point or an end marker,
belongs to its larger side.
-/
namespace Ownership

open Outcome

/-- A point or an end marker belongs to an extent. -/
def Extent.Has (e : Extent) : Point ⊕ String → Prop
  | .inl p => p ∈ e.points
  | .inr marker => marker ∈ e.ends

namespace ExtentSearch

variable {s t : ExtentSearch} {c : Constraint} {x : Point ⊕ String}

/-- What belongs to a variable's extent, as far as it is known. -/
def Covers (s : ExtentSearch) (v : RegionVar) (x : Point ⊕ String) : Prop := (s.extent v).Has x

/-- All of the smaller side belongs to the larger one. -/
def Respects (s : ExtentSearch) (c : Constraint) : Prop := ∀ x, s.Covers c.sub x → s.Covers c.sup x

@[simp] theorem foldl_addCause_extents (c : Constraint) (ends : List String) (s : ExtentSearch) :
    (ends.foldl (addCause c) s).extents = s.extents :=
  List.foldlRecOn (motive := fun t : ExtentSearch => t.extents = s.extents) ends _ rfl fun _ ht _ _ => ht

@[simp] theorem foldl_addCause_queue (c : Constraint) (ends : List String) (s : ExtentSearch) :
    (ends.foldl (addCause c) s).queue = s.queue :=
  List.foldlRecOn (motive := fun t : ExtentSearch => t.queue = s.queue) ends _ rfl fun _ ht _ _ => ht

theorem push_other (s : ExtentSearch) (c : Constraint) {v : RegionVar} (h : v ≠ c.sup) :
    (s.push c).extent v = s.extent v := by
  unfold push
  simp only
  split
  · rfl
  · simp [extent, OrderedMap.get?_insert_other _ _ h]

theorem push_covers (s : ExtentSearch) (c : Constraint) :
    (s.push c).Covers c.sup x ↔ s.Covers c.sup x ∨ s.Covers c.sub x := by
  unfold push
  simp only
  split
  · rename_i h
    rw [Bool.and_eq_true, List.isEmpty_iff, List.filter_eq_nil_iff, List.isEmpty_iff] at h
    constructor
    · exact .inl
    · rintro (hsup | hsub)
      · exact hsup
      · cases x with
        | inl p => simpa [Covers, Extent.Has] using h.1 p hsub
        | inr marker =>
          refine Classical.byContradiction fun hnot => ?_
          have hmem : marker ∈ sortTexts ((s.extent c.sub).ends.filter (!(s.extent c.sup).ends.contains ·)) := by
            refine mem_sortBy.mpr (List.mem_filter.mpr ⟨hsub, ?_⟩)
            simpa [Covers, Extent.Has] using hnot
          rw [h.2] at hmem
          cases hmem
  · have hget : ∀ m : OrderedMap RegionVar Extent, ∀ e : Extent,
        ((m.insert c.sup e).get? c.sup).getD {} = e := by simp
    unfold Covers extent
    simp only [foldl_addCause_extents, hget]
    cases x with
    | inl p =>
      simp only [Extent.Has, List.mem_append, List.mem_filter]
      by_cases hmem : p ∈ ((s.extents.get? c.sup).getD {}).points <;> simp [hmem]
    | inr marker =>
      simp only [Extent.Has, List.mem_append, sortTexts, mem_sortBy, List.mem_filter]
      by_cases hmem : marker ∈ ((s.extents.get? c.sup).getD {}).ends <;> simp [hmem]

theorem push_grows (s : ExtentSearch) (c : Constraint) {v : RegionVar} (h : s.Covers v x) :
    (s.push c).Covers v x := by
  by_cases hv : v = c.sup
  · subst hv
    exact (s.push_covers c).mpr (.inl h)
  · unfold Covers
    rw [s.push_other c hv]
    exact h

theorem push_queue (s : ExtentSearch) (c : Constraint) {v : RegionVar} (h : v ∈ s.queue) :
    v ∈ (s.push c).queue := by
  unfold push
  simp only
  split
  · exact h
  · split
    · simpa using h
    · simpa using .inl h

/-- A variable whose extent a push changes is left to look at. -/
theorem push_changed (s : ExtentSearch) (c : Constraint) :
    c.sup ∈ (s.push c).queue ∨ s.push c = s := by
  unfold push
  simp only
  split
  · exact .inr rfl
  · left
    split
    · rename_i h
      simpa using h
    · simp

/-- A push settles its own constraint, and unsettles another one only by leaving its smaller
side to look at. -/
theorem push_respects (s : ExtentSearch) (c d : Constraint) (h : d = c ∨ d.sub ∈ s.queue ∨ s.Respects d) :
    d.sub ∈ (s.push c).queue ∨ (s.push c).Respects d := by
  rcases s.push_changed c with hqueue | hsame
  · by_cases hd : d.sub = c.sup
    · exact .inl (hd ▸ hqueue)
    · rcases h with rfl | hmem | hresp
      · refine .inr fun x hx => (s.push_covers d).mpr (.inr ?_)
        unfold Covers at hx
        rwa [s.push_other d hd] at hx
      · exact .inl (s.push_queue c hmem)
      · refine .inr fun x hx => s.push_grows c (hresp x ?_)
        unfold Covers at hx
        rwa [s.push_other c hd] at hx
  · rcases h with rfl | hmem | hresp
    · refine .inr fun x hx => (s.push_covers d).mpr (.inr ?_)
      rwa [hsame] at hx
    · exact .inl (by rwa [hsame])
    · exact .inr (by rwa [hsame])

theorem foldl_push_respects (cs : List Constraint) (s : ExtentSearch) (d : Constraint)
    (h : d ∈ cs ∨ d.sub ∈ s.queue ∨ s.Respects d) :
    d.sub ∈ (cs.foldl push s).queue ∨ (cs.foldl push s).Respects d := by
  induction cs generalizing s with
  | nil => simpa using h
  | cons c cs ih =>
    apply ih
    by_cases hdc : d = c ∨ d.sub ∈ s.queue ∨ s.Respects d
    · exact .inr (s.push_respects c d hdc)
    · simp only [not_or] at hdc
      rcases h with hmem | h
      · exact .inl ((List.mem_cons.mp hmem).resolve_left hdc.1)
      · exact absurd h (not_or.mpr hdc.2)

theorem foldl_push_grows (cs : List Constraint) (s : ExtentSearch) {v : RegionVar} (h : s.Covers v x) :
    (cs.foldl push s).Covers v x := by
  induction cs generalizing s with
  | nil => exact h
  | cons c cs ih => exact ih (s.push c) (s.push_grows c h)

end ExtentSearch

namespace ExtentProblem

variable {e : ExtentProblem}

/-- What the search keeps. -/
structure Settling (e : ExtentProblem) (s : ExtentSearch) : Prop where
  seeds : ∀ v ∈ e.allVars, ∀ x, (e.seed v).Has x → s.Covers v x
  respects : ∀ c ∈ e.constraints, c.sub ∈ s.queue ∨ s.Respects c

theorem extent_start (v : RegionVar) :
    e.start.extent v = if v ∈ e.allVars then e.seed v else {} := by
  rw [ExtentSearch.extent, start, OrderedMap.get?_tabulate]
  split <;> rfl

theorem start_settling (e : ExtentProblem) : e.Settling e.start := by
  refine ⟨?_, ?_⟩
  · intro v hv x hx
    unfold ExtentSearch.Covers
    rwa [extent_start, if_pos hv]
  · intro c _
    by_cases hmem : c.sub ∈ e.allVars
    · exact .inl (by simpa [start, RegionVar.sort] using hmem)
    · refine .inr fun x hx => ?_
      unfold ExtentSearch.Covers at hx
      rw [extent_start, if_neg hmem] at hx
      cases x <;> cases hx

theorem next_settling (s t : ExtentSearch) (h : e.Settling s)
    (hn : ExtentSearch.next e.constraints s = some t) : e.Settling t := by
  unfold ExtentSearch.next at hn
  split at hn
  · cases hn
  · rename_i v queue hqueue
    obtain rfl := Option.some.inj hn
    refine ⟨fun w hw x hx => ExtentSearch.foldl_push_grows _ _ (h.seeds w hw x hx), ?_⟩
    intro c hc
    apply ExtentSearch.foldl_push_respects
    rcases h.respects c hc with hmem | hresp
    · rw [hqueue] at hmem
      rcases List.mem_cons.mp hmem with hv | hrest
      · exact .inl (List.mem_filter.mpr ⟨hc, by simpa using hv⟩)
      · exact .inr (.inl hrest)
    · exact .inr (.inr hresp)

variable {f : Function} {limit : Option Int} {sol : RegionSolution}

/-- Sorting the variables changes no extent. -/
theorem extent_sorted (s : ExtentSearch) (v : RegionVar) :
    ((OrderedMap.tabulate s.extent (RegionVar.sort s.extents.keys)).get? v).getD {} = s.extent v := by
  rw [OrderedMap.get?_tabulate]
  split
  · rfl
  · rename_i hv
    have hnone : s.extents.get? v = none := by
      cases hget : s.extents.get? v with
      | none => rfl
      | some x => exact absurd (mem_sortBy.mpr (OrderedMap.mem_keys.mpr ⟨x, hget⟩)) hv
    simp [ExtentSearch.extent, hnone]

/-- The solution keeps every seed and satisfies every constraint. -/
theorem solution_settled (h : e.solution f limit = .ok sol) :
    (∀ v ∈ e.allVars, ∀ x, (e.seed v).Has x → (sol.extent v).Has x) ∧
      ∀ c ∈ e.constraints, ∀ x, (sol.extent c.sub).Has x → (sol.extent c.sup).Has x := by
  simp only [solution, bind_eq_ok, pure_eq, Except.ok.injEq] at h
  obtain ⟨⟨s, budget⟩, hsolve, hsol⟩ := h
  obtain ⟨hset, hdone⟩ := Budget.settle_invariant next_settling (start_settling e) hsolve
  have hqueue : s.queue = [] := by
    unfold ExtentSearch.next at hdone
    split at hdone
    · assumption
    · cases hdone
  have hextent : ∀ v, sol.extent v = s.extent v := by
    intro v
    rw [← hsol]
    exact extent_sorted s v
  refine ⟨fun v hv x hx => ?_, fun c hc x hx => ?_⟩
  · rw [hextent]
    exact hset.seeds v hv x hx
  · rw [hextent] at hx ⊢
    exact (hset.respects c hc).resolve_left (by simp [hqueue]) x hx

theorem solution_frame (h : e.solution f limit = .ok sol) : sol.frame = e.frame ∧
    sol.outlives = Outlives.closure f.regionParams (f.outlives ++ e.frame.implied) := by
  simp only [solution, bind_eq_ok, pure_eq, Except.ok.injEq] at h
  obtain ⟨_, _, rfl⟩ := h
  exact ⟨rfl, rfl⟩

end ExtentProblem

end Ownership
