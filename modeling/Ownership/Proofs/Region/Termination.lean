import Mathlib.Algebra.Order.BigOperators.Group.List
import Mathlib.Data.List.Perm.Subperm
import Ownership.Proofs.Faults
import Ownership.Proofs.Graph.Layout
import Ownership.Proofs.Progress
import Ownership.Proofs.Region.Extents
import Ownership.Proofs.Region.Liveness

/-!
Liveness and region inference come to an end. What is live before a point only
grows, and so do extents; a step that does not make them grow takes something off
the queue.
-/
namespace Ownership

open Outcome

namespace Graph

variable {g : Graph}

/-- Every block that is not marked unreachable can be reached. -/
theorem mem_reachable_of_isReachable {f : Function} (h : f.graph = .ok g) {b : Nat} (hb : b < g.blocks.length)
    (hr : g.isReachable b = true) : b ∈ g.reachable := by
  have hfree : b ∉ g.unreachable := by simpa [isReachable] using hr
  rw [Function.mem_unreachable_of_graph h] at hfree
  exact not_not.mp fun hout => hfree ⟨hb, hout⟩

theorem predecessor_mem_allPoints {f : Function} (h : f.graph = .ok g) {p q : Point} (hp : p ∈ g.allPoints)
    (hq : q ∈ g.pointPredecessors p) : q ∈ g.allPoints := by
  obtain ⟨hblock, hindex⟩ := mem_allPoints.mp hp
  have hle := pointPredecessors_index hindex hq
  refine mem_allPoints.mpr ⟨?_, hle⟩
  unfold pointPredecessors at hq
  split at hq
  · rw [List.mem_singleton.mp hq]
    exact hblock
  · obtain ⟨b, hb, rfl⟩ := List.mem_map.mp hq
    obtain ⟨hpred, hreach⟩ := List.mem_filter.mp hb
    obtain ⟨u, hu, hedge⟩ := List.mem_flatMap.mp hpred
    obtain ⟨v, _, hv⟩ := List.mem_filterMap.mp hedge
    split at hv
    · obtain rfl := Option.some.inj hv
      exact mem_reachable_of_isReachable h (List.mem_range.mp hu) hreach
    · cases hv

end Graph

namespace LiveProblem

variable {l : LiveProblem} {s t : LiveSearch}

/-- What the search keeps: it stays among the points, and what is known of a point is a part of
what its successors ask for now. -/
structure Growing (l : LiveProblem) (s : LiveSearch) : Prop where
  queue : ∀ p ∈ s.queue, p ∈ l.graph.allPoints
  points : ∀ p live, s.live.get? p = some live → p ∈ l.graph.allPoints
  tracked : ∀ p live, s.live.get? p = some live → ∃ test, live = l.tracked.filter test
  part : ∀ p live, s.live.get? p = some live → live ⊆ l.before s p

/-- How often what is known of a point may still change. -/
def missing (l : LiveProblem) (s : LiveSearch) (p : Point) : Nat :=
  (s.live.get? p).elim (l.tracked.length + 1) fun live => l.tracked.length - live.length

def size (l : LiveProblem) (s : LiveSearch) : Nat :=
  (l.graph.allPoints.map (l.missing s)).sum * l.graph.allPoints.length + s.queue.length

theorem before_mono {p : Point} (h : ∀ q, known s q ⊆ known t q) : l.before s p ⊆ l.before t p := by
  intro b hb
  obtain ⟨htracked, huse⟩ := mem_before.mp hb
  refine mem_before.mpr ⟨htracked, huse.imp_right ?_⟩
  rintro ⟨⟨q, hq, hknown⟩, hkill⟩
  exact ⟨⟨q, hq, h q hknown⟩, hkill⟩

theorem Growing.known_before (h : l.Growing s) (p : Point) : known s p ⊆ l.before s p := by
  intro b hb
  rw [known] at hb
  cases hl : s.live.get? p with
  | none =>
    rw [hl] at hb
    cases hb
  | some live =>
    rw [hl] at hb
    exact h.part p live hl hb

/-- Of two parts of a list of which one is in the other, the larger one is longer or they are equal. -/
theorem filter_length_lt {xs : List BindingId} {p q : BindingId → Bool} (h : xs.filter p ⊆ xs.filter q)
    (hne : xs.filter p ≠ xs.filter q) : (xs.filter p).length < (xs.filter q).length := by
  have himp : ∀ x ∈ xs, p x = true → q x = true := fun x hx hp =>
    (List.mem_filter.mp (h (List.mem_filter.mpr ⟨hx, hp⟩))).2
  have hle := List.countP_mono_left himp
  rw [← List.countP_eq_length_filter, ← List.countP_eq_length_filter]
  refine Nat.lt_of_le_of_ne hle fun heq => hne (List.filter_congr fun x hx => ?_)
  exact eq_of_countP_eq himp heq hx

/-- Sending points back adds each of them at most once. -/
theorem length_foldl_enqueue {points : List Point} {ps queue : List Point} (h : ∀ p ∈ ps, p ∈ points) :
    (ps.foldl enqueue queue).length ≤ queue.length + points.length := by
  have hadded : ∀ (ps queue : List Point), ∃ new, ps.foldl enqueue queue = queue ++ new ∧ new.Nodup ∧
      (∀ p ∈ new, p ∉ queue) ∧ ∀ p ∈ new, p ∈ ps := by
    intro ps
    induction ps with
    | nil => exact fun queue => ⟨[], by simp⟩
    | cons p ps ih =>
      intro queue
      rw [List.foldl_cons, enqueue]
      split
      · obtain ⟨new, heq, hnodup, hout, hin⟩ := ih queue
        exact ⟨new, heq, hnodup, hout, fun q hq => List.mem_cons_of_mem p (hin q hq)⟩
      · rename_i hp
        obtain ⟨new, heq, hnodup, hout, hin⟩ := ih (queue ++ [p])
        refine ⟨p :: new, by rw [heq, List.append_assoc]; rfl, List.nodup_cons.mpr ⟨?_, hnodup⟩, ?_, ?_⟩
        · exact fun hmem => hout p hmem (by simp)
        · intro q hq
          rcases List.mem_cons.mp hq with rfl | hq
          · simpa using hp
          · exact fun hmem => hout q hq (List.mem_append_left _ hmem)
        · intro q hq
          rcases List.mem_cons.mp hq with rfl | hq
          · exact List.mem_cons_self
          · exact List.mem_cons_of_mem p (hin q hq)
  obtain ⟨new, heq, hnodup, _, hin⟩ := hadded ps queue
  have hle := (hnodup.subperm fun p hp => h p (hin p hp)).length_le
  rw [heq, List.length_append]
  omega

/-- A change at a point keeps the search growing. -/
theorem Growing.renew {f : Function} (hg : f.graph = .ok l.graph) (h : l.Growing s) {p : Point}
    (hp : p ∈ l.graph.allPoints) {queue : List Point} (hrest : ∀ q ∈ queue, q ∈ l.graph.allPoints) :
    l.Growing { live := s.live.insert p (l.before s p)
                queue := (l.graph.pointPredecessors p).foldl enqueue queue } := by
  generalize hqueue : (l.graph.pointPredecessors p).foldl enqueue queue = queue'
  have hmono : ∀ q, known s q ⊆ known { live := s.live.insert p (l.before s p), queue := queue' } q := by
    intro q b hb
    by_cases hqp : q = p
    · subst hqp
      simpa [known] using h.known_before q hb
    · simpa [known, OrderedMap.get?_insert_other _ _ hqp] using hb
  refine ⟨fun q hq => ?_, fun q live hq => ?_, fun q live hq => ?_, fun q live hq => ?_⟩
  · rw [← hqueue] at hq
    rcases mem_foldl_addNew.mp hq with hq | hq
    · exact hrest q hq
    · exact Graph.predecessor_mem_allPoints hg hp hq
  · by_cases hqp : q = p
    · exact hqp ▸ hp
    · rw [OrderedMap.get?_insert_other _ _ hqp] at hq
      exact h.points q live hq
  · by_cases hqp : q = p
    · subst hqp
      rw [OrderedMap.get?_insert_self, Option.some.injEq] at hq
      exact ⟨_, hq.symm⟩
    · rw [OrderedMap.get?_insert_other _ _ hqp] at hq
      exact h.tracked q live hq
  · by_cases hqp : q = p
    · subst hqp
      rw [OrderedMap.get?_insert_self, Option.some.injEq] at hq
      exact hq ▸ before_mono hmono
    · rw [OrderedMap.get?_insert_other _ _ hqp] at hq
      exact fun b hb => before_mono hmono (h.part q live hq hb)

/-- A change at a point leaves less to change. -/
theorem Growing.missing_renew (h : l.Growing s) {p : Point} (hp : p ∈ l.graph.allPoints)
    (hchanged : s.live.get? p ≠ some (l.before s p)) (queue : List Point) :
    (l.graph.allPoints.map (l.missing { live := s.live.insert p (l.before s p), queue := queue })).sum <
      (l.graph.allPoints.map (l.missing s)).sum := by
  have hself : l.missing { live := s.live.insert p (l.before s p), queue := queue } p < l.missing s p := by
    have hlength : (l.before s p).length ≤ l.tracked.length := List.length_filter_le _ _
    rw [missing, missing, OrderedMap.get?_insert_self]
    cases hl : s.live.get? p with
    | none =>
      simp only [Option.elim_some, Option.elim_none]
      omega
    | some live =>
      obtain ⟨test, rfl⟩ := h.tracked p live hl
      have hgrown : (l.tracked.filter test).length < (l.before s p).length :=
        filter_length_lt (h.part p _ hl) fun he => hchanged (hl.trans (congrArg some he))
      simp only [Option.elim_some]
      omega
  refine List.sum_lt_sum _ _ (fun q _ => ?_) ⟨p, hp, hself⟩
  by_cases hqp : q = p
  · exact hqp ▸ hself.le
  · rw [missing, missing, OrderedMap.get?_insert_other _ _ hqp]

theorem next_size {f : Function} (hg : f.graph = .ok l.graph) (s t : LiveSearch) (h : l.Growing s)
    (hn : l.next s = some t) : l.Growing t ∧ l.size t < l.size s := by
  unfold next at hn
  split at hn
  · cases hn
  · rename_i p queue hqueue
    have hp : p ∈ l.graph.allPoints := h.queue p (by simp [hqueue])
    have hrest : ∀ q ∈ queue, q ∈ l.graph.allPoints := fun q hq => h.queue q (by simp [hqueue, hq])
    simp only at hn
    split at hn
    · obtain rfl := Option.some.inj hn
      refine ⟨⟨hrest, h.points, h.tracked, h.part⟩, ?_⟩
      simp only [size, hqueue, List.length_cons]
      exact Nat.lt_succ_self _
    · rename_i hchanged
      obtain rfl := Option.some.inj hn
      refine ⟨h.renew hg hp hrest, ?_⟩
      have hsum := h.missing_renew hp hchanged ((l.graph.pointPredecessors p).foldl enqueue queue)
      have hback : ((l.graph.pointPredecessors p).foldl enqueue queue).length ≤
          queue.length + l.graph.allPoints.length :=
        length_foldl_enqueue fun q hq => Graph.predecessor_mem_allPoints hg hp hq
      simp only [size, hqueue, List.length_cons]
      generalize l.graph.allPoints.length = n at hback
      calc _ ≤ ((l.graph.allPoints.map (l.missing s)).sum - 1) * n + (queue.length + n) :=
            Nat.add_le_add (Nat.mul_le_mul_right n (by omega)) hback
        _ = ((l.graph.allPoints.map (l.missing s)).sum - 1 + 1) * n + queue.length := by
            rw [Nat.succ_mul]
            omega
        _ < (l.graph.allPoints.map (l.missing s)).sum * n + (queue.length + 1) := by
            rw [Nat.sub_add_cancel (by omega)]
            omega

theorem start_growing (l : LiveProblem) : l.Growing l.start := by
  refine ⟨fun p hp => by simpa [start] using hp, ?_, ?_, ?_⟩
  · intro p live hp
    cases hp
  · intro p live hp
    cases hp
  · intro p live hp
    cases hp

theorem size_start (l : LiveProblem) : l.size l.start = l.stepBound := by
  have hmissing : l.missing l.start = fun _ => l.tracked.length + 1 := rfl
  have hqueue : l.start.queue.length = l.graph.allPoints.length := List.length_reverse
  rw [size, hmissing, hqueue, List.map_const', List.sum_replicate_nat, stepBound]
  generalize l.graph.allPoints.length * (l.tracked.length + 1) = k
  rw [Nat.mul_comm, Nat.mul_add_one]

end LiveProblem

section

variable {cx : Context} {g : Graph} {fx : EffectMap} {limit : Option Int} {kind : Fault → Prop}

/-- Liveness comes to an end, unless a limit stops it. -/
theorem liveness_failsOnly (hg : cx.function.graph = .ok g) (htracked : FailsOnly kind cx.trackedLocals)
    (hlimit : ∀ n, limit = some n → kind (.limit "liveness" n)) : FailsOnly kind (cx.liveness g fx limit) := by
  refine htracked.bind fun tracked _ => FailsOnly.bind ?_ fun _ _ => .ok _
  intro f hf
  obtain ⟨n, hn, rfl⟩ := Budget.settle_ends (LiveProblem.size ⟨g, fx, tracked⟩)
    (LiveProblem.next_size (l := ⟨g, fx, tracked⟩) hg) (LiveProblem.start_growing _)
    (LiveProblem.size_start _).le hf
  exact hlimit n hn

/-- A binding is found live before points of the graph only. -/
theorem pointsOf_subset (hg : cx.function.graph = .ok g) {live : Liveness} (h : cx.liveness g fx limit = .ok live)
    {b : BindingId} {p : Point} (hp : p ∈ live.pointsOf b) : p ∈ g.allPoints := by
  simp only [Context.liveness, bind_eq_ok, pure_eq, Except.ok.injEq] at h
  obtain ⟨tracked, _, ⟨search, budget⟩, hsettle, rfl⟩ := h
  obtain ⟨hgrowing, _⟩ := Budget.settle_invariant
    (fun s t hs hn => (LiveProblem.next_size (l := ⟨g, fx, tracked⟩) hg s t hs hn).1)
    (LiveProblem.start_growing _) hsettle
  obtain ⟨⟨q, found⟩, hmem, rfl⟩ := List.mem_map.mp hp
  exact hgrowing.points q found (OrderedMap.get?_eq_some_of_mem (List.mem_filter.mp hmem).1)

end

instance (e : Extent) : DecidablePred e.Has
  | .inl p => inferInstanceAs (Decidable (p ∈ e.points))
  | .inr marker => inferInstanceAs (Decidable (marker ∈ e.ends))

namespace ExtentProblem

variable {e : ExtentProblem} {s : ExtentSearch} {c : Constraint}

/-- All that an extent can have. -/
def everything (e : ExtentProblem) : List (Point ⊕ String) :=
  e.points.map .inl ++ e.frame.universals.map .inr

/-- No extent has more than the points and the regions of the signature. -/
def Inside (e : ExtentProblem) (s : ExtentSearch) : Prop := ∀ v x, s.Covers v x → x ∈ e.everything

/-- What a variable's extent does not have. -/
def missing (e : ExtentProblem) (s : ExtentSearch) (v : RegionVar) : Nat :=
  e.everything.countP fun x => !decide ((s.extent v).Has x)

def size (e : ExtentProblem) (s : ExtentSearch) : Nat := s.queue.length + (e.allVars.map (e.missing s)).sum

end ExtentProblem

namespace ExtentSearch

variable {s : ExtentSearch} {c : Constraint}

/-- A push changes nothing, or brings something new to the larger side. -/
theorem push_cases (s : ExtentSearch) (c : Constraint) : s.push c = s ∨
    (∃ x, s.Covers c.sub x ∧ ¬s.Covers c.sup x) ∧ (s.push c).queue.length ≤ s.queue.length + 1 := by
  unfold push
  simp only
  split
  · exact .inl rfl
  · rename_i hnew
    refine .inr ⟨?_, ?_⟩
    · rw [Bool.and_eq_true, not_and_or, List.isEmpty_iff, List.isEmpty_iff] at hnew
      rcases hnew with hpoints | hends
      · obtain ⟨p, hp⟩ := List.exists_mem_of_ne_nil _ hpoints
        obtain ⟨hsub, hsup⟩ := List.mem_filter.mp hp
        exact ⟨.inl p, hsub, by simpa [Covers, Extent.Has] using hsup⟩
      · obtain ⟨m, hm⟩ := List.exists_mem_of_ne_nil _ hends
        obtain ⟨hsub, hsup⟩ := List.mem_filter.mp (mem_sortBy.mp hm)
        exact ⟨.inr m, hsub, by simpa [Covers, Extent.Has] using hsup⟩
    · split
      · simp
      · simp

end ExtentSearch

namespace ExtentProblem

variable {e : ExtentProblem} {s : ExtentSearch} {c : Constraint}

open ExtentSearch

theorem inside_push (h : e.Inside s) (c : Constraint) : e.Inside (s.push c) := by
  intro v x hx
  by_cases hv : v = c.sup
  · subst hv
    exact ((s.push_covers c).mp hx).elim (h c.sup x) (h c.sub x)
  · rw [Covers, s.push_other c hv] at hx
    exact h v x hx

theorem size_push (h : e.Inside s) (hc : c.sup ∈ e.allVars) : e.size (s.push c) ≤ e.size s := by
  rcases s.push_cases c with hsame | ⟨⟨x, hsub, hsup⟩, hqueue⟩
  · rw [hsame]
  · have hless : (e.allVars.map (e.missing (s.push c))).sum < (e.allVars.map (e.missing s)).sum := by
      have hself : e.missing (s.push c) c.sup < e.missing s c.sup := by
        refine countP_lt_of_imp (fun y _ hy => ?_) (h c.sub x hsub) ?_ ?_
        · simp only [Bool.not_eq_true', decide_eq_false_iff_not] at hy ⊢
          exact fun hold => hy (s.push_grows c hold)
        · simpa [Covers] using (s.push_covers c).mpr (.inr hsub)
        · simpa [Covers] using hsup
      refine List.sum_lt_sum _ _ (fun v _ => ?_) ⟨c.sup, hc, hself⟩
      by_cases hv : v = c.sup
      · exact hv ▸ hself.le
      · rw [missing, missing, s.push_other c hv]
    unfold size
    omega

theorem foldl_push_size (h : e.Inside s) {cs : List Constraint} (hcs : ∀ c ∈ cs, c.sup ∈ e.allVars) :
    e.Inside (cs.foldl push s) ∧ e.size (cs.foldl push s) ≤ e.size s := by
  induction cs generalizing s with
  | nil => exact ⟨h, Nat.le_refl _⟩
  | cons c cs ih =>
    obtain ⟨hinside, hsize⟩ := ih (inside_push h c) fun d hd => hcs d (List.mem_cons_of_mem c hd)
    exact ⟨hinside, hsize.trans (size_push h (hcs c List.mem_cons_self))⟩

theorem sup_mem_allVars (hc : c ∈ e.constraints) : c.sup ∈ e.allVars :=
  mem_foldl_addNew.mpr (.inr (List.mem_map_of_mem hc))

theorem next_size (s t : ExtentSearch) (h : e.Inside s) (hn : ExtentSearch.next e.constraints s = some t) :
    e.Inside t ∧ e.size t < e.size s := by
  unfold ExtentSearch.next at hn
  split at hn
  · cases hn
  · rename_i v queue hqueue
    obtain rfl := Option.some.inj hn
    have hrest : e.Inside { s with queue := queue } := h
    have hsups : ∀ c ∈ e.constraints.filter (·.sub = v), c.sup ∈ e.allVars :=
      fun c hc => sup_mem_allVars (List.mem_filter.mp hc).1
    obtain ⟨hinside, hsize⟩ := foldl_push_size hrest hsups
    refine ⟨hinside, Nat.lt_of_le_of_lt hsize ?_⟩
    have hmissing : e.missing { s with queue := queue } = e.missing s := rfl
    simp only [size, hmissing, hqueue, List.length_cons]
    omega

/-- The seeds lie among the points and the regions of the signature. -/
theorem inside_start (hlive : ∀ b, ∀ p ∈ e.liveness.pointsOf b, p ∈ e.points) : e.Inside e.start := by
  intro v x hx
  rw [Covers, extent_start] at hx
  split at hx
  · unfold seed at hx
    split at hx
    · cases x with
      | inl p => exact List.mem_append_left _ (List.mem_map_of_mem (hlive _ p hx))
      | inr m => cases hx
    · split at hx
      · rename_i name hname
        cases x with
        | inl p => exact List.mem_append_left _ (List.mem_map_of_mem hx)
        | inr m =>
          rw [List.mem_singleton.mp hx]
          exact List.mem_append_right _ (List.mem_map_of_mem (List.contains_iff_mem.mp hname))
      · cases x <;> cases hx
    · cases x <;> cases hx
  · cases x <;> cases hx

theorem size_start (e : ExtentProblem) : e.size e.start ≤ e.stepBound := by
  have hqueue : e.start.queue.length = e.allVars.length := (sortBy_perm _ _).length_eq
  have hmissing : (e.allVars.map (e.missing e.start)).sum ≤
      e.allVars.length * (e.points.length + e.frame.universals.length) := by
    have hle := List.sum_le_card_nsmul (e.allVars.map (e.missing e.start))
      (e.points.length + e.frame.universals.length) fun n hn => by
        obtain ⟨v, _, rfl⟩ := List.mem_map.mp hn
        exact List.countP_le_length.trans (by simp [everything])
    simpa using hle
  rw [size, hqueue, stepBound, Nat.mul_add _ _ 1, Nat.mul_one]
  omega

/-- Region inference comes to an end, unless a limit stops it. -/
theorem solution_failsOnly {f : Function} {limit : Option Int} {kind : Fault → Prop}
    (hlive : ∀ b, ∀ p ∈ e.liveness.pointsOf b, p ∈ e.points)
    (hlimit : ∀ n, limit = some n → kind (.limit "region inference" n)) : FailsOnly kind (e.solution f limit) := by
  refine FailsOnly.bind ?_ fun _ _ => .ok _
  intro fault hf
  obtain ⟨n, hn, rfl⟩ := Budget.settle_ends e.size next_size (inside_start hlive) e.size_start hf
  exact hlimit n hn

end ExtentProblem

end Ownership
