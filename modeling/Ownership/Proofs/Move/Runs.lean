import Ownership.Proofs.Move.Soundness

/-!
Tracking with any join. What joins return depends on the order in which they go through the stored
places, so what is proved here holds whatever the join is. A property of states that holds at first
and that accesses, edges and joins keep holds of all states that tracking returns.
-/
namespace Ownership

open Outcome

namespace MoveProblem

variable {m : MoveProblem}

theorem statesAlong_append (before : List Point) (p : Point) (s : MoveState) :
    m.statesAlong (before ++ [p]) s =
      m.statesAlong before s ++ [(p, s.applyAll m.function (before.flatMap m.effects.accesses))] := by
  induction before generalizing s with
  | nil => rfl
  | cons q before ih =>
    simp only [List.cons_append, statesAlong, ih, List.flatMap_cons, MoveState.applyAll_append]

/-- The states that are reported are the states before the points. -/
theorem eq_stateBefore_of_mem {starts : OrderedMap Nat MoveState} {p : Point} {s : MoveState}
    (h : (p, s) ∈ m.statesBefore starts) :
    p.block ∈ m.order ∧ p ∈ m.graph.points p.block ∧ s = m.stateBefore starts p := by
  obtain ⟨b, hb, hmem⟩ := List.mem_flatMap.mp h
  have halong : ∀ n, (p, s) ∈ m.statesAlong ((List.range n).map fun i => (⟨b, i⟩ : Point))
      ((starts.get? b).getD {}) → p.block = b ∧ p.index < n ∧ s = m.stateBefore starts p := by
    intro n
    induction n with
    | zero => exact fun hnil => absurd hnil List.not_mem_nil
    | succ n ih =>
      intro hmem
      rw [List.range_succ, List.map_append, List.map_cons, List.map_nil, statesAlong_append,
        List.mem_append, List.mem_singleton] at hmem
      rcases hmem with hmem | hmem
      · obtain ⟨hblock, hlt, hstate⟩ := ih hmem
        exact ⟨hblock, Nat.lt_succ_of_lt hlt, hstate⟩
      · obtain ⟨rfl, rfl⟩ := Prod.mk.inj hmem
        exact ⟨rfl, Nat.lt_succ_self n, by simp [stateBefore, List.flatMap_map]⟩
  obtain ⟨rfl, hlt, hstate⟩ := halong _ hmem
  exact ⟨hb, Graph.mem_points.mpr ⟨rfl, Nat.le_of_lt_succ hlt⟩, hstate⟩

end MoveProblem

/-- A property of the states at a point, after the first accesses of it, that tracking keeps. -/
structure KeptBy (join : MoveState → MoveState → MoveState) (f : Function) (g : Graph) (fx : EffectMap)
    (holds : Point → List Access → MoveState → Prop) : Prop where
  start : holds ⟨g.entry, 0⟩ [] (initialMoves f)
  empty : ∀ p, holds p [] {}
  access : ∀ p ∈ g.allPoints, ∀ before a after s, fx.accesses p = before ++ a :: after → holds p before s →
    holds p (before ++ [a]) (s.apply f a)
  follow : ∀ p ∈ g.allPoints, ∀ q s, g.Follows p q → holds p (fx.accesses p) s → holds q [] s
  join : ∀ p ∈ g.allPoints, ∀ s t, holds p [] s → holds p [] t → holds p [] (join s t)

namespace KeptBy

variable {join : MoveState → MoveState → MoveState} {f : Function} {g : Graph} {fx : EffectMap}
  {holds : Point → List Access → MoveState → Prop} (h : KeptBy join f g fx holds)

include h

theorem applyAll {p : Point} (hp : p ∈ g.allPoints) {s : MoveState} {before after rest : List Access}
    (hsplit : fx.accesses p = before ++ after ++ rest) (hs : holds p before s) :
    holds p (before ++ after) (s.applyAll f after) := by
  induction after generalizing s before with
  | nil => rwa [List.append_nil]
  | cons a after ih =>
    rw [List.append_cons]
    exact ih (by rw [hsplit]; simp) (h.access p hp before a (after ++ rest) s (by rw [hsplit]; simp) hs)

theorem point {p : Point} (hp : p ∈ g.allPoints) {s : MoveState} (hs : holds p [] s) :
    holds p (fx.accesses p) (s.applyAll f (fx.accesses p)) :=
  h.applyAll hp (List.append_nil _).symm hs

variable {starts : OrderedMap Nat MoveState} (hstarts : ∀ b st, starts.get? b = some st → holds ⟨b, 0⟩ [] st)

include hstarts

theorem stateBefore {p : Point} (hp : p ∈ g.allPoints) :
    holds p [] ((MoveProblem.ofEffects f g fx).stateBefore starts p) := by
  obtain ⟨b, i⟩ := p
  obtain ⟨hb, hi⟩ := Graph.mem_allPoints.mp hp
  induction i with
  | zero =>
    cases hst : starts.get? b with
    | none => simpa [MoveProblem.stateBefore, hst, MoveState.applyAll] using h.empty ⟨b, 0⟩
    | some st =>
      rw [MoveProblem.stateBefore_first _ hst]
      exact hstarts b st hst
  | succ i ih =>
    have hlt : i < g.last b := hi
    have hprev : (⟨b, i⟩ : Point) ∈ g.allPoints := Graph.mem_allPoints.mpr ⟨hb, Nat.le_of_lt hlt⟩
    rw [MoveProblem.stateBefore_next _ starts ⟨b, i⟩]
    exact h.follow _ hprev _ _ (.along hlt) (h.point hprev (ih hprev hb (Nat.le_of_lt hlt)))

/-- It holds of what a block passes on, at its successors. -/
theorem transfer {b c : Nat} (hb : b ∈ g.reachable) (hc : c ∈ g.successors b) :
    holds ⟨c, 0⟩ [] ((MoveProblem.ofEffects f g fx).transfer b ((starts.get? b).getD {})) := by
  have hlast : (⟨b, g.last b⟩ : Point) ∈ g.allPoints := Graph.mem_allPoints.mpr ⟨hb, Nat.le_refl _⟩
  rw [← MoveProblem.applyAll_stateBefore_last]
  exact h.follow _ hlast _ _ (.across rfl hc) (h.point hlast (h.stateBefore hstarts hlast))

omit hstarts

theorem propagateBy {out : MoveState} {search : MoveSearch} {c : Nat} (hc : c ∈ g.reachable)
    (hstarts : ∀ b st, search.states.get? b = some st → holds ⟨b, 0⟩ [] st) (hout : holds ⟨c, 0⟩ [] out) :
    ∀ b st, (MoveProblem.propagateBy join out search c).states.get? b = some st → holds ⟨b, 0⟩ [] st := by
  unfold MoveProblem.propagateBy
  simp only
  split
  · exact hstarts
  · intro b st hst
    by_cases hbc : b = c
    · subst hbc
      rw [OrderedMap.get?_insert_self, Option.some.injEq] at hst
      subst hst
      cases hprev : search.states.get? b with
      | none => exact hout
      | some prev =>
        exact h.join _ (Graph.mem_allPoints.mpr ⟨hc, Nat.zero_le _⟩) _ _ (hstarts b prev hprev) hout
    · rw [OrderedMap.get?_insert_other _ _ hbc] at hst
      exact hstarts b st hst

theorem nextBy (search search' : MoveSearch)
    (hstarts : ∀ b st, search.states.get? b = some st → holds ⟨b, 0⟩ [] st)
    (hn : (MoveProblem.ofEffects f g fx).nextBy join search = some search') :
    ∀ b st, search'.states.get? b = some st → holds ⟨b, 0⟩ [] st := by
  obtain ⟨b, hb, rfl⟩ := Option.map_eq_some_iff.mp hn
  have hmem : b ∈ g.reachable := List.mem_of_find?_eq_some hb
  refine List.foldlRecOn (motive := fun s : MoveSearch => ∀ d st, s.states.get? d = some st → holds ⟨d, 0⟩ [] st)
    _ _ hstarts fun s hs c hc => ?_
  have hsucc := (List.mem_filter.mp hc).1
  exact h.propagateBy (Graph.successors_reachable hmem hsucc) hs (h.transfer hstarts hmem hsucc)

/-- It holds of the state before each point. -/
theorem states {limit : Option Int} {r : MoveResult} (hr : trackMovesBy join g f fx limit = .ok r)
    {p : Point} {s : MoveState} (hs : (p, s) ∈ r.states) : p ∈ g.allPoints ∧ holds p [] s := by
  simp only [trackMovesBy, MoveProblem.solveBy, bind_eq_ok, pure_eq, Except.ok.injEq] at hr
  obtain ⟨_, ⟨⟨search, budget⟩, hsettle, rfl⟩, rfl⟩ := hr
  have hstarts : ∀ b st, search.states.get? b = some st → holds ⟨b, 0⟩ [] st := by
    refine (Budget.settle_invariant h.nextBy (fun b st hst => ?_) hsettle).1
    by_cases hb : b = g.entry
    · subst hb
      simp only [MoveProblem.start, OrderedMap.get?_insert_self, Option.some.injEq] at hst
      subst hst
      exact h.start
    · simp [MoveProblem.start, OrderedMap.get?_insert_other _ _ hb] at hst
  obtain ⟨hb, hp, rfl⟩ := MoveProblem.eq_stateBefore_of_mem (m := .ofEffects f g fx) hs
  have hp : p ∈ g.allPoints := List.mem_flatMap.mpr ⟨_, hb, hp⟩
  exact ⟨hp, h.stateBefore hstarts hp⟩

end KeptBy

/-- What is found at a point is found at one of its accesses, in the state after those before it. -/
theorem MoveProblem.mem_objections {m : MoveProblem} {as : List Access} {s : MoveState} {d : Diagnostic}
    (h : d ∈ m.objections as s) : ∃ before a after, as = before ++ a :: after ∧
      (s.applyAll m.function before).objection m.function a = some d := by
  induction as generalizing s with
  | nil => cases h
  | cons a as ih =>
    rcases List.mem_append.mp h with ha | hrest
    · exact ⟨[], a, as, rfl, Option.mem_toList.mp ha⟩
    · obtain ⟨before, b, after, rfl, hb⟩ := ih hrest
      exact ⟨a :: before, b, after, rfl, hb⟩

/-- A finding is an objection to an access, in a state of which the property holds. -/
theorem KeptBy.findings {join : MoveState → MoveState → MoveState} {f : Function} {g : Graph} {fx : EffectMap}
    {holds : Point → List Access → MoveState → Prop} (h : KeptBy join f g fx holds)
    {limit : Option Int} {r : MoveResult} (hr : trackMovesBy join g f fx limit = .ok r) {d : Diagnostic}
    (hd : d ∈ r.findings) : ∃ p ∈ g.allPoints, ∃ before a after s, fx.accesses p = before ++ a :: after ∧
      holds p before s ∧ s.objection f a = some d := by
  have hstates := fun p s => h.states hr (p := p) (s := s)
  simp only [trackMovesBy, bind_eq_ok, pure_eq, Except.ok.injEq] at hr
  obtain ⟨_, _, rfl⟩ := hr
  obtain ⟨⟨p, s⟩, hs, hd⟩ := List.mem_flatMap.mp hd
  obtain ⟨hp, hholds⟩ := hstates p s hs
  obtain ⟨before, a, after, hsplit, ha⟩ := MoveProblem.mem_objections hd
  exact ⟨p, hp, before, a, after, _, hsplit, h.applyAll hp hsplit hholds, ha⟩

end Ownership
