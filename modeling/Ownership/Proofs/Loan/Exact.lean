import Ownership.Proofs.Effect.Collected
import Ownership.Proofs.Graph.Order
import Ownership.Proofs.Loan.Termination
import Ownership.Proofs.Region.Exact

/-!
The loans in scope are exact. A loan is in scope before a point exactly when a path leads
there from where the loan is made and no point after that one leaves the loan's extent.
That no such loan is missed follows from the steps of paths; that no other loan is listed is
kept by the search.
-/
namespace Ownership

open Outcome Relation

/-- Some access of the point makes the loan. -/
def EffectMap.Makes (fx : EffectMap) (p : Point) (k : Loan) : Prop := ∃ a ∈ fx.accesses p, a.loan? = some k

/-- Control goes on to a point of the extent. -/
def Graph.Within (g : Graph) (extent : Extent) (p q : Point) : Prop := g.Follows p q ∧ q ∈ extent.points

/-- What tracking of loans relies on: reachable blocks are marked so, edges lead to blocks of the graph, and
loans are known by the points that make them. -/
structure Graph.Tracks (g : Graph) (fx : EffectMap) : Prop where
  pruned : g.Pruned
  inside : ∀ b, ∀ c ∈ g.successors b, c < g.blocks.length
  sites : ∀ p ∈ g.allPoints, ∀ k, fx.Makes p k → k.site.point = p

theorem Graph.tracks_of_effects {cx : Context} {g : Graph} {fx : EffectMap} (hg : cx.function.graph = .ok g)
    (hfx : cx.effects g = .ok fx) : g.Tracks fx := by
  obtain ⟨rank, hrank⟩ := Function.graph_ranked hg
  refine ⟨Graph.pruned_of_graph hg, hrank.inside, fun p hp k hk => ?_⟩
  obtain ⟨a, ha, hloan⟩ := hk
  obtain ⟨site, hsite, rfl⟩ := Option.map_eq_some_iff.mp hloan
  exact (Context.isUse_of_loan hfx hp ha hsite).site site hsite

namespace LoanProblem

variable {l : LoanProblem} {s t : LoanSearch} {p q : Point} {k : Loan}

/-- The loan is made at a reachable point and kept from there on. -/
def Kept (l : LoanProblem) (k : Loan) (p : Point) : Prop :=
  ∃ o ∈ l.graph.allPoints, l.effects.Makes o k ∧ TransGen (l.graph.Within (l.extentOf k.site)) o p

/-- A loan that is kept before a point, or made there, is kept before each successor in its extent. -/
theorem kept_next (hp : p ∈ l.graph.allPoints) {known : List Loan} (hknown : ∀ k ∈ known, l.Kept k p)
    (hk : k ∈ l.keep q (l.afterPoint p known)) (hq : l.graph.Follows p q) : l.Kept k q := by
  obtain ⟨hk, hextent⟩ := mem_keep.mp hk
  rcases mem_afterPoint.mp hk with hk | hmade
  · obtain ⟨o, ho, hmakes, hpath⟩ := hknown k hk
    exact ⟨o, ho, hmakes, hpath.tail ⟨hq, hextent⟩⟩
  · exact ⟨p, hp, hmade, .single ⟨hq, hextent⟩⟩

theorem kept_entering {b : Nat} (hb : b ∈ l.graph.reachable) {known : List Loan}
    (hknown : ∀ k ∈ known, l.Kept k ⟨b, 0⟩) {i : Nat} (hi : i ≤ l.graph.last b)
    (hk : k ∈ l.entering ((List.range i).map fun j => ⟨b, j⟩) ⟨b, i⟩ known) : l.Kept k ⟨b, i⟩ := by
  induction i generalizing k with
  | zero => exact hknown k hk
  | succ i ih =>
    rw [List.range_succ, List.map_append] at hk
    refine kept_next (Graph.mem_allPoints.mpr ⟨hb, Nat.le_of_succ_le hi⟩) (fun k hk => ih (Nat.le_of_succ_le hi) hk)
      ?_ (.along hi)
    exact (entering_concat _ _ _ _) ▸ hk

/-- The loans at the starts of blocks are kept until there. -/
def Backed (l : LoanProblem) (s : LoanSearch) : Prop :=
  ∀ b known, s.states.get? b = some known → ∀ k ∈ known, l.Kept k ⟨b, 0⟩

/-- The loans at the end of a block that stay in scope at a successor are kept until there. -/
theorem kept_transfer (h : l.Backed s) {b c : Nat} (hb : b ∈ l.graph.reachable) (hc : c ∈ l.graph.successors b)
    (hk : k ∈ l.keep ⟨c, 0⟩ (l.transfer (l.graph.points b) ((s.states.get? b).getD []))) : l.Kept k ⟨c, 0⟩ := by
  have hknown : ∀ k ∈ (s.states.get? b).getD [], l.Kept k ⟨b, 0⟩ := by
    intro k hk
    cases hget : s.states.get? b with
    | none => simp [hget] at hk
    | some known => exact h b known hget k (by simpa [hget] using hk)
  have hpoints : l.graph.points b =
      ((List.range (l.graph.last b)).map fun i => (⟨b, i⟩ : Point)) ++ [⟨b, l.graph.last b⟩] := by
    rw [Graph.points, List.range_succ, List.map_append]
    rfl
  rw [hpoints, transfer_concat] at hk
  exact kept_next (Graph.mem_allPoints.mpr ⟨hb, Nat.le_refl _⟩)
    (fun k hk => kept_entering hb hknown (Nat.le_refl _) hk) hk (.across rfl hc)

theorem propagate_backed (h : l.Backed s) {out : List Loan} {c : Nat}
    (hout : ∀ k ∈ l.keep ⟨c, 0⟩ out, l.Kept k ⟨c, 0⟩) : l.Backed (l.propagate out s c) := by
  unfold propagate
  simp only
  split
  · exact h
  · intro b known hb k hk
    by_cases hbc : b = c
    · subst hbc
      rw [OrderedMap.get?_insert_self, Option.some.injEq] at hb
      rcases mem_foldl_addLoan.mp (hb ▸ hk) with hold | hnew
      · cases hget : s.states.get? b with
        | none => simp [hget] at hold
        | some before => exact h b before hget k (by simpa [hget] using hold)
      · exact hout k hnew
    · rw [OrderedMap.get?_insert_other _ _ hbc] at hb
      exact h b known hb k hk

theorem foldl_propagate_backed (h : l.Backed s) {out : List Loan} {cs : List Nat}
    (hout : ∀ c ∈ cs, ∀ k ∈ l.keep ⟨c, 0⟩ out, l.Kept k ⟨c, 0⟩) : l.Backed (cs.foldl (l.propagate out) s) := by
  induction cs generalizing s with
  | nil => exact h
  | cons c cs ih =>
    exact ih (propagate_backed h (hout c List.mem_cons_self)) fun d hd => hout d (List.mem_cons_of_mem c hd)

theorem next_backed (hg : ∀ b, ∀ c ∈ l.graph.successors b, c < l.graph.blocks.length) (s t : LoanSearch)
    (h : l.Inside s ∧ l.Backed s) (hn : l.next s = some t) : l.Inside t ∧ l.Backed t := by
  refine ⟨(next_size hg s t h.1 hn).1, ?_⟩
  obtain ⟨b, hb, rfl⟩ := Option.map_eq_some_iff.mp hn
  have hmem : b ∈ l.graph.reachable := h.1.left b (List.mem_of_getLast? hb)
  have hrest : l.Backed { s with worklist := s.worklist.dropLast } := h.2
  exact foldl_propagate_backed hrest fun c hc k hk => kept_transfer h.2 hmem (List.mem_filter.mp hc).1 hk

theorem start_backed (l : LoanProblem) : l.Backed l.start := by
  intro b known hb k hk
  by_cases hbe : b = l.graph.entry
  · subst hbe
    simp only [start, OrderedMap.get?_insert_self, Option.some.injEq] at hb
    simp [← hb] at hk
  · simp [start, OrderedMap.get?_insert_other _ _ hbe] at hb

theorem solve_backed (hg : ∀ b, ∀ c ∈ l.graph.successors b, c < l.graph.blocks.length) {limit : Option Int}
    {starts : OrderedMap Nat (List Loan)} {budget : Budget} (h : l.solve limit = .ok (starts, budget)) :
    ∀ b known, starts.get? b = some known → ∀ k ∈ known, l.Kept k ⟨b, 0⟩ := by
  simp only [solve, bind_eq_ok, pure_eq, Except.ok.injEq, Prod.mk.injEq] at h
  obtain ⟨⟨s, spent⟩, hsettle, rfl, _⟩ := h
  exact (Budget.settle_invariant (next_backed hg) ⟨inside_start l, start_backed l⟩ hsettle).1.2

end LoanProblem

section

variable {g : Graph} {fx : EffectMap} {sol : RegionSolution} {limit : Option Int} {r : LoanResult}

/-- Nothing is in scope but loans that a path keeps. -/
theorem kept_of_mem_scopeAt (hg : ∀ b, ∀ c ∈ g.successors b, c < g.blocks.length)
    (h : trackLoans g fx sol limit = .ok r) {p : Point} (hp : p ∈ g.allPoints) {k : Loan} (hk : k ∈ r.scopeAt p) :
    (LoanProblem.ofSolution g fx sol).Kept k p := by
  have hlisted := mem_inScope h hp
  simp only [trackLoans, bind_eq_ok, pure_eq, Except.ok.injEq] at h
  obtain ⟨⟨starts, budget⟩, hsolve, rfl⟩ := h
  rw [LoanProblem.scopes_unique hlisted] at hk
  obtain ⟨hb, hi⟩ := Graph.mem_allPoints.mp hp
  refine LoanProblem.kept_entering (l := .ofSolution g fx sol) hb (fun k hk => ?_) hi hk
  cases hget : starts.get? p.block with
  | none => simp [hget] at hk
  | some known => exact LoanProblem.solve_backed hg hsolve p.block known hget k (by simpa [hget] using hk)

/-- What a path keeps is in scope. -/
theorem mem_scopeAt_of_path (hg : g.Pruned) (h : trackLoans g fx sol limit = .ok r) {o p : Point} {k : Loan}
    (ho : o ∈ g.allPoints) (hmakes : fx.Makes o k) (hpath : TransGen (g.Within (sol.loanExtent k.site)) o p) :
    p ∈ g.allPoints ∧ k ∈ r.scopeAt p := by
  induction hpath with
  | single hstep =>
    have hq := hstep.1.mem_pointSuccessors hg ho
    exact ⟨Graph.successor_mem_allPoints ho hq, scopeAt_closed hg h ho hq (.inr hmakes) hstep.2⟩
  | tail _ hstep ih =>
    have hq := hstep.1.mem_pointSuccessors hg ih.1
    exact ⟨Graph.successor_mem_allPoints ih.1 hq, scopeAt_closed hg h ih.1 hq (.inl ih.2) hstep.2⟩

theorem mem_loans_iff (h : trackLoans g fx sol limit = .ok r) {k : Loan} :
    k ∈ r.loans ↔ ∃ o ∈ g.allPoints, fx.Makes o k := by
  simp only [trackLoans, bind_eq_ok, pure_eq, Except.ok.injEq] at h
  obtain ⟨_, _, rfl⟩ := h
  simp [LoanProblem.loans, EffectMap.Makes]

end

/-- Loans in scope are exactly those that some path keeps. Tracking comes to an answer, and the answer lists
a loan before a reachable point exactly when the loan is one of the function's and a path of one step or more
leads to the point from where the loan is made, all of whose later points lie in the loan's extent. Every
function that has a graph and effects is tracked so. -/
theorem mem_scopeAt_iff :
    (∀ g fx, g.Tracks fx → ∀ sol, (∃ r, trackLoans g fx sol none = .ok r) ∧
      ∀ limit r, trackLoans g fx sol limit = .ok r → ∀ p ∈ g.allPoints, ∀ k,
        (k ∈ r.scopeAt p ↔ k ∈ r.loans ∧ TransGen (g.Within (sol.loanExtent k.site)) k.site.point p)) ∧
    ∀ (cx : Context) g fx, cx.function.graph = .ok g → cx.effects g = .ok fx → g.Tracks fx := by
  refine ⟨fun g fx hg sol => ⟨?_, fun limit r h p hp k => ⟨fun hk => ?_, fun hk => ?_⟩⟩, ?_⟩
  · exact exists_ok (trackLoans_failsOnly hg.inside (by simp))
  · obtain ⟨o, ho, hmakes, hpath⟩ := kept_of_mem_scopeAt hg.inside h hp hk
    rw [hg.sites o ho k hmakes]
    exact ⟨(mem_loans_iff h).mpr ⟨o, ho, hmakes⟩, hpath⟩
  · obtain ⟨hloan, hpath⟩ := hk
    obtain ⟨o, ho, hmakes⟩ := (mem_loans_iff h).mp hloan
    rw [hg.sites o ho k hmakes] at hpath
    exact (mem_scopeAt_of_path hg.pruned h ho hmakes hpath).2
  · exact fun cx g fx => Graph.tracks_of_effects

def renewSolution : RegionSolution :=
  (renew.analyze { name := "renew" } renew.function.graph none).solution.toOption.getD default

def renewLoans : LoanResult :=
  (trackLoans renewGraph renewEffects renewSolution none).toOption.getD ⟨[], [], [], 0⟩

/-- What the loop of `renew` borrows. -/
def renewLoan : Loan := ⟨⟨⟨3, 1⟩, 0⟩, { root := 1, name := "a" }, false, {}⟩

/-- The loan is still in scope where the loop reads again, but not where the reading is done. -/
theorem mem_scopeAt_iff_renew : renewLoan ∈ renewLoans.loans ∧
    TransGen (renewGraph.Within (renewSolution.loanExtent renewLoan.site)) renewLoan.site.point ⟨3, 0⟩ ∧
    ¬TransGen (renewGraph.Within (renewSolution.loanExtent renewLoan.site)) renewLoan.site.point ⟨3, 1⟩ := by
  have hfx : renew.effects renewGraph = .ok renewEffects := eq_ok_getD _ (by decide +kernel)
  have hr : trackLoans renewGraph renewEffects renewSolution none = .ok renewLoans := eq_ok_getD _ (by decide +kernel)
  have hloan : renewLoan ∈ renewLoans.loans := by decide +kernel
  have hin : renewLoan ∈ renewLoans.scopeAt ⟨3, 0⟩ := by decide +kernel
  have hout : renewLoan ∉ renewLoans.scopeAt ⟨3, 1⟩ := by decide +kernel
  have hread : (⟨3, 0⟩ : Point) ∈ renewGraph.allPoints := by decide +kernel
  have hdone : (⟨3, 1⟩ : Point) ∈ renewGraph.allPoints := by decide +kernel
  have htracks := mem_scopeAt_iff.2 renew renewGraph renewEffects renew_graph hfx
  have hscope := (mem_scopeAt_iff.1 renewGraph renewEffects htracks renewSolution).2 none renewLoans hr
  exact ⟨hloan, ((hscope _ hread renewLoan).mp hin).2, fun h => hout ((hscope _ hdone renewLoan).mpr ⟨hloan, h⟩)⟩

end Ownership
