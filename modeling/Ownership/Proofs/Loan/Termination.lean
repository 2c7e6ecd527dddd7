import Mathlib.Algebra.Order.BigOperators.Group.List
import Ownership.Proofs.Faults
import Ownership.Proofs.Loan.Scope
import Ownership.Proofs.Progress

/-!
Tracking of loans comes to an end: the loans at the start of a block only become more,
and there are no others than those that the accesses of the function make.
-/
namespace Ownership

open Outcome

namespace LoanProblem

variable {l : LoanProblem} {s t : LoanSearch}

/-- What the search keeps: it stays among the reachable blocks and the loans of the function. -/
structure Inside (l : LoanProblem) (s : LoanSearch) : Prop where
  left : ∀ b ∈ s.worklist, b ∈ l.graph.reachable
  loans : ∀ b known, s.states.get? b = some known → known ⊆ l.loans

/-- How many loans may still come to a block. -/
def missing (l : LoanProblem) (s : LoanSearch) (b : Nat) : Nat :=
  (s.states.get? b).elim (l.loans.length + 1) fun known => l.loans.countP (!known.contains ·)

def size (l : LoanProblem) (s : LoanSearch) : Nat :=
  s.worklist.length + ((List.range l.graph.blocks.length).map (l.missing s)).sum

theorem mem_loans {p : Point} (hp : p ∈ l.graph.allPoints) {a : Access} (ha : a ∈ l.effects.accesses p) {k : Loan}
    (hk : a.loan? = some k) : k ∈ l.loans :=
  List.mem_flatMap.mpr ⟨p, hp, List.mem_filterMap.mpr ⟨a, ha, hk⟩⟩

theorem afterPoint_subset {p : Point} (hp : p ∈ l.graph.allPoints) {known : List Loan} (h : known ⊆ l.loans) :
    l.afterPoint p known ⊆ l.loans := by
  intro k hk
  rcases mem_afterPoint.mp hk with hk | ⟨a, ha, hk⟩
  · exact h hk
  · exact mem_loans hp ha hk

theorem transfer_subset {ps : List Point} (hps : ∀ p ∈ ps, p ∈ l.graph.allPoints) {known : List Loan}
    (h : known ⊆ l.loans) : l.transfer ps known ⊆ l.loans := by
  induction ps generalizing known with
  | nil => exact h
  | cons p ps ih =>
    have hafter := afterPoint_subset (hps p List.mem_cons_self) h
    refine ih (fun q hq => hps q (List.mem_cons_of_mem p hq)) ?_
    cases ps with
    | nil => exact hafter
    | cons q ps => exact fun k hk => hafter (mem_keep.mp hk).1

/-- A block that changes gets its first loans, or a loan that it did not have. -/
theorem propagate_size (h : l.Inside s) {out : List Loan} (hout : out ⊆ l.loans) {c : Nat}
    (hc : c ∈ l.graph.reachable) (hlt : c < l.graph.blocks.length) :
    l.Inside (l.propagate out s c) ∧ l.size (l.propagate out s c) ≤ l.size s := by
  unfold propagate
  simp only
  split
  · exact ⟨h, Nat.le_refl _⟩
  · rename_i hnew
    generalize hqueue : (if s.worklist.contains c = true then s.worklist else s.worklist ++ [c]) = queue
    have hmem : ∀ b ∈ queue, b ∈ s.worklist ∨ b = c := by
      intro b hb
      rw [← hqueue] at hb
      split at hb
      · exact .inl hb
      · simpa using hb
    have hlength : queue.length ≤ s.worklist.length + 1 := by
      rw [← hqueue]
      split <;> simp
    have hknown : (s.states.get? c).getD [] ⊆ l.loans := by
      cases hget : s.states.get? c with
      | none => simp
      | some known => exact h.loans c known hget
    have hmore : (l.keep ⟨c, 0⟩ out).foldl addLoan ((s.states.get? c).getD []) ⊆ l.loans := by
      intro k hk
      rcases mem_foldl_addLoan.mp hk with hk | hk
      · exact hknown hk
      · exact hout (mem_keep.mp hk).1
    refine ⟨⟨fun b hb => ?_, fun b known hb => ?_⟩, ?_⟩
    · rcases hmem b hb with hb | rfl
      · exact h.left b hb
      · exact hc
    · by_cases hbc : b = c
      · subst hbc
        rw [OrderedMap.get?_insert_self, Option.some.injEq] at hb
        exact hb ▸ hmore
      · rw [OrderedMap.get?_insert_other _ _ hbc] at hb
        exact h.loans b known hb
    · have hself : l.missing
          { states := s.states.insert c ((l.keep ⟨c, 0⟩ out).foldl addLoan ((s.states.get? c).getD [])),
            worklist := queue } c < l.missing s c := by
        rw [missing, missing, OrderedMap.get?_insert_self]
        cases hget : s.states.get? c with
        | none => exact Nat.lt_succ_of_le List.countP_le_length
        | some known =>
          rw [hget] at hnew
          obtain ⟨k, hk, hout'⟩ : ∃ k ∈ l.keep ⟨c, 0⟩ out, k ∉ known := by simpa using hnew
          refine countP_lt_of_imp (fun x _ hx => ?_) (hout (mem_keep.mp hk).1) ?_ ?_
          · simp only [Option.getD_some, Bool.not_eq_true', List.contains_eq_mem, decide_eq_false_iff_not] at hx ⊢
            exact fun hold => hx (mem_foldl_addLoan.mpr (.inl hold))
          · simpa using mem_foldl_addLoan.mpr (.inr hk)
          · simpa using hout'
      have hless := List.sum_lt_sum (l := List.range l.graph.blocks.length) _ _ (fun b _ => ?_)
        ⟨c, List.mem_range.mpr hlt, hself⟩
      · dsimp only [size]
        omega
      · by_cases hbc : b = c
        · exact hbc ▸ hself.le
        · rw [missing, missing, OrderedMap.get?_insert_other _ _ hbc]

theorem foldl_propagate_size (h : l.Inside s) {out : List Loan} (hout : out ⊆ l.loans) {cs : List Nat}
    (hcs : ∀ c ∈ cs, c ∈ l.graph.reachable ∧ c < l.graph.blocks.length) :
    l.Inside (cs.foldl (l.propagate out) s) ∧ l.size (cs.foldl (l.propagate out) s) ≤ l.size s := by
  induction cs generalizing s with
  | nil => exact ⟨h, Nat.le_refl _⟩
  | cons c cs ih =>
    obtain ⟨hc, hlt⟩ := hcs c List.mem_cons_self
    obtain ⟨hinside, hsize⟩ := propagate_size h hout hc hlt
    obtain ⟨hend, hle⟩ := ih hinside fun d hd => hcs d (List.mem_cons_of_mem c hd)
    exact ⟨hend, hle.trans hsize⟩

theorem next_size (hg : ∀ b, ∀ c ∈ l.graph.successors b, c < l.graph.blocks.length) (s t : LoanSearch)
    (h : l.Inside s) (hn : l.next s = some t) : l.Inside t ∧ l.size t < l.size s := by
  obtain ⟨b, hb, rfl⟩ := Option.map_eq_some_iff.mp hn
  have hmem : b ∈ l.graph.reachable := h.left b (List.mem_of_getLast? hb)
  have hout : l.transfer (l.graph.points b) ((s.states.get? b).getD []) ⊆ l.loans := by
    refine transfer_subset (fun p hp => List.mem_flatMap.mpr ⟨b, hmem, hp⟩) ?_
    cases hget : s.states.get? b with
    | none => simp
    | some known => exact h.loans b known hget
  have hrest : l.Inside { s with worklist := s.worklist.dropLast } :=
    ⟨fun c hc => h.left c ((List.dropLast_sublist _).subset hc), h.loans⟩
  have hedges : ∀ c ∈ (l.graph.successors b).filter l.graph.isReachable,
      c ∈ l.graph.reachable ∧ c < l.graph.blocks.length := by
    intro c hc
    have hedge := (List.mem_filter.mp hc).1
    exact ⟨Graph.successors_reachable hmem hedge, hg b c hedge⟩
  obtain ⟨hinside, hsize⟩ := foldl_propagate_size hrest hout hedges
  refine ⟨hinside, Nat.lt_of_le_of_lt hsize ?_⟩
  have hpos : 0 < s.worklist.length := List.length_pos_of_mem (List.mem_of_getLast? hb)
  have hmissing : l.missing { s with worklist := s.worklist.dropLast } = l.missing s := rfl
  simp only [size, hmissing, List.length_dropLast]
  omega

theorem inside_start (l : LoanProblem) : l.Inside l.start := by
  refine ⟨fun b hb => ?_, fun b known hb => ?_⟩
  · rw [List.mem_singleton.mp hb]
    exact l.graph.entry_mem_reachable
  · by_cases hbe : b = l.graph.entry
    · subst hbe
      simp only [start, OrderedMap.get?_insert_self, Option.some.injEq] at hb
      simp [← hb]
    · simp [start, OrderedMap.get?_insert_other _ _ hbe] at hb

theorem size_start (l : LoanProblem) : l.size l.start ≤ l.visitBound := by
  have hmissing : ((List.range l.graph.blocks.length).map (l.missing l.start)).sum ≤
      l.graph.blocks.length * (l.loans.length + 1) := by
    have hle := List.sum_le_card_nsmul ((List.range l.graph.blocks.length).map (l.missing l.start))
      (l.loans.length + 1) fun n hn => by
        obtain ⟨b, _, rfl⟩ := List.mem_map.mp hn
        unfold missing
        cases l.start.states.get? b with
        | none => exact Nat.le_refl _
        | some known => exact Nat.le_succ_of_le List.countP_le_length
    simpa using hle
  have hone : l.start.worklist.length = 1 := rfl
  rw [size, hone, visitBound]
  omega

end LoanProblem

/-- Tracking of loans comes to an end, unless a limit stops it. -/
theorem trackLoans_failsOnly {g : Graph} {fx : EffectMap} {sol : RegionSolution} {limit : Option Int}
    {kind : Fault → Prop} (hg : ∀ b, ∀ c ∈ g.successors b, c < g.blocks.length)
    (hlimit : ∀ n, limit = some n → kind (.limit "borrow lattice" n)) :
    FailsOnly kind (trackLoans g fx sol limit) := by
  refine FailsOnly.bind (FailsOnly.bind ?_ fun _ _ => .ok _) fun _ _ => .ok _
  intro fault hf
  obtain ⟨n, hn, rfl⟩ := Budget.settle_ends (LoanProblem.size _) (LoanProblem.next_size hg)
    (LoanProblem.inside_start _) (LoanProblem.size_start _) hf
  exact hlimit n hn

end Ownership
