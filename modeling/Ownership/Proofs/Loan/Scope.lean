import Ownership.Loan
import Ownership.Proofs.Graph.Paths
import Ownership.Proofs.Outcome
import Ownership.Proofs.Worklist

/-!
The loans in scope. The lattice lists the loans before every reachable point,
and its lists are closed under the steps of paths: a loan that is in scope
before a point, or is made there, is in scope before each successor that lies
in its extent.
-/
namespace Ownership

open Outcome

theorem mem_addLoan {loans : List Loan} {l k : Loan} : k ∈ addLoan loans l ↔ k ∈ loans ∨ k = l := by
  unfold addLoan
  split
  · rename_i h
    have hl : l ∈ loans := by simpa using h
    exact ⟨.inl, fun h => h.elim id fun he => he ▸ hl⟩
  · simp

theorem mem_foldl_addLoan {more loans : List Loan} {k : Loan} :
    k ∈ more.foldl addLoan loans ↔ k ∈ loans ∨ k ∈ more := by
  induction more generalizing loans with
  | nil => simp
  | cons l more ih => rw [List.foldl_cons, ih, mem_addLoan, List.mem_cons, or_assoc]

namespace LoanProblem

variable {l : LoanProblem}

theorem mem_keep {p : Point} {loans : List Loan} {k : Loan} :
    k ∈ l.keep p loans ↔ k ∈ loans ∧ p ∈ (l.extentOf k.site).points := by
  simp [keep]

/-- A loan is in scope after a point if it was before or if an access of the point makes it. -/
theorem mem_afterPoint {p : Point} {loans : List Loan} {k : Loan} :
    k ∈ l.afterPoint p loans ↔ k ∈ loans ∨ ∃ a ∈ l.effects.accesses p, a.loan? = some k := by
  simp [afterPoint, mem_foldl_addLoan, List.mem_filterMap]

def worklist (l : LoanProblem) : Worklist (List Loan) where
  edges b := (l.graph.successors b).filter l.graph.isReachable
  transfer b := l.transfer (l.graph.points b)
  grown x y := x ⊆ y
  accepts c out x := l.keep ⟨c, 0⟩ out ⊆ x
  grown_refl _ _ h := h
  grown_trans h k _ hx := k (h hx)
  accepts_grown h k _ hx := k (h hx)

def frontier (s : LoanSearch) : Frontier (List Loan) := ⟨s.states.get?, s.worklist⟩

theorem propagate_advances (out : List Loan) (s : LoanSearch) (c : Nat) :
    l.worklist.Advances out [c] (frontier s) (frontier (l.propagate out s c)) := by
  unfold propagate
  simp only
  split
  · rename_i hany
    obtain ⟨loans, hloans, hall⟩ := (Option.any_eq_true _ _).mp hany
    refine .unchanged ⟨loans, hloans, fun k hk => ?_⟩
    simpa using List.all_eq_true.mp hall k hk
  · refine .insert ?_ ?_
    · intro loans hloans k hk
      exact mem_foldl_addLoan.mpr (.inl (by simpa [hloans] using hk))
    · intro k hk
      exact mem_foldl_addLoan.mpr (.inr hk)

theorem next_settling (horder : ∀ b ∈ l.order, ∀ c ∈ l.graph.successors b, c ∈ l.order)
    (s t : LoanSearch) (h : l.worklist.Settling l.order l.graph.entry [] (frontier s))
    (hn : l.next s = some t) : l.worklist.Settling l.order l.graph.entry [] (frontier t) := by
  obtain ⟨b, hb, rfl⟩ := Option.map_eq_some_iff.mp hn
  obtain ⟨rest, hrest⟩ := List.getLast?_eq_some_iff.mp hb
  have hmem : b ∈ l.order := h.pending b (List.mem_of_getLast? hb)
  have hadvance := (Worklist.Advances.foldl frontier (fun _ => True)
    (fun t c _ => ⟨propagate_advances (l := l)
      (l.transfer (l.graph.points b) ((s.states.get? b).getD [])) t c, trivial⟩)
    ((l.graph.successors b).filter l.graph.isReachable)
    { s with worklist := s.worklist.dropLast } trivial).1
  refine h.visit hmem ?_ ?_ ?_ ?_ hadvance
  · intro c hc
    exact horder b hmem c (List.mem_filter.mp hc).1
  · intro c hc
    have hc' : c ∈ rest ++ [b] := hrest ▸ hc
    rw [hrest, List.dropLast_concat]
    exact (List.mem_append.mp hc').symm.imp_left List.mem_singleton.mp
  · exact (List.dropLast_sublist _).subset
  · intro x hx
    rw [show s.states.get? b = some x from hx]
    rfl

theorem start_settling (h : l.graph.entry ∈ l.order) :
    l.worklist.Settling l.order l.graph.entry [] (frontier l.start) :=
  .initial (by simp [start]) (fun b hb => by simp [start, OrderedMap.get?_insert_other _ _ hb]) h

/-- The loans at the starts of blocks account for each other. -/
structure Settled (l : LoanProblem) (starts : OrderedMap Nat (List Loan)) : Prop where
  entry : ∃ loans, starts.get? l.graph.entry = some loans
  passed : ∀ b loans, starts.get? b = some loans →
    ∀ c ∈ (l.graph.successors b).filter l.graph.isReachable,
      ∃ more, starts.get? c = some more ∧ l.keep ⟨c, 0⟩ (l.transfer (l.graph.points b) loans) ⊆ more

theorem solve_settled (horder : l.order = l.graph.reachable) {limit : Option Int}
    {starts : OrderedMap Nat (List Loan)} {budget : Budget} (h : l.solve limit = .ok (starts, budget)) :
    l.Settled starts := by
  simp only [solve, bind_eq_ok, pure_eq, Except.ok.injEq, Prod.mk.injEq] at h
  obtain ⟨⟨s, spent⟩, hsettle, rfl, _⟩ := h
  obtain ⟨hset, hdone⟩ := Budget.settle_invariant (next_settling (l := l)
    (fun b hb c hc => by rw [horder] at hb ⊢; exact Graph.successors_reachable hb hc))
    (start_settling (by rw [horder]; exact l.graph.entry_mem_reachable)) hsettle
  have hnone : s.worklist = [] := List.getLast?_eq_none_iff.mp (Option.map_eq_none_iff.mp hdone)
  obtain ⟨loans, hloans, _⟩ := hset.start
  refine ⟨⟨loans, hloans⟩, fun b loans hb => hset.passed b loans hb ?_⟩
  simp [frontier, hnone]

/-- The loans in scope before a point, from those before the points ahead of it in its block. -/
def entering (l : LoanProblem) : List Point → Point → List Loan → List Loan
  | [], _, loans => loans
  | q :: rest, p, loans => l.entering rest p (l.keep (rest.head?.getD p) (l.afterPoint q loans))

theorem entering_concat (before : List Point) (q p : Point) (loans : List Loan) :
    l.entering (before ++ [q]) p loans = l.keep p (l.afterPoint q (l.entering before q loans)) := by
  induction before generalizing loans with
  | nil => rfl
  | cons x before ih =>
    have hhead : (before ++ [q]).head?.getD p = before.head?.getD q := by
      cases before <;> rfl
    simp only [List.cons_append, entering]
    rw [hhead, ih]

theorem mem_scopesAlong (before after : List Point) (p : Point) (loans : List Loan) :
    (p, l.entering before p loans) ∈ l.scopesAlong (before ++ p :: after) loans := by
  induction before generalizing loans with
  | nil => exact List.mem_cons_self
  | cons q before ih =>
    have hhead : (before ++ p :: after).head? = some (before.head?.getD p) := by
      cases before <;> rfl
    simp only [List.cons_append, scopesAlong, entering, hhead, Option.elim_some]
    exact List.mem_cons_of_mem _ (ih _)

theorem transfer_concat (before : List Point) (p : Point) (loans : List Loan) :
    l.transfer (before ++ [p]) loans = l.afterPoint p (l.entering before p loans) := by
  induction before generalizing loans with
  | nil => rfl
  | cons q before ih =>
    have hhead : (before ++ [p]).head? = some (before.head?.getD p) := by
      cases before <;> rfl
    simp only [List.cons_append, transfer, entering, hhead, Option.elim_some]
    exact ih _

/-- The loans in scope before a point, from those at the starts of blocks. -/
def scopeBefore (l : LoanProblem) (starts : OrderedMap Nat (List Loan)) (p : Point) : List Loan :=
  l.entering ((List.range p.index).map fun i => ⟨p.block, i⟩) p ((starts.get? p.block).getD [])

theorem mem_scopes (horder : l.order = l.graph.reachable) (starts : OrderedMap Nat (List Loan))
    {p : Point} (hp : p ∈ l.graph.allPoints) : (p, l.scopeBefore starts p) ∈ l.scopes starts := by
  obtain ⟨hb, hi⟩ := Graph.mem_allPoints.mp hp
  refine List.mem_flatMap.mpr ⟨p.block, horder ▸ hb, ?_⟩
  obtain ⟨after, hpoints⟩ := l.graph.points_split hi
  rw [hpoints]
  exact mem_scopesAlong _ after p _

/-- A loan that comes to the end of a point stays in scope at each successor in its extent. -/
theorem Settled.step {starts : OrderedMap Nat (List Loan)} (h : l.Settled starts) {p q : Point}
    (hp : (starts.get? p.block).isSome = true) (hq : q ∈ l.graph.pointSuccessors p) :
    (starts.get? q.block).isSome = true ∧
      ∀ k ∈ l.afterPoint p (l.scopeBefore starts p), q ∈ (l.extentOf k.site).points →
        k ∈ l.scopeBefore starts q := by
  rcases Graph.mem_pointSuccessors.mp hq with ⟨_, rfl⟩ | ⟨hlast, b, hb, rfl⟩
  · refine ⟨hp, fun k hk hext => ?_⟩
    unfold scopeBefore
    rw [List.range_succ, List.map_append]
    exact (entering_concat _ _ _ _).symm ▸ mem_keep.mpr ⟨hk, hext⟩
  · obtain ⟨loans, hloans⟩ := Option.isSome_iff_exists.mp hp
    obtain ⟨more, hmore, hsub⟩ := h.passed p.block loans hloans b hb
    refine ⟨by simp [hmore], fun k hk hext => ?_⟩
    have hpoints : l.graph.points p.block =
        ((List.range p.index).map fun i => (⟨p.block, i⟩ : Point)) ++ [p] := by
      unfold Graph.points
      rw [← hlast, List.range_succ, List.map_append]
      rfl
    have htransfer : l.transfer (l.graph.points p.block) loans = l.afterPoint p (l.scopeBefore starts p) := by
      rw [hpoints, transfer_concat, scopeBefore, hloans]
      rfl
    rw [htransfer] at hsub
    simpa [scopeBefore, hmore, entering] using hsub (mem_keep.mpr ⟨hk, hext⟩)

theorem of_mem_scopesAlong {points : List Point} {p : Point} {loans scope : List Loan}
    (h : (p, scope) ∈ l.scopesAlong points loans) :
    ∃ before after, points = before ++ p :: after ∧ scope = l.entering before p loans := by
  induction points generalizing loans with
  | nil => simp [scopesAlong] at h
  | cons q points ih =>
    rw [scopesAlong] at h
    rcases List.mem_cons.mp h with he | h
    · obtain ⟨rfl, rfl⟩ := Prod.mk.inj he
      exact ⟨[], points, rfl, rfl⟩
    · obtain ⟨before, after, rfl, rfl⟩ := ih h
      refine ⟨q :: before, after, rfl, ?_⟩
      have hhead : (before ++ p :: after).head? = some (before.head?.getD p) := by
        cases before <;> rfl
      rw [hhead]
      rfl

/-- A point is listed with one scope only. -/
theorem scopes_unique {starts : OrderedMap Nat (List Loan)} {p : Point} {scope : List Loan}
    (h : (p, scope) ∈ l.scopes starts) : scope = l.scopeBefore starts p := by
  obtain ⟨b, _, hscope⟩ := List.mem_flatMap.mp h
  obtain ⟨before, after, hpoints, rfl⟩ := of_mem_scopesAlong hscope
  have hmem : p ∈ l.graph.points b := by rw [hpoints]; simp
  obtain ⟨rfl, hi⟩ := Graph.mem_points.mp hmem
  obtain ⟨after', hpoints'⟩ := l.graph.points_split hi
  have hindex : ∀ (i : Nat) (q : Point), (l.graph.points p.block)[i]? = some q → q.index = i := by
    intro i q hq
    simp only [Graph.points, List.getElem?_map, Option.map_eq_some_iff] at hq
    obtain ⟨j, hj, rfl⟩ := hq
    simpa using (List.getElem?_eq_some_iff.mp hj).2.symm
  have hlength : before.length = p.index := by
    symm
    apply hindex
    rw [hpoints]
    simp
  rw [hpoints] at hpoints'
  obtain ⟨rfl, _⟩ := List.append_inj hpoints' (by simp [hlength])
  rfl

end LoanProblem

/-- The loans in scope before a point. -/
def LoanResult.scopeAt (r : LoanResult) (p : Point) : List Loan := (r.inScope.lookup p).getD []

section

variable {g : Graph} {fx : EffectMap} {sol : RegionSolution} {limit : Option Int} {r : LoanResult}

/-- Every reachable point is listed with the loans in scope before it. -/
theorem mem_inScope (h : trackLoans g fx sol limit = .ok r) {p : Point} (hp : p ∈ g.allPoints) :
    (p, r.scopeAt p) ∈ r.inScope := by
  simp only [trackLoans, bind_eq_ok, pure_eq, Except.ok.injEq] at h
  obtain ⟨⟨starts, budget⟩, _, rfl⟩ := h
  have hmem := LoanProblem.mem_scopes (l := .ofSolution g fx sol) rfl starts hp
  unfold LoanResult.scopeAt
  simp only
  cases hl : ((LoanProblem.ofSolution g fx sol).scopes starts).lookup p with
  | none =>
    have hne := List.lookup_eq_none_iff.mp hl _ hmem
    simp at hne
  | some scope =>
    obtain ⟨before, after, heq, _⟩ := List.lookup_eq_some_iff.mp hl
    simp [heq]

/-- A loan that is in scope before a point, or is made there, is in scope before each successor
that lies in its extent. -/
theorem scopeAt_closed (hg : g.Pruned) (h : trackLoans g fx sol limit = .ok r) {p q : Point}
    (hp : p ∈ g.allPoints) (hq : q ∈ g.pointSuccessors p) {k : Loan}
    (hk : k ∈ r.scopeAt p ∨ ∃ a ∈ fx.accesses p, a.loan? = some k)
    (he : q ∈ (sol.loanExtent k.site).points) : k ∈ r.scopeAt q := by
  have hlisted : ∀ {x}, x ∈ g.allPoints → (x, r.scopeAt x) ∈ r.inScope := mem_inScope h
  simp only [trackLoans, bind_eq_ok, pure_eq, Except.ok.injEq] at h
  obtain ⟨⟨starts, budget⟩, hsolve, rfl⟩ := h
  have hset := LoanProblem.solve_settled rfl hsolve
  have hknown : ∀ b ∈ g.reachable, b ∈ g.reachable ∧ (starts.get? b).isSome = true := by
    intro b hb
    refine Graph.reachable_induction (fun b => b ∈ g.reachable ∧ (starts.get? b).isSome = true) ?_ ?_ hb
    · obtain ⟨loans, hloans⟩ := hset.entry
      exact ⟨g.entry_mem_reachable, Option.isSome_iff_exists.mpr ⟨loans, hloans⟩⟩
    · rintro b c ⟨hb, hsome⟩ hc
      have hcr := Graph.successors_reachable hb hc
      obtain ⟨loans, hloans⟩ := Option.isSome_iff_exists.mp hsome
      obtain ⟨more, hmore, _⟩ := hset.passed b loans hloans c (List.mem_filter.mpr ⟨hc, hg c hcr⟩)
      exact ⟨hcr, Option.isSome_iff_exists.mpr ⟨more, hmore⟩⟩
  have hstep := (hset.step (hknown p.block (Graph.mem_allPoints.mp hp).1).2 hq).2 k
  rw [← LoanProblem.scopes_unique (hlisted hp)] at hstep
  rw [LoanProblem.scopes_unique (hlisted (Graph.successor_mem_allPoints hp hq))]
  exact hstep (LoanProblem.mem_afterPoint.mpr hk) he

end

end Ownership
