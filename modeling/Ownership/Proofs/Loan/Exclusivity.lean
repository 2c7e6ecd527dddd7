import Mathlib.Data.Set.Defs
import Ownership.Proofs.Effect.Collected
import Ownership.Proofs.Loan.Scope
import Ownership.Proofs.Place.Storage
import Ownership.Proofs.Verdict.Stages

/-!
Exclusivity. The loans of a single path start empty, grow with each borrow and
lose at each step those whose extent the path leaves. They are always among the
loans that the lattice has in scope, so in an accepted function each access is
compatible with the loans that its path holds, and no path ever holds two
different loans of overlapping places one of which is exclusive.
-/
namespace Ownership

open Outcome

/-- The loans held after an access: a borrow adds its own. -/
def Access.Lends (a : Access) (held held' : Set Loan) : Prop :=
  held' = {l | l ∈ held ∨ a.loan? = some l}

/-- What an access asks of the loans held just before it. -/
def Access.Compatible (a : Access) (held : Set Loan) : Prop :=
  ∀ l ∈ held, match a.kind with
    | .borrowMut | .move => a.place.conflicts l.place = false
    | .borrowShared | .read | .inspect => a.place.conflicts l.place = true → l.exclusive = false
    | .write => a.place.conflicts l.place = true →
      a.place.compare l.place = .contains ∧ .deref ∈ l.place.path.drop a.place.path.length
    | .storageDead => l.place.root = a.place.root → .deref ∈ l.place.path
    | .init | .declare => True

/-- Different loans of overlapping places are both shared. -/
def Exclusive (held : Set Loan) : Prop :=
  ∀ l ∈ held, ∀ k ∈ held, l ≠ k → l.place.conflicts k.place = true →
    l.exclusive = false ∧ k.exclusive = false

/-- Some path reaches a point while it holds these loans. -/
def HeldAt (g : Graph) (fx : EffectMap) (sol : RegionSolution) : Point → Set Loan → Prop :=
  g.Reaches (· = (∅ : Set Loan)) fun p q held held' =>
    ∃ after, Acts Access.Lends (fx.accesses p) held after ∧
      held' = {l | l ∈ after ∧ q ∈ (sol.loanExtent l.site).points}

theorem Place.conflicts_comm (p q : Place) : p.conflicts q = q.conflicts p := by
  unfold conflicts
  rw [compare_swap p q]
  cases p.compare q <;> rfl

theorem clash_of_firstClash {a : Access} {loans : List Loan} (h : a.firstClash loans = none) {l : Loan}
    (hl : l ∈ loans) : a.clash l = none :=
  List.findSome?_eq_none_iff.mp h l (mem_sortBy.mpr hl)

/-- An access that clashes with no loan and ends no borrowed storage is compatible. -/
theorem Access.compatible_of_clash {a : Access} {held : Set Loan} (h : ∀ l ∈ held, a.clash l = none)
    (hdead : a.kind = .storageDead → ∀ l ∈ held, l.place.root = a.place.root → .deref ∈ l.place.path) :
    a.Compatible held := by
  intro l hl
  have hclash := h l hl
  unfold clash at hclash
  cases hk : a.kind <;> simp only [hk] at hclash ⊢
  case borrowMut | move => simpa using hclash
  case borrowShared | read | inspect =>
    intro hc
    simpa [hc] using hclash
  case write =>
    intro hc
    simp only [hc, Bool.not_true, Bool.false_eq_true, if_false, ite_eq_left_iff, reduceCtorEq,
      imp_false, not_not] at hclash
    simpa [Place.overwriteSpares] using hclash
  case storageDead => exact hdead hk l hl

/-- A compatible borrow keeps the held loans exclusive. -/
theorem Access.Lends.exclusive {a : Access} {held held' : Set Loan} (h : a.Lends held held')
    (hloan : a.loan.isSome = true → a.isBorrow = true) (hc : a.isBorrow = true → a.Compatible held)
    (he : Exclusive held) : Exclusive held' := by
  have hnew : ∀ l k, a.loan? = some l → k ∈ held → l.place.conflicts k.place = true →
      l.exclusive = false ∧ k.exclusive = false := by
    intro l k hl hk hconf
    simp only [loan?, Option.map_eq_some_iff] at hl
    obtain ⟨site, hsite, rfl⟩ := hl
    have hborrow := hloan (by simp [hsite])
    have hcompat := hc hborrow k hk
    simp only [isBorrow, Bool.or_eq_true, decide_eq_true_eq] at hborrow
    rcases hborrow with hkind | hkind
    · simp only [hkind] at hcompat ⊢
      exact ⟨by simp, hcompat hconf⟩
    · simp only [hkind] at hcompat
      simp [hcompat] at hconf
  subst h
  rintro l (hl | hl) k (hk | hk) hne hconf
  · exact he l hl k hk hne hconf
  · exact (hnew k l hk hl (by rw [Place.conflicts_comm]; exact hconf)).symm
  · exact hnew l k hl hk hconf
  · rw [hl] at hk
    exact absurd (Option.some.inj hk) hne

/-- The loans in scope after some accesses of a point. -/
def lentAfter (accesses : List Access) (loans : List Loan) : List Loan :=
  accesses.foldl (fun loans a => a.loan?.toList.foldl addLoan loans) loans

theorem clashes_append (as bs : List Access) (loans : List Loan) :
    clashes (as ++ bs) loans = clashes as loans ++ clashes bs (lentAfter as loans) := by
  induction as generalizing loans with
  | nil => rfl
  | cons a as ih =>
    simp only [List.cons_append, clashes, ih, List.append_assoc]
    rfl

theorem Access.Lends.subset {a : Access} {held held' : Set Loan} (h : a.Lends held held')
    {loans : List Loan} (hsub : ∀ l ∈ held, l ∈ loans) :
    ∀ l ∈ held', l ∈ a.loan?.toList.foldl addLoan loans := by
  subst h
  rintro l (hl | hl)
  · exact mem_foldl_addLoan.mpr (.inl (hsub l hl))
  · exact mem_foldl_addLoan.mpr (.inr (Option.mem_toList.mpr hl))

section

variable {as : List Access} {held held' : Set Loan} {loans : List Loan}

theorem Acts.held_subset (h : Acts Access.Lends as held held') (hsub : ∀ l ∈ held, l ∈ loans) :
    ∀ l ∈ held', l ∈ lentAfter as loans := by
  induction h generalizing loans with
  | nil => exact hsub
  | cons hact _ ih => exact ih (hact.subset hsub)

theorem mem_lentAfter {l : Loan} (h : l ∈ lentAfter as loans) :
    l ∈ loans ∨ ∃ a ∈ as, a.loan? = some l := by
  induction as generalizing loans with
  | nil => exact .inl h
  | cons a as ih =>
    rcases ih h with hl | ⟨b, hb, hl⟩
    · rcases mem_foldl_addLoan.mp hl with hl | hl
      · exact .inl hl
      · exact .inr ⟨a, List.mem_cons_self, Option.mem_toList.mp hl⟩
    · exact .inr ⟨b, List.mem_cons_of_mem a hb, hl⟩

/-- Accesses that clash with no loan in scope keep the loans of a path exclusive. -/
theorem Acts.exclusive (h : Acts Access.Lends as held held') (hsub : ∀ l ∈ held, l ∈ loans)
    (hloan : ∀ a ∈ as, a.loan.isSome = true → a.isBorrow = true) (hquiet : clashes as loans = [])
    (he : Exclusive held) : Exclusive held' := by
  induction h generalizing loans with
  | nil => exact he
  | @cons a rest _ _ _ hact _ ih =>
    simp only [clashes, List.append_eq_nil_iff, Option.toList_eq_nil_iff] at hquiet
    refine ih (hact.subset hsub) (fun b hb => hloan b (List.mem_cons_of_mem a hb)) hquiet.2 ?_
    refine hact.exclusive (hloan a List.mem_cons_self) (fun hborrow => ?_) he
    refine Access.compatible_of_clash (fun l hl => clash_of_firstClash hquiet.1 (hsub l hl)) ?_
    intro hdead
    simp [Access.isBorrow, hdead] at hborrow

end

section

variable {cx : Context} {limit : Option Int} {s : Stages}

theorem loan_isBorrow (hfx : cx.effects s.graph = .ok s.effects) {p : Point} (hp : p ∈ s.graph.allPoints)
    {a : Access} (ha : a ∈ s.effects.accesses p) (hl : a.loan.isSome = true) : a.isBorrow = true := by
  obtain ⟨k, hk⟩ := Option.isSome_iff_exists.mp hl
  exact (Context.isUse_of_loan hfx hp ha hk).borrow ▸ hl

theorem Stages.Clean.clashes (hclean : s.Clean) (hs : cx.Completes limit s) {p : Point}
    (hp : p ∈ s.graph.allPoints) : clashes (s.effects.accesses p) (s.loans.scopeAt p) = [] := by
  have hfindings : s.loans.findings =
      s.loans.inScope.flatMap fun scope => Ownership.clashes (s.effects.accesses scope.1) scope.2 := by
    have hl := hs.loans
    simp only [trackLoans, bind_eq_ok, pure_eq, Except.ok.injEq] at hl
    obtain ⟨_, _, hr⟩ := hl
    rw [← hr]
  have hnil := hclean.loans
  rw [hfindings] at hnil
  exact List.flatMap_eq_nil_iff.mp hnil _ (mem_inScope hs.loans hp)

/-- No loan in scope is of storage that ends, unless it lies behind a reference. -/
theorem Stages.Clean.storageDead (hclean : s.Clean) (hs : cx.Completes limit s) {p : Point}
    (hp : p ∈ s.graph.allPoints) {a : Access} (ha : a ∈ s.effects.accesses p)
    (hk : a.kind = .storageDead) {l : Loan} (hl : l ∈ s.loans.scopeAt p)
    (hroot : l.place.root = a.place.root) : .deref ∈ l.place.path := by
  have hnil := (List.append_eq_nil_iff.mp hclean.validity).1
  have hpoint := List.flatMap_eq_nil_iff.mp hnil _ (mem_inScope hs.loans hp)
  have haccess := List.flatMap_eq_nil_iff.mp hpoint a ha
  rw [danglingAt, if_pos hk, List.map_eq_nil_iff] at haccess
  have hspared := List.filter_eq_nil_iff.mp haccess l (mem_sortBy.mpr hl)
  simpa [hroot, Place.throughDeref] using hspared

/-- A path only holds loans that are in scope, and holds them exclusively. -/
theorem HeldAt.inScope (hs : cx.Completes limit s) (hclean : s.Clean) {p : Point} {held : Set Loan}
    (h : HeldAt s.graph s.effects s.solution p held) :
    p ∈ s.graph.allPoints ∧ (∀ l ∈ held, l ∈ s.loans.scopeAt p) ∧ Exclusive held := by
  have hpruned := Graph.pruned_of_graph hs.graph
  refine Graph.Reaches.invariant hpruned
    (fun p held => (∀ l ∈ held, l ∈ s.loans.scopeAt p) ∧ Exclusive held) ?_ ?_ h
  · rintro _ rfl
    exact ⟨fun _ h => absurd h id, fun _ h => absurd h id⟩
  · rintro p q held _ hp ⟨hsub, he⟩ hq ⟨after, hacts, rfl⟩
    have hafter := hacts.exclusive hsub (fun a => loan_isBorrow hs.effects hp) (hclean.clashes hs hp) he
    refine ⟨?_, fun l hl k hk => hafter l hl.1 k hk.1⟩
    rintro l ⟨hl, hext⟩
    exact scopeAt_closed hpruned hs.loans hp hq (mem_lentAfter (hacts.held_subset hsub l hl)) hext

end

/-- Exclusivity on every path of an accepted function: at each moment inside each point the
loans that the path holds are exclusive, and the next access is compatible with them. -/
theorem loans_exclusive {cx : Context} {config : Config} {r : Verdict × List LogLine}
    (h : cx.verdict config = .ok r) (ha : r.1.accepted = true) :
    ∃ g fx sol, r.1.graph = some g ∧ cx.effects g = .ok fx ∧ r.1.solution = some sol ∧
      ∀ p held, HeldAt g fx sol p held → ∀ before rest held', fx.accesses p = before ++ rest →
        Acts Access.Lends before held held' →
          Exclusive held' ∧ ∀ a after, rest = a :: after → a.Compatible held' := by
  obtain ⟨s, hs, hclean, hgraph, hsol⟩ := Context.accepted_clean h ha
  refine ⟨s.graph, s.effects, s.solution, hgraph, hs.effects, hsol, ?_⟩
  intro p held hheld before rest held' hsplit hacts
  obtain ⟨hp, hsub, he⟩ := hheld.inScope hs hclean
  have hquiet := hclean.clashes hs hp
  rw [hsplit, clashes_append, List.append_eq_nil_iff] at hquiet
  have hloan : ∀ a ∈ before, a.loan.isSome = true → a.isBorrow = true :=
    fun a ha => loan_isBorrow hs.effects hp (by rw [hsplit]; exact List.mem_append_left _ ha)
  refine ⟨hacts.exclusive hsub hloan hquiet.1 he, ?_⟩
  rintro a after rfl
  have hclash := (List.append_eq_nil_iff.mp hquiet.2).1
  refine Access.compatible_of_clash
    (fun l hl => clash_of_firstClash (Option.toList_eq_nil_iff.mp hclash) (hacts.held_subset hsub l hl)) ?_
  intro hk l hl hroot
  have hmem : a ∈ s.effects.accesses p := by rw [hsplit]; simp
  have halone := Context.alone_of_storageDead hs.effects hp hmem hk
  have hbefore : before = [] := by
    rw [halone] at hsplit
    cases before with
    | nil => rfl
    | cons b before => simp at hsplit
  subst hbefore
  cases hacts
  exact hclean.storageDead hs hp hmem hk (hsub l hl) hroot

/-- A loop that borrows its parameter anew each time round and writes through the borrow. -/
def borrowAnew : Context where
  function :=
    { name := "borrowAnew"
      params := [⟨"x", 1, 1, {}⟩]
      ret := none
      body := .mk [.loop (.mk
        [.declare "p" 2 (some (.borrow (.var "x" 1 {}) true {})) {},
          .assign (.deref (.var "p" 2 {}) {}) (.int 2 {}) {}] {}) {}] {}
      bindings := .ofList [(1, ⟨1, "x", 1, .param, {}⟩), (2, ⟨2, "p", 2, .localVar, {}⟩)] }
  types := { defs := [.scalar "Int" true, .ref 1 true none] }
  signatures := {}

def borrowAnewVerdict : Verdict × List LogLine := (borrowAnew.verdict {}).toOption.getD default

/-- The path into the loop holds the exclusive loan when it writes through it. -/
theorem loans_exclusive_borrowAnew : borrowAnewVerdict.1.accepted = true ∧
    ∃ g fx sol held, borrowAnewVerdict.1.graph = some g ∧ borrowAnew.effects g = .ok fx ∧
      borrowAnewVerdict.1.solution = some sol ∧ HeldAt g fx sol ⟨3, 1⟩ held ∧
      (∃ l ∈ held, l.exclusive = true) ∧ Exclusive held := by
  have hv : borrowAnew.verdict {} = .ok borrowAnewVerdict := eq_ok_getD default (by decide +kernel)
  have ha : borrowAnewVerdict.1.accepted = true := by decide +kernel
  obtain ⟨g, fx, sol, hg, hfx, hsol, hall⟩ := loans_exclusive hv ha
  have hedges : borrowAnewVerdict.1.graph.map (fun g =>
      (g.entry, g.last 0, g.successors 0, g.last 2, g.successors 2, g.last 3)) =
      some (0, 0, [2], 0, [3], 3) := by decide +kernel
  simp only [hg, Option.map_some, Option.some.injEq, Prod.mk.injEq] at hedges
  obtain ⟨hentry, hlast0, hsucc0, hlast2, hsucc2, hlast3⟩ := hedges
  have haccesses : (borrowAnewVerdict.1.graph.bind fun g => (borrowAnew.effects g).toOption).map (fun fx =>
      (fx.accesses ⟨0, 0⟩, fx.accesses ⟨2, 0⟩, fx.accesses ⟨3, 0⟩)) =
      some ([], [], [⟨.borrowMut, { root := 1, name := "x" }, {}, some 1, some ⟨⟨3, 0⟩, 0⟩⟩,
        ⟨.init, { root := 2, name := "p" }, {}, some 2, none⟩]) := by decide +kernel
  simp only [hg, Option.bind_some, hfx, Except.toOption, Option.map_some, Option.some.injEq,
    Prod.mk.injEq] at haccesses
  obtain ⟨haccess0, haccess2, haccess3⟩ := haccesses
  have hextent : borrowAnewVerdict.1.solution.map (fun sol =>
      (sol.loanExtent ⟨⟨3, 0⟩, 0⟩).points.contains ⟨3, 1⟩) = some true := by decide +kernel
  simp only [hsol, Option.map_some, Option.some.injEq, List.contains_eq_mem, decide_eq_true_eq] at hextent
  have hstart : HeldAt g fx sol ⟨g.entry, 0⟩ ∅ := .entry rfl
  rw [hentry] at hstart
  have hheader : HeldAt g fx sol ⟨2, 0⟩ _ := hstart.next
    (.across hlast0.symm (by rw [hsucc0]; exact List.mem_cons_self))
    ⟨_, by rw [haccess0]; exact .nil _, rfl⟩
  have hbody : HeldAt g fx sol ⟨3, 0⟩ _ := hheader.next
    (.across hlast2.symm (by rw [hsucc2]; exact List.mem_cons_self))
    ⟨_, by rw [haccess2]; exact .nil _, rfl⟩
  have hwrite : HeldAt g fx sol ⟨3, 1⟩ _ := hbody.next (.along (by rw [hlast3]; decide))
    ⟨_, by rw [haccess3]; exact .cons rfl (.cons rfl (.nil _)), rfl⟩
  refine ⟨ha, g, fx, sol, _, hg, hfx, hsol, hwrite, ⟨⟨⟨⟨3, 0⟩, 0⟩, { root := 1, name := "x" }, true, {}⟩, ?_, rfl⟩, ?_⟩
  · exact ⟨.inl (.inr rfl), hextent⟩
  · exact (hall _ _ hwrite [] _ _ rfl (.nil _)).1

end Ownership
