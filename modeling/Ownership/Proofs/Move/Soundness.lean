import Ownership.Proofs.Move.Gone
import Ownership.Proofs.Worklist

/-!
Soundness of move tracking. Once the search for the states at the starts of
blocks has settled, the state of a block describes what is gone on every path
that leads to it, and so do the states inside the block. A function without
findings therefore never uses storage that is gone, whatever path it takes and
whatever its unknown positions are.
-/
namespace Ownership

open Outcome

namespace MoveState

variable {f : Function} {s : MoveState}

theorem applyAll_append (s : MoveState) (f : Function) (as bs : List Access) :
    s.applyAll f (as ++ bs) = (s.applyAll f as).applyAll f bs :=
  List.foldl_append

theorem plain_apply (h : s.Plain) (a : Access) : (s.apply f a).Plain := by
  unfold apply
  split
  · exact h
  · cases a.kind with
    | declare | storageDead | move => exact plain_put h (by simp)
    | init | write => exact plain_setInit h
    | read | borrowShared | borrowMut | inspect => exact h

theorem plain_applyAll (h : s.Plain) (as : List Access) : (s.applyAll f as).Plain := by
  induction as generalizing s with
  | nil => exact h
  | cons a as ih => exact ih (plain_apply h a)

end MoveState

namespace MoveProblem

variable {m : MoveProblem}

def worklist (m : MoveProblem) : Worklist MoveState where
  edges b := (m.graph.successors b).filter m.graph.isReachable
  transfer := m.transfer
  grown s t := t.Above s
  accepts _ out t := t.Above out
  grown_refl _ _ h := h
  grown_trans h k l hl := k l (h l hl)
  accepts_grown h k l hl := k l (h l hl)

def frontier (s : MoveSearch) : Frontier MoveState := ⟨s.states.get?, s.worklist⟩

def Plain (s : MoveSearch) : Prop := ∀ b st, s.states.get? b = some st → st.Plain

/-- Where the join changes nothing, the state of the successor already accounts for what flows out. -/
theorem propagate_advances {out : MoveState} (hout : out.Plain) (s : MoveSearch) (c : Nat)
    (hs : Plain s) :
    m.worklist.Advances out [c] (frontier s) (frontier (propagate out s c)) ∧
      Plain (propagate out s c) := by
  unfold propagate propagateBy
  simp only
  split
  · rename_i hsame
    obtain ⟨st, hst, hsame⟩ := (Option.any_eq_true _ _).mp hsame
    rw [hst] at hsame
    simp only [Option.elim_some, MoveState.sameAs, Bool.and_eq_true] at hsame
    refine ⟨.unchanged ⟨st, hst, fun l hl => ?_⟩, hs⟩
    exact MoveState.above_of_within hsame.1 l (MoveState.mem_gone_merged (hs c st hst) hout (.inr hl))
  · have hplain : ((s.states.get? c).elim out (·.merged out)).Plain := by
      cases hst : s.states.get? c with
      | none => exact hout
      | some st => exact MoveState.plain_merged (hs c st hst) hout
    refine ⟨.insert ?_ ?_, ?_⟩
    · intro st hst l hl
      rw [hst]
      exact MoveState.mem_gone_merged (hs c st hst) hout (.inl hl)
    · intro l hl
      cases hst : s.states.get? c with
      | none => exact hl
      | some st => exact MoveState.mem_gone_merged (hs c st hst) hout (.inr hl)
    · intro b st hb
      by_cases hbc : b = c
      · subst hbc
        rw [OrderedMap.get?_insert_self, Option.some.injEq] at hb
        exact hb ▸ hplain
      · rw [OrderedMap.get?_insert_other _ _ hbc] at hb
        exact hs b st hb

/-- What the search keeps. -/
def Settling (m : MoveProblem) (s : MoveSearch) : Prop :=
  m.worklist.Settling m.order m.graph.entry (initialMoves m.function) (frontier s) ∧ Plain s

theorem start_settling (h : m.graph.entry ∈ m.order) : m.Settling m.start := by
  have hother : ∀ b, b ≠ m.graph.entry → m.start.states.get? b = none := by
    intro b hb
    simp [start, OrderedMap.get?_insert_other _ _ hb]
  refine ⟨.initial (by simp [start]) hother h, ?_⟩
  intro b st hb
  by_cases hbe : b = m.graph.entry
  · subst hbe
    simp only [start, OrderedMap.get?_insert_self, Option.some.injEq] at hb
    exact hb ▸ MoveState.plain_initialMoves m.function
  · rw [hother b hbe] at hb
    cases hb

theorem next_settling (hclosed : ∀ b ∈ m.order, ∀ c ∈ m.graph.successors b, c ∈ m.order)
    (s t : MoveSearch) (h : m.Settling s) (hn : m.next s = some t) : m.Settling t := by
  obtain ⟨b, hb, rfl⟩ := Option.map_eq_some_iff.mp hn
  have hmem := List.mem_of_find?_eq_some hb
  have hstate : ((s.states.get? b).getD {}).Plain := by
    cases hst : s.states.get? b with
    | none =>
      intro e he
      cases he
    | some st => exact h.2 b st hst
  obtain ⟨hadvance, hplain⟩ := Worklist.Advances.foldl frontier Plain
    (propagate_advances (m := m) (MoveState.plain_applyAll hstate (m.blockAccesses b)))
    ((m.graph.successors b).filter m.graph.isReachable)
    { s with worklist := s.worklist.filter (· ≠ b) } h.2
  refine ⟨h.1.visit hmem ?_ ?_ ?_ ?_ hadvance, hplain⟩
  · intro c hc
    exact hclosed b hmem c (List.mem_filter.mp hc).1
  · intro c hc
    by_cases hcb : c = b
    · exact .inl hcb
    · exact .inr (List.mem_filter.mpr ⟨hc, by simpa using hcb⟩)
  · intro c hc
    exact (List.mem_filter.mp hc).1
  · intro x hx
    rw [show s.states.get? b = some x from hx]
    rfl

/-- The states at the starts of blocks account for each other. -/
structure Settled (m : MoveProblem) (starts : OrderedMap Nat MoveState) : Prop where
  entry : ∃ st, starts.get? m.graph.entry = some st ∧ st.Above (initialMoves m.function)
  plain : ∀ b st, starts.get? b = some st → st.Plain
  passed : ∀ b st, starts.get? b = some st →
    ∀ c ∈ (m.graph.successors b).filter m.graph.isReachable,
      ∃ st', starts.get? c = some st' ∧ st'.Above (m.transfer b st)

/-- Only listed blocks are ever left to visit, so the search ends when it finds no first one. -/
theorem solve_settled (horder : m.order = m.graph.reachable) {limit : Option Int}
    {starts : OrderedMap Nat MoveState} {budget : Budget} (h : m.solve limit = .ok (starts, budget)) :
    m.Settled starts := by
  simp only [solve, solveBy, bind_eq_ok, pure_eq, Except.ok.injEq, Prod.mk.injEq] at h
  obtain ⟨⟨s, spent⟩, hsettle, rfl, _⟩ := h
  obtain ⟨⟨hset, hplain⟩, hdone⟩ := Budget.settle_invariant (next_settling (m := m)
    (fun b hb c hc => by rw [horder] at hb ⊢; exact Graph.successors_reachable hb hc))
    (start_settling (by rw [horder]; exact m.graph.entry_mem_reachable)) hsettle
  have hnone : ∀ b, b ∉ s.worklist := by
    intro b hb
    have hfirst := List.find?_eq_none.mp (Option.map_eq_none_iff.mp hdone) b (hset.pending b hb)
    exact hfirst (by simpa using hb)
  exact ⟨hset.start, hplain, fun b st hb => hset.passed b st hb (hnone b)⟩

/-- The state before a point, from the state at the start of its block. -/
def stateBefore (m : MoveProblem) (starts : OrderedMap Nat MoveState) (p : Point) : MoveState :=
  ((starts.get? p.block).getD {}).applyAll m.function
    ((List.range p.index).flatMap fun i => m.effects.accesses ⟨p.block, i⟩)

theorem stateBefore_first (m : MoveProblem) {starts : OrderedMap Nat MoveState} {b : Nat}
    {st : MoveState} (h : starts.get? b = some st) : m.stateBefore starts ⟨b, 0⟩ = st := by
  simp [stateBefore, h, MoveState.applyAll]

theorem stateBefore_next (m : MoveProblem) (starts : OrderedMap Nat MoveState) (p : Point) :
    m.stateBefore starts ⟨p.block, p.index + 1⟩ =
      (m.stateBefore starts p).applyAll m.function (m.effects.accesses p) := by
  simp only [stateBefore, List.range_succ, List.flatMap_append, MoveState.applyAll_append]
  simp

/-- The state after a block's last point is what the block passes on. -/
theorem applyAll_stateBefore_last (m : MoveProblem) (starts : OrderedMap Nat MoveState) (b : Nat) :
    (m.stateBefore starts ⟨b, m.graph.last b⟩).applyAll m.function (m.effects.accesses ⟨b, m.graph.last b⟩) =
      m.transfer b ((starts.get? b).getD {}) := by
  rw [← stateBefore_next m starts ⟨b, m.graph.last b⟩]
  simp [stateBefore, transfer, blockAccesses, Graph.points, List.flatMap_map]

theorem mem_statesAlong (before after : List Point) (p : Point) (s : MoveState) :
    (p, s.applyAll m.function (before.flatMap m.effects.accesses)) ∈
      m.statesAlong (before ++ p :: after) s := by
  induction before generalizing s with
  | nil => exact List.mem_cons_self
  | cons q before ih =>
    rw [List.flatMap_cons, MoveState.applyAll_append]
    exact List.mem_cons_of_mem _ (ih _)

theorem mem_statesBefore (horder : m.order = m.graph.reachable) (starts : OrderedMap Nat MoveState)
    {p : Point} (hp : p ∈ m.graph.allPoints) :
    (p, m.stateBefore starts p) ∈ m.statesBefore starts := by
  obtain ⟨hb, hi⟩ := Graph.mem_allPoints.mp hp
  refine List.mem_flatMap.mpr ⟨p.block, horder ▸ hb, ?_⟩
  obtain ⟨after, hpoints⟩ := m.graph.points_split hi
  have hmem := m.mem_statesAlong ((List.range p.index).map fun i => ⟨p.block, i⟩) after p
    ((starts.get? p.block).getD {})
  rw [hpoints]
  simpa [stateBefore, List.flatMap_map] using hmem

theorem objections_append (as bs : List Access) (s : MoveState) : m.objections (as ++ bs) s =
    m.objections as s ++ m.objections bs (s.applyAll m.function as) := by
  induction as generalizing s with
  | nil => rfl
  | cons a as ih =>
    simp only [List.cons_append, objections, ih, List.append_assoc]
    rfl

/-- Accesses that are not objected to keep the state describing what is gone. -/
theorem describes_applyAll {as : List Access} {s : MoveState} {gone gone' : Set Storage}
    (hroot : ∀ a ∈ as, a.kind = .init ∨ a.kind = .declare ∨ a.kind = .storageDead → a.place.path = [])
    (h : s.Describes gone) (ho : m.objections as s = []) (hacts : Acts Access.Removes as gone gone') :
    (s.applyAll m.function as).Describes gone' := by
  induction hacts generalizing s with
  | nil => exact h
  | @cons a rest _ _ _ hact _ ih =>
    obtain ⟨l, hl, rfl⟩ := hact
    simp only [objections, List.append_eq_nil_iff, Option.toList_eq_nil_iff] at ho
    exact ih (fun b hb => hroot b (List.mem_cons_of_mem a hb))
      (h.apply ho.1 hl (hroot a List.mem_cons_self)) ho.2

/-- The state before a point describes what is gone there. -/
structure DescribedAt (m : MoveProblem) (starts : OrderedMap Nat MoveState) (p : Point)
    (gone : Set Storage) : Prop where
  known : ∃ st, starts.get? p.block = some st
  describes : (m.stateBefore starts p).Describes gone

variable {starts : OrderedMap Nat MoveState}

theorem describedAt_entry (h : m.Settled starts) :
    m.DescribedAt starts ⟨m.graph.entry, 0⟩ m.function.goneAtStart := by
  obtain ⟨st, hst, habove⟩ := h.entry
  refine ⟨⟨st, hst⟩, ?_⟩
  rw [m.stateBefore_first hst]
  exact (MoveState.initialMoves_describes m.function).above (h.plain _ st hst) habove

theorem DescribedAt.next (h : m.Settled starts) {p q : Point} {gone gone' : Set Storage}
    (hp : m.DescribedAt starts p gone) (hq : q ∈ m.graph.pointSuccessors p)
    (hroot : ∀ a ∈ m.effects.accesses p,
      a.kind = .init ∨ a.kind = .declare ∨ a.kind = .storageDead → a.place.path = [])
    (hquiet : m.objections (m.effects.accesses p) (m.stateBefore starts p) = [])
    (hacts : Acts Access.Removes (m.effects.accesses p) gone gone') :
    m.DescribedAt starts q gone' := by
  obtain ⟨st, hst⟩ := hp.known
  have hafter := describes_applyAll hroot hp.describes hquiet hacts
  rcases Graph.mem_pointSuccessors.mp hq with ⟨_, rfl⟩ | ⟨hlast, b, hb, rfl⟩
  · exact ⟨⟨st, hst⟩, by rw [stateBefore_next]; exact hafter⟩
  · obtain ⟨st', hst', habove⟩ := h.passed p.block st hst b hb
    refine ⟨⟨st', hst'⟩, ?_⟩
    rw [m.stateBefore_first hst']
    obtain ⟨block, index⟩ := p
    simp only at hlast
    subst hlast
    rw [m.applyAll_stateBefore_last, hst] at hafter
    exact hafter.above (h.plain _ st' hst') habove

end MoveProblem

/-- Some path reaches a point with this storage gone. -/
def GoneAt (f : Function) (g : Graph) (fx : EffectMap) : Point → Set Storage → Prop :=
  g.Reaches (· = f.goneAtStart) fun p _ gone gone' => Acts Access.Removes (fx.accesses p) gone gone'

section

variable {cx : Context} {g : Graph} {fx : EffectMap} {limit : Option Int} {r : MoveResult}

theorem access_root (hfx : cx.effects g = .ok fx) {p : Point} (hp : p ∈ g.allPoints) {a : Access}
    (ha : a ∈ fx.accesses p) (hk : a.kind = .init ∨ a.kind = .declare ∨ a.kind = .storageDead) :
    a.place.path = [] := by
  have hd : a.defines = true := by rcases hk with h | h | h <;> simp [Access.defines, h]
  exact Context.path_of_defines hfx hp ha hd

/-- Without findings, some state describes what is gone before a point, and nothing that the
point does is objected to. -/
theorem GoneAt.described (hg : cx.function.graph = .ok g) (hfx : cx.effects g = .ok fx)
    (hm : trackMoves g cx.function fx limit = .ok r) (hr : r.findings = []) {p : Point}
    {gone : Set Storage} (hp : GoneAt cx.function g fx p gone) :
    p ∈ g.allPoints ∧ ∃ s : MoveState, s.Describes gone ∧
      (MoveProblem.ofEffects cx.function g fx).objections (fx.accesses p) s = [] := by
  simp only [trackMoves, trackMovesBy, bind_eq_ok, pure_eq, Except.ok.injEq] at hm
  obtain ⟨⟨starts, budget⟩, hsolve, rfl⟩ := hm
  have hset := MoveProblem.solve_settled rfl hsolve
  have hquiet : ∀ q ∈ g.allPoints, (MoveProblem.ofEffects cx.function g fx).objections (fx.accesses q)
      ((MoveProblem.ofEffects cx.function g fx).stateBefore starts q) = [] :=
    fun q hq => List.flatMap_eq_nil_iff.mp hr _ (MoveProblem.mem_statesBefore rfl starts hq)
  obtain ⟨hmem, hdescribed⟩ := Graph.Reaches.invariant (Graph.pruned_of_graph hg)
    ((MoveProblem.ofEffects cx.function g fx).DescribedAt starts)
    (by rintro _ rfl; exact MoveProblem.describedAt_entry hset)
    (fun q _ _ _ hq hs hnext hacts =>
      hs.next hset hnext (fun _ => access_root hfx hq) (hquiet q hq) hacts) hp
  exact ⟨hmem, _, hdescribed.describes, hquiet p hmem⟩

/-- Without findings, no path ever uses storage that is gone: on every path, wherever the
unknown positions of its accesses lead, storage stays gone as a whole, and each access finds
the storage that it needs. -/
theorem accesses_permitted (hg : cx.function.graph = .ok g) (hfx : cx.effects g = .ok fx)
    (hm : trackMoves g cx.function fx limit = .ok r) (hr : r.findings = []) {p : Point}
    {gone gone' : Set Storage} (hp : GoneAt cx.function g fx p gone) {before after : List Access}
    {a : Access} (ha : fx.accesses p = before ++ a :: after)
    (hbefore : Acts Access.Removes before gone gone') :
    GoneWhole gone' ∧ ∀ l, a.place.Denotes l → a.Permitted l gone' := by
  obtain ⟨hmem, s, hs, hquiet⟩ := hp.described hg hfx hm hr
  rw [ha, MoveProblem.objections_append, List.append_eq_nil_iff] at hquiet
  have hroot : ∀ b ∈ before, b.kind = .init ∨ b.kind = .declare ∨ b.kind = .storageDead →
      b.place.path = [] :=
    fun b hb => access_root hfx hmem (by rw [ha]; exact List.mem_append_left _ hb)
  have hend := MoveProblem.describes_applyAll hroot hs hquiet.1 hbefore
  have hobject := (List.append_eq_nil_iff.mp hquiet.2).1
  exact ⟨hend.whole, fun l hl => hend.permitted (Option.toList_eq_nil_iff.mp hobject) hl⟩

end

/-- A loop that moves the first element of an array out and puts a new one in its place. -/
def refill : Context where
  function :=
    { name := "refill"
      params := [⟨"v", 1, 3, {}⟩]
      ret := none
      body := .mk [.loop (.mk
        [.declare "t" 2 (some (.index (.var "v" 1 {}) (.int 0 {}) {})) {},
          .assign (.index (.var "v" 1 {}) (.int 0 {}) {}) (.construct 2 [.mk "id" (.int 2 {})] {}) {}]
        {}) {}] {}
      bindings := .ofList [(1, ⟨1, "v", 3, .param, {}⟩), (2, ⟨2, "t", 2, .localVar, {}⟩)] }
  types :=
    { defs := [.scalar "Int" true, .struct "R" none false, .array 2]
      structs := .ofList [("R", .ofList [("id", 1)])] }
  signatures := {}

def refillGraph : Graph := refill.function.graph.toOption.getD default

def refillEffects : EffectMap := (refill.effects refillGraph).toOption.getD default

/-- While the element is gone the array is not, so the element can be written. -/
theorem accesses_permitted_refill :
    ∃ gone, GoneAt refill.function refillGraph refillEffects ⟨3, 1⟩ gone ∧
      ⟨1, [.element 0]⟩ ∈ gone ∧ ⟨1, []⟩ ∉ gone := by
  have hg : refill.function.graph = .ok refillGraph := eq_ok_getD _ (by decide +kernel)
  have hfx : refill.effects refillGraph = .ok refillEffects := eq_ok_getD _ (by decide +kernel)
  have hm := eq_ok_getD (x := trackMoves refillGraph refill.function refillEffects none) ⟨[], [], 0⟩
    (by decide +kernel)
  have hr : ((trackMoves refillGraph refill.function refillEffects none).toOption.getD
      ⟨[], [], 0⟩).findings = [] := by decide +kernel
  let v : Place := { root := 1, path := [.element 0], name := "v" }
  have hv : v.Denotes ⟨1, [.element 0]⟩ := ⟨rfl, .cons (.element 0) .nil⟩
  have hempty : ∀ {b : Nat} (gone : Set Storage), refillEffects.accesses ⟨b, 0⟩ = [] →
      Acts Access.Removes (refillEffects.accesses ⟨b, 0⟩) gone gone := by
    intro b gone h
    rw [h]
    exact .nil gone
  have hstart : GoneAt refill.function refillGraph refillEffects ⟨0, 0⟩ refill.function.goneAtStart :=
    .entry rfl
  have hheader := hstart.next (q := ⟨2, 0⟩) (.across (by decide +kernel) (by decide +kernel))
    (hempty _ (by decide +kernel))
  have hbody := hheader.next (q := ⟨3, 0⟩) (.across (by decide +kernel) (by decide +kernel))
    (hempty _ (by decide +kernel))
  have hacts : refillEffects.accesses ⟨3, 0⟩ =
      [⟨.move, v, {}, some 2, none⟩, ⟨.init, { root := 2, name := "t" }, {}, some 2, none⟩] := by
    decide +kernel
  have hmoved := hbody.next (q := ⟨3, 1⟩) (.along (by decide +kernel)) (by
    rw [hacts]
    exact .cons ⟨_, hv, rfl⟩ (.cons ⟨⟨2, []⟩, ⟨rfl, .nil⟩, rfl⟩ (.nil _)))
  refine ⟨_, hmoved, ⟨.inr (.refl _), fun h => absurd h.1 (by decide)⟩, ?_⟩
  have hwrite : refillEffects.accesses ⟨3, 1⟩ = [] ++ ⟨.write, v, {}, some 2, none⟩ :: [] := by
    decide +kernel
  exact (accesses_permitted hg hfx hm hr hmoved hwrite (.nil _)).2 _ hv (by simp)

end Ownership
