import Ownership.Effect
import Ownership.Graph.Lowering
import Ownership.Proofs.Outcome

/-!
Paths through a graph. The blocks that the depth-first search lists contain the
entry and are closed under edges, so every path from the entry stays among the
listed points. What a path does to a state is a relation on pairs of
neighbouring points; `Reaches` collects the states with which some path from
the entry arrives at a point.
-/
namespace Ownership

namespace Graph

variable {g : Graph}

/-- The blocks of the graph that the search has not seen. -/
def unseen (g : Graph) (seen : List Nat) : Nat :=
  ((List.range g.blocks.length).filter (!seen.contains ·)).length

theorem unseen_mono {seen more : List Nat} (h : seen ⊆ more) : g.unseen more ≤ g.unseen seen := by
  unfold unseen
  rw [← List.countP_eq_length_filter, ← List.countP_eq_length_filter]
  apply List.countP_mono_left
  intro b _ hb
  simp only [Bool.not_eq_true', List.contains_eq_mem, decide_eq_false_iff_not] at hb ⊢
  exact fun hs => hb (h hs)

theorem unseen_cons_lt {seen : List Nat} {b : Nat} (hb : b < g.blocks.length) (hn : b ∉ seen) :
    g.unseen (b :: seen) < g.unseen seen := by
  have hmem : b ∈ (List.range g.blocks.length).filter (!seen.contains ·) := by
    simp [hb, hn]
  have hsub : (List.range g.blocks.length).filter (!(b :: seen).contains ·) =
      ((List.range g.blocks.length).filter (!seen.contains ·)).filter (· ≠ b) := by
    rw [List.filter_filter]
    apply List.filter_congr
    intro x _
    simp only [List.contains_cons, Bool.not_or, decide_not]
    rw [Bool.and_comm]
    simp [Bool.and_comm, BEq.beq]
  unfold unseen
  rw [hsub]
  exact List.length_filter_lt_length_iff_exists.mpr ⟨b, hmem, by simp⟩

/-- A block outside the graph has no edges. -/
theorem successors_of_stray {b : Nat} (hb : g.blocks.length ≤ b) : g.successors b = [] := by
  simp [successors, block, List.getElem?_eq_none hb, BasicBlock.successors]

/-- What the search adds to the blocks seen and finished: all that it sees it
finishes, and a block is only finished when its successors have been seen. -/
structure Explored (g : Graph) (before after : List Nat × List Nat) : Prop where
  seen : before.1 ⊆ after.1
  order : before.2 ⊆ after.2
  finished : ∀ x ∈ after.1, x ∈ before.1 ∨ x ∈ after.2
  closed : ∀ x ∈ after.2, x ∈ before.2 ∨ ∀ c ∈ g.successors x, c ∈ after.1

namespace Explored

theorem refl (acc : List Nat × List Nat) : g.Explored acc acc :=
  ⟨fun _ h => h, fun _ h => h, fun _ h => .inl h, fun _ h => .inl h⟩

theorem trans {a b c : List Nat × List Nat} (h : g.Explored a b) (k : g.Explored b c) :
    g.Explored a c := by
  refine ⟨fun _ hx => k.seen (h.seen hx), fun _ hx => k.order (h.order hx), ?_, ?_⟩
  · intro x hx
    rcases k.finished x hx with hb | hc
    · exact (h.finished x hb).imp_right fun ho => k.order ho
    · exact .inr hc
  · intro x hx
    rcases k.closed x hx with hb | hc
    · exact (h.closed x hb).imp_right fun hs c hc => k.seen (hs c hc)
    · exact .inr hc

end Explored

/-- Exploring successors one after the other explores all of them. -/
theorem explored_foldl {visit : List Nat × List Nat → Nat → List Nat × List Nat} (bound : Nat)
    (hv : ∀ acc b, g.unseen acc.1 ≤ bound → g.Explored acc (visit acc b) ∧ b ∈ (visit acc b).1)
    (cs : List Nat) (acc : List Nat × List Nat) (hb : g.unseen acc.1 ≤ bound) :
    g.Explored acc (cs.foldl visit acc) ∧ ∀ c ∈ cs, c ∈ (cs.foldl visit acc).1 := by
  induction cs generalizing acc with
  | nil => exact ⟨.refl acc, by simp⟩
  | cons c cs ih =>
    obtain ⟨hc, hmem⟩ := hv acc c hb
    obtain ⟨hrest, hall⟩ := ih (visit acc c) (Nat.le_trans (unseen_mono hc.seen) hb)
    refine ⟨hc.trans hrest, ?_⟩
    intro x hx
    rcases List.mem_cons.mp hx with rfl | hx
    · exact hrest.seen hmem
    · exact hall x hx

/-- With more fuel than there are blocks left to see, the search explores. -/
theorem visit_explored (fuel : Nat) (acc : List Nat × List Nat) (b : Nat)
    (h : g.unseen acc.1 < fuel) :
    g.Explored acc (g.visit fuel acc b) ∧ b ∈ (g.visit fuel acc b).1 := by
  induction fuel generalizing acc b with
  | zero => omega
  | succ fuel ih =>
    obtain ⟨seen, order⟩ := acc
    by_cases hs : b ∈ seen
    · rw [visit, if_pos (by simpa using hs)]
      exact ⟨.refl _, hs⟩
    rw [visit, if_neg (by simpa using hs)]
    have hfold : g.Explored (b :: seen, order) ((g.successors b).foldl (g.visit fuel) (b :: seen, order)) ∧
        ∀ c ∈ g.successors b, c ∈ ((g.successors b).foldl (g.visit fuel) (b :: seen, order)).1 := by
      by_cases hb : b < g.blocks.length
      · have hlt := unseen_cons_lt hb hs
        refine explored_foldl (g.unseen (b :: seen)) ?_ _ _ (Nat.le_refl _)
        intro acc c hc
        exact ih acc c (by simp only at h; omega)
      · rw [successors_of_stray (by omega)]
        exact ⟨.refl _, by simp⟩
    obtain ⟨hex, hsucc⟩ := hfold
    generalize (g.successors b).foldl (g.visit fuel) (b :: seen, order) = after at hex hsucc
    obtain ⟨seen', order'⟩ := after
    have hmem : b ∈ seen' := hex.seen List.mem_cons_self
    refine ⟨⟨fun x hx => hex.seen (List.mem_cons_of_mem b hx),
      fun x hx => List.mem_cons_of_mem b (hex.order hx), ?_, ?_⟩, hmem⟩
    · intro x hx
      rcases hex.finished x hx with hx | hx
      · rcases List.mem_cons.mp hx with rfl | hx
        · exact .inr List.mem_cons_self
        · exact .inl hx
      · exact .inr (List.mem_cons_of_mem b hx)
    · intro x hx
      rcases List.mem_cons.mp hx with rfl | hx
      · exact .inr hsucc
      · exact hex.closed x hx

theorem reachable_explored : g.Explored ([], []) (g.visit (g.blocks.length + 1) ([], []) g.entry) ∧
    g.entry ∈ (g.visit (g.blocks.length + 1) ([], []) g.entry).1 := by
  apply visit_explored
  have hle : g.unseen [] ≤ (List.range g.blocks.length).length := List.length_filter_le _ _
  rw [List.length_range] at hle
  exact Nat.lt_succ_of_le hle

theorem entry_mem_reachable (g : Graph) : g.entry ∈ g.reachable := by
  obtain ⟨hex, hentry⟩ := g.reachable_explored
  exact (hex.finished _ hentry).resolve_left (by simp)

/-- The listed blocks are closed under edges. -/
theorem successors_reachable {b c : Nat} (hb : b ∈ g.reachable) (hc : c ∈ g.successors b) :
    c ∈ g.reachable := by
  obtain ⟨hex, _⟩ := g.reachable_explored
  have hseen := (hex.closed b hb).resolve_left (by simp) c hc
  exact (hex.finished c hseen).resolve_left (by simp)

theorem visit_sound {good : Nat → Prop} (hstep : ∀ b c, good b → c ∈ g.successors b → good c)
    (fuel : Nat) (acc : List Nat × List Nat) (b : Nat) (hb : good b) (hacc : ∀ x ∈ acc.2, good x) :
    ∀ x ∈ (g.visit fuel acc b).2, good x := by
  induction fuel generalizing acc b with
  | zero => exact hacc
  | succ fuel ih =>
    obtain ⟨seen, order⟩ := acc
    rw [visit]
    split
    · exact hacc
    · have hfold : ∀ (cs : List Nat) (acc : List Nat × List Nat), (∀ c ∈ cs, good c) →
          (∀ x ∈ acc.2, good x) → ∀ x ∈ (cs.foldl (g.visit fuel) acc).2, good x := by
        intro cs
        induction cs with
        | nil => exact fun acc _ h => h
        | cons c cs ihcs =>
          intro acc hcs h
          exact ihcs _ (fun d hd => hcs d (List.mem_cons_of_mem c hd))
            (ih acc c (hcs c List.mem_cons_self) h)
      intro x hx
      rcases List.mem_cons.mp hx with rfl | hx
      · exact hb
      · exact hfold _ (b :: seen, order) (fun c hc => hstep b c hb hc) hacc x hx

/-- What holds of the entry and along edges holds of every listed block. -/
theorem reachable_induction (good : Nat → Prop) (hentry : good g.entry)
    (hstep : ∀ b c, good b → c ∈ g.successors b → good c) {b : Nat} (hb : b ∈ g.reachable) : good b :=
  visit_sound hstep _ _ _ hentry (by simp) b hb

theorem mem_points {b : Nat} {p : Point} : p ∈ g.points b ↔ p.block = b ∧ p.index ≤ g.last b := by
  obtain ⟨block, index⟩ := p
  simp only [points, List.mem_map, List.mem_range, Point.mk.injEq]
  constructor
  · rintro ⟨i, hi, rfl, rfl⟩
    exact ⟨rfl, by omega⟩
  · rintro ⟨rfl, hi⟩
    exact ⟨index, by omega, rfl, rfl⟩

/-- The points of a block up to one of them, that one, and the rest. -/
theorem points_split (g : Graph) {p : Point} (h : p.index ≤ g.last p.block) :
    ∃ after, g.points p.block =
      ((List.range p.index).map fun i => (⟨p.block, i⟩ : Point)) ++ p :: after := by
  obtain ⟨n, hn⟩ := Nat.exists_eq_add_of_le h
  refine ⟨(List.range n).map fun i => ⟨p.block, p.index + (i + 1)⟩, ?_⟩
  unfold points
  rw [hn, Nat.add_assoc, List.range_add, List.range_succ_eq_map]
  simp [List.map_map, Function.comp_def]

theorem mem_allPoints {p : Point} :
    p ∈ g.allPoints ↔ p.block ∈ g.reachable ∧ p.index ≤ g.last p.block := by
  simp only [allPoints, List.mem_flatMap, mem_points]
  constructor
  · rintro ⟨b, hb, rfl, hi⟩
    exact ⟨hb, hi⟩
  · rintro ⟨hb, hi⟩
    exact ⟨p.block, hb, rfl, hi⟩

theorem entry_mem_allPoints (g : Graph) : ⟨g.entry, 0⟩ ∈ g.allPoints :=
  mem_allPoints.mpr ⟨g.entry_mem_reachable, Nat.zero_le _⟩

/-- A successor is the next point of the block, or the first point of a block that an edge leads to. -/
theorem mem_pointSuccessors {p q : Point} : q ∈ g.pointSuccessors p ↔
    (p.index ≠ g.last p.block ∧ q = ⟨p.block, p.index + 1⟩) ∨
      (p.index = g.last p.block ∧ ∃ b ∈ (g.successors p.block).filter g.isReachable, q = ⟨b, 0⟩) := by
  unfold pointSuccessors isTerminator
  by_cases h : p.index = g.last p.block
  · simp only [h, decide_true, if_true, List.mem_map, ne_eq, not_true_eq_false, false_and, true_and,
      false_or]
    exact ⟨fun ⟨b, hb, he⟩ => ⟨b, hb, he.symm⟩, fun ⟨b, hb, he⟩ => ⟨b, hb, he.symm⟩⟩
  · simp [h]

theorem successor_mem_allPoints {p q : Point} (hp : p ∈ g.allPoints) (hq : q ∈ g.pointSuccessors p) :
    q ∈ g.allPoints := by
  obtain ⟨hb, hi⟩ := mem_allPoints.mp hp
  rcases mem_pointSuccessors.mp hq with ⟨hne, rfl⟩ | ⟨_, b, hmem, rfl⟩
  · exact mem_allPoints.mpr ⟨hb, by simp only; omega⟩
  · exact mem_allPoints.mpr ⟨successors_reachable hb (List.mem_filter.mp hmem).1, Nat.zero_le _⟩

/-- Control can go from one point to the next: along the block, or along an edge out of it. -/
inductive Follows (g : Graph) : Point → Point → Prop where
  | along {b i : Nat} (h : i < g.last b) : Follows g ⟨b, i⟩ ⟨b, i + 1⟩
  | across {b c i : Nat} (hi : i = g.last b) (h : c ∈ g.successors b) : Follows g ⟨b, i⟩ ⟨c, 0⟩

theorem follows_of_mem {p q : Point} (hle : p.index ≤ g.last p.block) (hq : q ∈ g.pointSuccessors p) :
    g.Follows p q := by
  obtain ⟨block, index⟩ := p
  rcases mem_pointSuccessors.mp hq with ⟨hne, rfl⟩ | ⟨hlast, b, hb, rfl⟩
  · exact .along (by simp only at hne hle; omega)
  · exact .across hlast (List.mem_filter.mp hb).1

/-- No block that the search lists is marked unreachable. -/
def Pruned (g : Graph) : Prop := ∀ b ∈ g.reachable, g.isReachable b = true

theorem visit_mark (g : Graph) (marked : List Nat) (fuel : Nat) (acc : List Nat × List Nat) (b : Nat) :
    { g with unreachable := marked }.visit fuel acc b = g.visit fuel acc b := by
  induction fuel generalizing acc b with
  | zero => rfl
  | succ fuel ih =>
    obtain ⟨seen, order⟩ := acc
    have hvisit : { g with unreachable := marked }.visit fuel = g.visit fuel := by
      funext acc b
      exact ih acc b
    rw [visit, visit, hvisit]
    rfl

theorem reachable_mark (g : Graph) (marked : List Nat) : { g with unreachable := marked }.reachable = g.reachable := by
  simp only [reachable, visit_mark]

/-- The blocks of a lowered function that the search does not list are marked, by their numbers. -/
theorem unreachable_of_graph {f : Function} (h : f.graph = .ok g) :
    g.unreachable = (g.blocks.map BasicBlock.id).filter (!g.reachable.contains ·) := by
  simp only [Function.graph, Function.graphBy, Outcome.bind_eq_ok, Outcome.pure_eq, Except.ok.injEq] at h
  obtain ⟨d, _, rfl⟩ := h
  exact congrArg (fun seen : List Nat => List.filter (!seen.contains ·) _)
    (reachable_mark { blocks := _, entry := 0, exit := 1, backEdges := _ } _).symm

theorem pruned_of_graph {f : Function} (h : f.graph = .ok g) : g.Pruned := by
  intro b hb
  simp [isReachable, unreachable_of_graph h, hb]

theorem Follows.mem_pointSuccessors (hg : g.Pruned) {p q : Point} (hp : p ∈ g.allPoints)
    (h : g.Follows p q) : q ∈ g.pointSuccessors p := by
  cases h with
  | along h => exact Graph.mem_pointSuccessors.mpr (.inl ⟨Nat.ne_of_lt h, rfl⟩)
  | @across b c _ hi h =>
    have hc := successors_reachable (mem_allPoints.mp hp).1 h
    exact Graph.mem_pointSuccessors.mpr (.inr ⟨hi, c, List.mem_filter.mpr ⟨h, hg c hc⟩, rfl⟩)

variable {σ : Type} {start : σ → Prop} {step : Point → Point → σ → σ → Prop}

/-- Some path from the entry reaches a point with a state: it starts in a state that
`start` allows, and going from one point to the next changes it as `step` says. -/
inductive Reaches (g : Graph) (start : σ → Prop) (step : Point → Point → σ → σ → Prop) :
    Point → σ → Prop where
  | entry {s : σ} (h : start s) : Reaches g start step ⟨g.entry, 0⟩ s
  | next {p q : Point} {s t : σ} (h : Reaches g start step p s) (edge : g.Follows p q)
      (hs : step p q s t) : Reaches g start step q t

/-- What holds at the entry and along every edge holds wherever a path leads. -/
theorem Reaches.invariant (hg : g.Pruned) (inv : Point → σ → Prop)
    (hstart : ∀ s, start s → inv ⟨g.entry, 0⟩ s)
    (hstep : ∀ p q s t, p ∈ g.allPoints → inv p s → q ∈ g.pointSuccessors p → step p q s t → inv q t)
    {p : Point} {s : σ} (h : g.Reaches start step p s) : p ∈ g.allPoints ∧ inv p s := by
  induction h with
  | entry h => exact ⟨g.entry_mem_allPoints, hstart _ h⟩
  | next _ edge hs ih =>
    have hsucc := edge.mem_pointSuccessors hg ih.1
    exact ⟨successor_mem_allPoints ih.1 hsucc, hstep _ _ _ _ ih.1 ih.2 hsucc hs⟩

/-- Where every edge can be taken, some path reaches each listed point. -/
theorem exists_reaches (hstart : ∃ s, start s) (hstep : ∀ p q s, ∃ t, step p q s t) {p : Point}
    (hp : p ∈ g.allPoints) : ∃ s, g.Reaches start step p s := by
  have hnext : ∀ {p q : Point}, (∃ s, g.Reaches start step p s) → g.Follows p q →
      ∃ s, g.Reaches start step q s := by
    rintro p q ⟨s, hs⟩ hpq
    obtain ⟨t, ht⟩ := hstep p q s
    exact ⟨t, hs.next hpq ht⟩
  have halong : ∀ {b i : Nat}, (∃ s, g.Reaches start step ⟨b, 0⟩ s) → i ≤ g.last b →
      ∃ s, g.Reaches start step ⟨b, i⟩ s := by
    intro b i hb
    induction i with
    | zero => exact fun _ => hb
    | succ i ih => exact fun hi => hnext (ih (Nat.le_of_succ_le hi)) (.along hi)
  obtain ⟨hb, hi⟩ := mem_allPoints.mp hp
  refine halong (reachable_induction (fun b => ∃ s, g.Reaches start step ⟨b, 0⟩ s) ?_ ?_ hb) hi
  · exact hstart.imp fun _ h => .entry h
  · exact fun b c hb hc => hnext (halong hb (Nat.le_refl _)) (.across rfl hc)

end Graph

/-- The accesses of a list, made one after the other, take one state to another. -/
inductive Acts {σ : Type} (act : Access → σ → σ → Prop) : List Access → σ → σ → Prop where
  | nil (s : σ) : Acts act [] s s
  | cons {a : Access} {rest : List Access} {s t u : σ} (h : act a s t) (hrest : Acts act rest t u) :
      Acts act (a :: rest) s u

namespace Acts

variable {σ : Type} {act : Access → σ → σ → Prop} {as bs : List Access} {s t u : σ}

theorem append (h : Acts act as s t) (k : Acts act bs t u) : Acts act (as ++ bs) s u := by
  induction h with
  | nil => exact k
  | cons h _ ih => exact .cons h (ih k)

theorem total (h : ∀ a s, ∃ t, act a s t) (as : List Access) (s : σ) : ∃ t, Acts act as s t := by
  induction as generalizing s with
  | nil => exact ⟨s, .nil s⟩
  | cons a as ih =>
    obtain ⟨t, ht⟩ := h a s
    obtain ⟨u, hu⟩ := ih t
    exact ⟨u, .cons ht hu⟩

end Acts

end Ownership
