import Ownership.Proofs.Graph.Paths
import Ownership.Proofs.Outcome
import Ownership.Proofs.Worklist
import Ownership.Region.Liveness

/-!
Exact liveness. A binding is live before a point when some path leads from
there to a use of the binding and nothing on the way gives it a new value. The
backward search finds exactly these points.
-/
namespace Ownership

open Outcome

/-- Some path from the point uses the binding before anything defines it. -/
inductive LiveAt (g : Graph) (fx : EffectMap) (b : BindingId) : Point → Prop where
  | use {p : Point} {a : Access} (ha : a ∈ fx.accesses p) (hroot : a.place.root = b)
      (hd : a.defines = false) : LiveAt g fx b p
  | pass {p q : Point} (edge : g.Follows p q) (hq : LiveAt g fx b q)
      (hd : ∀ a ∈ fx.accesses p, a.place.root = b → a.defines = false) : LiveAt g fx b p

namespace Graph

variable {g : Graph}

theorem pointPredecessors_index {p q : Point} (hq : q.index ≤ g.last q.block)
    (h : p ∈ g.pointPredecessors q) : p.index ≤ g.last p.block := by
  unfold pointPredecessors at h
  split at h
  · rename_i i hi
    rw [List.mem_singleton.mp h]
    simp only
    omega
  · obtain ⟨b, _, rfl⟩ := List.mem_map.mp h
    exact Nat.le_refl _

/-- Predecessors are where the edges into a point come from. -/
theorem mem_pointPredecessors (hg : g.Pruned) {p q : Point} (hp : p ∈ g.allPoints)
    (hq : q ∈ g.pointSuccessors p) : p ∈ g.pointPredecessors q := by
  obtain ⟨block, index⟩ := p
  rcases mem_pointSuccessors.mp hq with ⟨_, rfl⟩ | ⟨hlast, b, hb, rfl⟩
  · simp [pointPredecessors]
  · obtain ⟨hsucc, _⟩ := List.mem_filter.mp hb
    have hblock : block < g.blocks.length := by
      apply Nat.lt_of_not_le
      intro hstray
      rw [successors_of_stray hstray] at hsucc
      cases hsucc
    have hpred : block ∈ g.predecessors b := by
      refine List.mem_flatMap.mpr ⟨block, List.mem_range.mpr hblock, ?_⟩
      exact List.mem_filterMap.mpr ⟨b, hsucc, by simp⟩
    have hreach := hg block (mem_allPoints.mp hp).1
    exact List.mem_map.mpr ⟨block, List.mem_filter.mpr ⟨hpred, hreach⟩, by rw [← hlast]⟩

end Graph

namespace LiveProblem

variable {l : LiveProblem} {b : BindingId} {p : Point}

theorem uses_iff : l.uses p b = true ↔
    ∃ a ∈ l.effects.accesses p, a.place.root = b ∧ a.defines = false := by
  simp [uses]

theorem kills_iff : l.kills p b = true ↔
    (∃ a ∈ l.effects.accesses p, a.place.root = b ∧ a.defines = true) ∧ l.uses p b = false := by
  simp [kills]

theorem mem_before {s : LiveSearch} : b ∈ l.before s p ↔ b ∈ l.tracked ∧
    (l.uses p b = true ∨ (∃ q ∈ l.graph.pointSuccessors p, b ∈ known s q) ∧ l.kills p b = false) := by
  simp [before]

def Sound (l : LiveProblem) (s : LiveSearch) : Prop :=
  ∀ p live, (p, live) ∈ s.live.entries → ∀ b ∈ live, LiveAt l.graph l.effects b p

theorem mem_known {s : LiveSearch} (h : b ∈ known s p) : ∃ live, (p, live) ∈ s.live.entries ∧ b ∈ live := by
  unfold known at h
  cases hl : s.live.get? p with
  | none => simp [hl] at h
  | some live =>
    rw [hl] at h
    exact ⟨live, OrderedMap.mem_entries_of_get? hl, h⟩

theorem before_live {s : LiveSearch} (hs : l.Sound s) (hp : p.index ≤ l.graph.last p.block) (h : b ∈ l.before s p) :
    LiveAt l.graph l.effects b p := by
  rcases (mem_before.mp h).2 with huse | ⟨⟨q, hq, hknown⟩, hkill⟩
  · obtain ⟨a, ha, hroot, hd⟩ := uses_iff.mp huse
    exact .use ha hroot hd
  · by_cases huse : l.uses p b = true
    · obtain ⟨a, ha, hroot, hd⟩ := uses_iff.mp huse
      exact .use ha hroot hd
    · obtain ⟨live, hmem, hb⟩ := mem_known hknown
      refine .pass (Graph.follows_of_mem hp hq) (hs q live hmem b hb) ?_
      intro a ha hroot
      rw [kills, Bool.and_eq_false_iff] at hkill
      rcases hkill with hnone | hused
      · have hany := List.any_eq_false.mp hnone a ha
        simpa [hroot] using hany
      · simp [huse] at hused

/-- The points that are not left to look at agree with what is known of their successors. -/
def Agrees (l : LiveProblem) (s : LiveSearch) : Prop :=
  ∀ p ∈ l.graph.allPoints, p ∈ s.queue ∨ ∀ b ∈ l.before s p, b ∈ known s p

/-- What a search keeps. -/
structure Settling (l : LiveProblem) (s : LiveSearch) : Prop where
  sound : l.Sound s
  agrees : l.Agrees s
  queue : ∀ p ∈ s.queue, p.index ≤ l.graph.last p.block

theorem start_settling (l : LiveProblem) : l.Settling l.start :=
  ⟨fun _ _ h => by simp [start] at h, fun _ hp => .inl (by simpa [start] using hp),
    fun p hp => (Graph.mem_allPoints.mp (by simpa [start] using hp : p ∈ l.graph.allPoints)).2⟩

/-- A visited point has what its successors ask for, and only its predecessors may be asked for
more. -/
theorem next_settling (hg : l.graph.Pruned) (s t : LiveSearch) (h : l.Settling s)
    (hn : l.next s = some t) : l.Settling t := by
  unfold next at hn
  split at hn
  · cases hn
  · rename_i p queue hqueue
    have hp : p.index ≤ l.graph.last p.block := h.queue p (by simp [hqueue])
    have hrest : ∀ q ∈ queue, q.index ≤ l.graph.last q.block := fun q hq => h.queue q (by simp [hqueue, hq])
    have hleft : ∀ q, q ≠ p → q ∈ s.queue → q ∈ queue := by
      intro q hqp hmem
      rw [hqueue] at hmem
      exact (List.mem_cons.mp hmem).resolve_left hqp
    simp only at hn
    split at hn
    · rename_i hsame
      obtain rfl := Option.some.inj hn
      refine ⟨h.sound, ?_, hrest⟩
      intro q hq
      by_cases hqp : q = p
      · subst hqp
        refine .inr fun b hb => ?_
        rw [known, hsame]
        exact hb
      · exact (h.agrees q hq).imp_left (hleft q hqp)
    · obtain rfl := Option.some.inj hn
      refine ⟨?_, ?_, ?_⟩
      · intro q live hmem b hb
        rcases OrderedMap.mem_insertInto hmem with he | hold
        · obtain ⟨rfl, rfl⟩ := Prod.mk.inj he
          exact before_live h.sound hp hb
        · exact h.sound q live hold b hb
      · intro q hq
        by_cases hsucc : p ∈ l.graph.pointSuccessors q
        · exact .inl (mem_foldl_addNew.mpr (.inr (Graph.mem_pointPredecessors hg hq hsucc)))
        · have hsame : ∀ b, b ∈ l.before
              { live := s.live.insert p (l.before s p),
                queue := (l.graph.pointPredecessors p).foldl enqueue queue } q → b ∈ l.before s q := by
            intro b hb
            rcases mem_before.mp hb with ⟨htracked, huse | ⟨⟨r, hr, hknown⟩, hkill⟩⟩
            · exact mem_before.mpr ⟨htracked, .inl huse⟩
            · have hne : r ≠ p := fun he => hsucc (he ▸ hr)
              refine mem_before.mpr ⟨htracked, .inr ⟨⟨r, hr, ?_⟩, hkill⟩⟩
              simpa [known, OrderedMap.get?_insert_other _ _ hne] using hknown
          by_cases hqp : q = p
          · subst hqp
            exact .inr fun b hb => by simpa [known] using hsame b hb
          · rcases h.agrees q hq with hmem | hagree
            · exact .inl (mem_foldl_addNew.mpr (.inl (hleft q hqp hmem)))
            · refine .inr fun b hb => ?_
              simpa [known, OrderedMap.get?_insert_other _ _ hqp] using hagree b (hsame b hb)
      · intro q hq
        rcases mem_foldl_addNew.mp hq with hq | hq
        · exact hrest q hq
        · exact Graph.pointPredecessors_index hp hq

end LiveProblem

section

variable {cx : Context} {g : Graph} {fx : EffectMap} {limit : Option Int} {live : Liveness}

theorem liveness_tracked (h : cx.liveness g fx limit = .ok live) : cx.trackedLocals = .ok live.tracked := by
  simp only [Context.liveness, bind_eq_ok, pure_eq, Except.ok.injEq] at h
  obtain ⟨tracked, htracked, _, _, rfl⟩ := h
  exact htracked

/-- The search finds exactly the points before which a tracked binding is live. A path that makes
the binding live is followed from its end backwards. -/
theorem mem_pointsOf_iff (hg : g.Pruned) (h : cx.liveness g fx limit = .ok live) {b : BindingId}
    (hb : b ∈ live.tracked) {p : Point} (hp : p ∈ g.allPoints) :
    p ∈ live.pointsOf b ↔ LiveAt g fx b p := by
  simp only [Context.liveness, bind_eq_ok, pure_eq, Except.ok.injEq] at h
  obtain ⟨tracked, _, ⟨search, budget⟩, hsettle, rfl⟩ := h
  obtain ⟨hset, hdone⟩ := Budget.settle_invariant
    (LiveProblem.next_settling (l := ⟨g, fx, tracked⟩) hg) (LiveProblem.start_settling _) hsettle
  have hqueue : search.queue = [] := by
    unfold LiveProblem.next at hdone
    split at hdone
    · assumption
    · simp only at hdone
      split at hdone <;> cases hdone
  constructor
  · intro h
    obtain ⟨⟨q, found⟩, hmem, rfl⟩ := List.mem_map.mp h
    obtain ⟨hentry, hcontains⟩ := List.mem_filter.mp hmem
    exact hset.sound q found hentry b (by simpa using hcontains)
  · intro hlive
    have hknown : b ∈ LiveProblem.known search p := by
      induction hlive with
      | @use q a ha hroot hd =>
        refine ((hset.agrees q hp).resolve_left (by simp [hqueue])) b ?_
        exact LiveProblem.mem_before.mpr ⟨hb, .inl (LiveProblem.uses_iff.mpr ⟨a, ha, hroot, hd⟩)⟩
      | @pass q r edge _ hd ih =>
        have hsucc := edge.mem_pointSuccessors hg hp
        refine ((hset.agrees q hp).resolve_left (by simp [hqueue])) b ?_
        refine LiveProblem.mem_before.mpr
          ⟨hb, .inr ⟨⟨r, hsucc, ih (Graph.successor_mem_allPoints hp hsucc)⟩, ?_⟩⟩
        rw [Bool.eq_false_iff]
        intro hkill
        obtain ⟨⟨a, ha, hroot, hdef⟩, _⟩ := LiveProblem.kills_iff.mp hkill
        simp [hd a ha hroot] at hdef
    obtain ⟨found, hmem, hfound⟩ := LiveProblem.mem_known hknown
    exact List.mem_map.mpr ⟨(p, found), List.mem_filter.mpr ⟨hmem, by simpa using hfound⟩, rfl⟩

end

end Ownership
