import Ownership.Proofs.Move.Termination

/-!
Joins of move states. The entries of a join may come in any order; which places are stored and
with which state does not depend on it. A join goes through the stored places one by one, but a
place has its state from the shallowest entry around it, so what a join makes of the root
decides for all that lies below: where the root may never have been set, a part of it that was
moved counts as never set.
-/
namespace Ownership

theorem Place.bare_of_root {p : Place} (h : p.path = []) : p.bare = p := by
  rw [bare, ← h]

theorem PlaceState.join_eq_uninit_iff {a b : PlaceState} :
    a.join b = .uninit ↔ (a = .uninit ∨ b = .uninit) ∧ a ≠ .moved ∧ b ≠ .moved := by
  cases a <;> cases b <;> simp [join]

theorem PlaceState.join_eq_moved_iff {a b : PlaceState} : a.join b = .moved ↔ a = .moved ∨ b = .moved := by
  cases a <;> cases b <;> simp [join]

namespace MoveState

variable {s t u : MoveState} {p : Place}

theorem Distinct.perm (hs : s.Distinct) (h : s.entries.Perm t.entries) : t.Distinct := by
  refine h.pairwise hs fun {d e} hde => Bool.eq_false_iff.mpr fun hed => ?_
  rw [Place.same_symm hed] at hde
  cases hde

/-- Where no place is stored twice, what is found does not depend on the order. -/
theorem find?_perm (hs : s.Distinct) (h : s.entries.Perm t.entries) (p : Place) : s.find? p = t.find? p := by
  cases hfound : s.find? p with
  | none =>
    refine (List.find?_eq_none.mpr fun e he => ?_).symm
    exact List.find?_eq_none.mp hfound e (h.mem_iff.mpr he)
  | some e =>
    obtain ⟨hmem, hsame⟩ := mem_of_find? hfound
    rw [← t.find?_congr hsame]
    exact (find?_of_mem (hs.perm h) (h.mem_iff.mp hmem)).symm

theorem Regular.alike_of_perm (hs : s.Regular) (h : s.entries.Perm t.entries) : s.Alike t := by
  have hfind := find?_perm hs.distinct h
  refine ⟨fun p => ?_, fun p => ?_, fun p => ?_⟩
  · rw [has, has, hfind]
  · rw [marks, marks, cell?, cell?, hfind]
  · rw [lost, lost, cell?, cell?, hfind]

theorem Regular.perm (hs : s.Regular) (h : s.entries.Perm t.entries) : t.Regular := by
  have hfind := find?_perm hs.distinct h
  refine ⟨fun e he => hs.plain e (h.mem_iff.mpr he), hs.distinct.perm h, fun p hp => ?_, fun p hp => ?_⟩
  · rw [sited, ← hfind] at hp
    rw [cell?, ← hfind]
    exact hs.site p hp
  · rw [cell?, ← hfind] at hp
    rw [← (hs.alike_of_perm h).marks]
    exact hs.uninit p hp

theorem stateOf_eq_iff {state : PlaceState} (hinit : state ≠ .init) (hpartly : state ≠ .partly) :
    s.stateOf p = state ↔ s.ownState p = state := by
  unfold stateOf lookup ownState
  cases s.blocker? p with
  | some e => rfl
  | none => cases s.entries.find? (·.dents p) <;> simp [hinit.symm, hpartly.symm]

theorem Distinct.blocked_of_moved (h : s.Distinct) (hown : s.ownState p = .moved) : s.Blocked p := by
  by_contra hfree
  rw [(ownState_eq_init_iff h).mpr hfree] at hown
  cases hown

/-- What was moved in one of two states is so in their join, unless the join makes the root one that may
never have been set. -/
theorem Regular.ownState_merged (hs : s.Regular) (ht : t.Regular)
    (h : s.ownState p = .moved ∨ t.ownState p = .moved) : (s.merged t).ownState p =
      if (s.ownState p.bare).join (t.ownState p.bare) = .uninit then .uninit else .moved := by
  have hmerged := hs.merged ht
  cases hm : (s.merged t).marks p.bare with
  | true =>
    have hcell := ownState_of_root hmerged.distinct hm
    have hhas := has_of_marks hm
    rw [has_merged] at hhas
    rw [cell?_merged, if_pos hhas, Option.some.injEq] at hcell
    have hinit : (s.merged t).ownState p ≠ .init := by
      rw [Ne, ownState_eq_init_iff hmerged.distinct, not_not]
      exact ⟨p.bare, hm, p.compare_bare⟩
    have hpartly := ownState_not_partly hmerged.plain (p := p)
    rw [hcell]
    cases hstate : (s.merged t).ownState p <;> simp_all
  | false =>
    have hroot : (s.ownState p.bare).join (t.ownState p.bare) ≠ .uninit := by
      intro hjoin
      have hmarks := marks_merged hs ht
        ((PlaceState.join_eq_uninit_iff.mp hjoin).1.imp hs.marks_bare ht.marks_bare)
      rw [show p.bare.bare = p.bare from rfl, hm] at hmarks
      cases hmarks
    have hblocked : (s.merged t).Blocked p := by
      rcases h.imp hs.distinct.blocked_of_moved ht.distinct.blocked_of_moved with ⟨q, hq, haround⟩ | ⟨q, hq, haround⟩
      · exact ⟨q, marks_merged hs ht (.inl hq), haround⟩
      · exact ⟨q, marks_merged hs ht (.inr hq), haround⟩
    rw [hmerged.ownState_of_blocked hm hblocked, if_neg hroot]

/-- The states that come from the first one by accesses of the function and by joins, whatever the order of
the entries of a join. -/
inductive Arises (f : Function) (g : Graph) (fx : EffectMap) : MoveState → Prop where
  | start : Arises f g fx (initialMoves f)
  | apply {s : MoveState} {p : Point} {a : Access} (h : Arises f g fx s) (hp : p ∈ g.allPoints)
      (ha : a ∈ fx.accesses p) : Arises f g fx (s.apply f a)
  | join {s t u : MoveState} (hs : Arises f g fx s) (ht : Arises f g fx t)
      (h : (s.merged t).entries.Perm u.entries) : Arises f g fx u

theorem Arises.applyAll {f : Function} {g : Graph} {fx : EffectMap} (h : s.Arises f g fx) {p : Point}
    (hp : p ∈ g.allPoints) : (s.applyAll f (fx.accesses p)).Arises f g fx := by
  have hall : ∀ as ⊆ fx.accesses p, ∀ s : MoveState, s.Arises f g fx → (s.applyAll f as).Arises f g fx := by
    intro as
    induction as with
    | nil => exact fun _ s hs => hs
    | cons a as ih =>
      intro hsub s hs
      obtain ⟨ha, hsub⟩ := List.cons_subset.mp hsub
      exact ih hsub _ (hs.apply hp ha)
  exact hall _ (List.Subset.refl _) s h

theorem Arises.regular {cx : Context} {g : Graph} {fx : EffectMap} (hfx : cx.effects g = .ok fx)
    (h : s.Arises cx.function g fx) : s.Regular := by
  induction h with
  | start => exact MoveProblem.regular_initialMoves cx.function
  | apply _ hp ha ih => exact ih.apply fun hk => access_root hfx hp ha (.inr hk)
  | join _ _ hperm ihs iht => exact (ihs.merged iht).perm hperm

end MoveState

/-- Where a place was moved in one of two states that arise in tracking, their join has it as moved, unless
the root of the place comes out as one that may never have been set: then so does the place. The order of
the entries does not matter, and for a root moved always wins. -/
theorem join_of_moved {cx : Context} {g : Graph} {fx : EffectMap} (hfx : cx.effects g = .ok fx)
    {s t u : MoveState} (hs : s.Arises cx.function g fx)
    (ht : t.Arises cx.function g fx) (hu : (s.merged t).entries.Perm u.entries) {p : Place}
    (h : s.stateOf p = .moved ∨ t.stateOf p = .moved) :
    u.stateOf p = (if (s.stateOf p.bare).join (t.stateOf p.bare) = .uninit then .uninit else .moved) ∧
      (p.path = [] → u.stateOf p = .moved) := by
  have hs := hs.regular hfx
  have ht := ht.regular hfx
  have hown : ∀ {v : MoveState} {q : Place}, v.stateOf q = .moved ↔ v.ownState q = .moved :=
    MoveState.stateOf_eq_iff (by simp) (by simp)
  have hown' : ∀ {v : MoveState} {q : Place}, v.stateOf q = .uninit ↔ v.ownState q = .uninit :=
    MoveState.stateOf_eq_iff (by simp) (by simp)
  have hroots : (s.stateOf p.bare).join (t.stateOf p.bare) = .uninit ↔
      (s.ownState p.bare).join (t.ownState p.bare) = .uninit := by
    simp only [PlaceState.join_eq_uninit_iff, Ne, hown, hown']
  have hmerged := hs.merged ht
  have hjoin : u.ownState p = if (s.ownState p.bare).join (t.ownState p.bare) = .uninit then .uninit else .moved :=
    ((hmerged.alike_of_perm hu).ownState hmerged (hmerged.perm hu) p).symm.trans
      (hs.ownState_merged ht (h.imp hown.mp hown.mp))
  have hstate : u.stateOf p = if (s.stateOf p.bare).join (t.stateOf p.bare) = .uninit then .uninit else .moved := by
    by_cases huninit : (s.ownState p.bare).join (t.ownState p.bare) = .uninit
    · rw [if_pos (hroots.mpr huninit), hown', hjoin, if_pos huninit]
    · rw [if_neg (mt hroots.mp huninit), hown, hjoin, if_neg huninit]
  refine ⟨hstate, fun hpath => ?_⟩
  rw [hstate, if_neg]
  rw [Place.bare_of_root hpath, PlaceState.join_eq_uninit_iff]
  exact fun hno => h.elim hno.2.1 hno.2.2

/-- Before the branch that sets the binding and takes a part of it. -/
def takePartUnset : MoveState :=
  (initialMoves takePart.function).applyAll takePart.function (takePartEffects.accesses ⟨0, 0⟩)

def takePartSet : MoveState := takePartUnset.applyAll takePart.function (takePartEffects.accesses ⟨5, 0⟩)

def takePartTaken : MoveState := takePartSet.applyAll takePart.function (takePartEffects.accesses ⟨5, 1⟩)

theorem takePart_arises : takePartUnset.Arises takePart.function takePartGraph takePartEffects ∧
    takePartSet.Arises takePart.function takePartGraph takePartEffects ∧
    takePartTaken.Arises takePart.function takePartGraph takePartEffects := by
  have hunset : takePartUnset.Arises takePart.function takePartGraph takePartEffects :=
    MoveState.Arises.start.applyAll (by decide +kernel)
  have hset : takePartSet.Arises takePart.function takePartGraph takePartEffects :=
    hunset.applyAll (by decide +kernel)
  exact ⟨hunset, hset, hset.applyAll (by decide +kernel)⟩

/-- The part that was taken from the binding. -/
def takenPart : Place := { root := 2, path := [.field "r"], name := "x" }

/-- Joined to a state in which the binding is set, the part is moved. -/
theorem join_of_moved_takePart :
    takePartTaken.stateOf takenPart = .moved ∧
      (⟨(takePartSet.merged takePartTaken).entries.reverse⟩ : MoveState).stateOf takenPart = .moved := by
  have hfx : takePart.effects takePartGraph = .ok takePartEffects := Outcome.eq_ok_getD _ (by decide +kernel)
  have hmoved : takePartTaken.stateOf takenPart = .moved := by decide +kernel
  have hjoin := (join_of_moved hfx takePart_arises.2.1 takePart_arises.2.2
    (List.reverse_perm _).symm (.inr hmoved)).1
  rw [if_neg (by decide +kernel)] at hjoin
  exact ⟨hmoved, hjoin⟩

/-- Joined to one in which the binding was never set, the part counts as never set, although it was moved. -/
theorem join_not_moved_takePart :
    takePartUnset.Arises takePart.function takePartGraph takePartEffects ∧
      takePartTaken.Arises takePart.function takePartGraph takePartEffects ∧
      (∃ ty, takePart.PlaceType takenPart ty) ∧ takePartTaken.stateOf takenPart = .moved ∧
      (takePartUnset.merged takePartTaken).stateOf takenPart = .uninit := by
  refine ⟨takePart_arises.1, takePart_arises.2.2, ⟨3, {}, ?_⟩, ?_⟩ <;> decide +kernel

end Ownership
