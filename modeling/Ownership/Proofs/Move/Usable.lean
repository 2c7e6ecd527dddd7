import Ownership.Proofs.Move.Joins
import Ownership.Proofs.Place.Blurred

/-!
Joins are exact on what can be used. Overlap of places is not transitive where positions are
unknown: a join could store a place as gone because of an entry around it, and thereby take away
places that neither of the two states takes away. It does not, since in the states that arise in
tracking a place with unknown positions is never stored as initialized. So what a join marks anew is an
exact place, and the entry that it is marked for overlaps all that the place overlaps.
-/
namespace Ownership

namespace MoveState

variable {s t u : MoveState} {p : Place} {cx : Context}

theorem stateOf_eq_init_iff (h : s.Distinct) : s.stateOf p = .init ↔ ¬s.Blocked p ∧ ¬s.Dented p := by
  rw [← blocker?_isSome_iff h, ← dents_isSome_iff h]
  unfold stateOf lookup
  cases hb : s.blocker? p with
  | some e => simpa using blocks_not_init (blocker?_mem hb).2
  | none => cases s.entries.find? (·.dents p) <;> simp

theorem stateOf_eq_partly_iff (hs : s.Plain) (h : s.Distinct) :
    s.stateOf p = .partly ↔ ¬s.Blocked p ∧ s.Dented p := by
  rw [← blocker?_isSome_iff h, ← dents_isSome_iff h]
  unfold stateOf lookup
  cases hb : s.blocker? p with
  | some e => simpa using hs e (blocker?_mem hb).1
  | none => cases s.entries.find? (·.dents p) <;> simp

/-- A place is moved or was never set just if a marked place lies around it. -/
theorem stateOf_gone_iff (hs : s.Plain) (h : s.Distinct) :
    s.stateOf p = .moved ∨ s.stateOf p = .uninit ↔ s.Blocked p := by
  have hinit := stateOf_eq_init_iff h (p := p)
  have hpartly := stateOf_eq_partly_iff hs h (p := p)
  cases hstate : s.stateOf p <;> simp_all

/-- Where a part is stored as never set, so is its root, or it was moved. -/
theorem Regular.blocked_root (h : s.Regular) {e : MoveEntry} (he : e ∈ s.entries) (hstate : e.state = .uninit) :
    s.Blocked e.place.bare := by
  refine blocked_of_marks (h.uninit e.place ?_)
  rw [cell?, find?_of_mem h.distinct he, Option.map_some, hstate]

/-- Every stored place is typed and spelled by some expression, and exact if it is stored as initialized. -/
structure Placed (cx : Context) (s : MoveState) : Prop where
  typed : ∀ e ∈ s.entries, ∃ ty, cx.PlaceType e.place ty
  spelled : ∀ e ∈ s.entries, e.place.Spelled
  exact : ∀ e ∈ s.entries, e.state = .init → e.place.isExact = true

theorem placed_initialMoves (cx : Context) : (initialMoves cx.function).Placed cx := by
  have hentry : ∀ e ∈ (initialMoves cx.function).entries, ∃ id b, cx.function.bindings.get? id = some b ∧
      e.place = { root := id, name := b.name } := by
    intro e he
    obtain ⟨⟨id, b⟩, hmem, rfl⟩ := List.mem_map.mp he
    exact ⟨id, b, OrderedMap.get?_eq_some_of_mem hmem, rfl⟩
  refine ⟨fun e he => ?_, fun e he => ?_, fun e he _ => ?_⟩
  all_goals obtain ⟨id, b, hget, hplace⟩ := hentry e he; rw [hplace]
  · exact ⟨b.ty, Context.placeType_root hget b.name⟩
  · exact Place.spelled_root id b.name
  · rfl

theorem Placed.put (h : s.Placed cx) (hty : ∃ ty, cx.PlaceType p ty) (hp : p.Spelled) {state : PlaceState}
    {site : Option Span} (hexact : state = .init → p.isExact = true) : (s.put p state site).Placed cx := by
  have hentry : ∀ e ∈ (s.put p state site).entries, e ∈ s.entries ∨ e = ⟨p, state, site⟩ := fun e he =>
    (List.mem_append.mp he).imp (fun he => (List.mem_filter.mp he).1) List.mem_singleton.mp
  refine ⟨fun e he => ?_, fun e he => ?_, fun e he => ?_⟩
  all_goals rcases hentry e he with he | rfl
  · exact h.typed e he
  · exact hty
  · exact h.spelled e he
  · exact hp
  · exact h.exact e he
  · exact hexact

theorem Placed.apply (h : s.Placed cx) {f : Function} {ids : List BindingId} {a : Access} (ha : a.Placed cx ids) :
    (s.apply f a).Placed cx := by
  unfold MoveState.apply
  split
  · exact h
  · cases a.kind with
    | declare | storageDead => exact h.put ha.typed ha.spelled (by simp)
    | move => exact h.put ha.typed ha.spelled (by simp)
    | init | write =>
      simp only [setInit]
      split
      · rename_i hexact
        exact h.put ha.typed ha.spelled fun _ => hexact
      · exact h
    | inspect | borrowShared | borrowMut | read => exact h

/-- An entry of a join is about a place that one of the two states stores. -/
theorem mem_merged {e : MoveEntry} (he : e ∈ (s.merged t).entries) :
    (∃ d, (d ∈ s.entries ∨ d ∈ t.entries) ∧ d.place = e.place) ∧
      e.state = (s.ownState e.place).join (t.ownState e.place) := by
  obtain ⟨p, hp, rfl⟩ := List.mem_map.mp he
  refine ⟨?_, rfl⟩
  rcases List.mem_append.mp hp with hp | hp
  · obtain ⟨d, hd, rfl⟩ := List.mem_map.mp hp
    exact ⟨d, .inl hd, rfl⟩
  · obtain ⟨d, hd, rfl⟩ := List.mem_map.mp hp
    exact ⟨d, .inr (List.mem_filter.mp hd).1, rfl⟩

theorem Placed.merged (hs : s.Placed cx) (ht : t.Placed cx) (hsp : s.Plain) (htp : t.Plain) :
    (s.merged t).Placed cx := by
  refine ⟨fun e he => ?_, fun e he => ?_, fun e he hinit => ?_⟩
  all_goals obtain ⟨⟨d, hd, hplace⟩, hstate⟩ := mem_merged he; rw [← hplace]
  · exact hd.elim (hs.typed d) (ht.typed d)
  · exact hd.elim (hs.spelled d) (ht.spelled d)
  · have hd' : d.state = .init := by
      by_contra hgone
      rw [← hplace] at hstate
      exact join_of_mem hsp htp hd hgone d.place.same_refl (hstate.symm.trans hinit)
    exact hd.elim (hs.exact d · hd') (ht.exact d · hd')

theorem Placed.perm (hs : s.Placed cx) (h : s.entries.Perm t.entries) : t.Placed cx :=
  ⟨fun e he => hs.typed e (h.mem_iff.mpr he), fun e he => hs.spelled e (h.mem_iff.mpr he),
    fun e he => hs.exact e (h.mem_iff.mpr he)⟩

theorem Arises.placed {g : Graph} {fx : EffectMap} (hfx : cx.effects g = .ok fx)
    (h : s.Arises cx.function g fx) : s.Placed cx := by
  induction h with
  | start => exact placed_initialMoves cx
  | apply _ hp ha ih => exact ih.apply (Context.accesses_placed hfx hp _ ha)
  | join hs ht hperm ihs iht =>
    exact (ihs.merged iht (hs.regular hfx).plain (ht.regular hfx).plain).perm hperm

/-- What a join marks blurs back to what one of the two states marks. -/
theorem Placed.marked_of_merged (hs : s.Placed cx) (ht : t.Placed cx) (hsd : s.Distinct) (htd : t.Distinct)
    {e : MoveEntry} (he : e ∈ (s.merged t).entries) (hstate : e.state ≠ .init) :
    ∃ d, (d ∈ s.entries ∨ d ∈ t.entries) ∧ d.state ≠ .init ∧ d.place.root = e.place.root ∧
      Blurs d.place.path e.place.path := by
  obtain ⟨⟨c, hc, hplace⟩, hjoin⟩ := mem_merged he
  rw [← hplace] at hjoin ⊢
  by_cases hgone : c.state = .init
  · have hexact := hc.elim (hs.exact c · hgone) (ht.exact c · hgone)
    obtain ⟨ty, hty⟩ := hc.elim (hs.typed c) (ht.typed c)
    have hspelled := hc.elim (hs.spelled c) (ht.spelled c)
    have hblocked : s.Blocked c.place ∨ t.Blocked c.place := by
      by_contra hfree
      rw [not_or] at hfree
      rw [hjoin, (ownState_eq_init_iff hsd).mpr hfree.1, (ownState_eq_init_iff htd).mpr hfree.2] at hstate
      exact hstate rfl
    rw [blocked_iff hsd, blocked_iff htd] at hblocked
    rcases hblocked with ⟨d, hd, hmarked, haround⟩ | ⟨d, hd, hmarked, haround⟩
    · obtain ⟨_, hdty⟩ := hs.typed d hd
      exact ⟨d, .inl hd, hmarked, Place.blurs_of_compare hdty (hs.spelled d hd) hty hspelled hexact haround⟩
    · obtain ⟨_, hdty⟩ := ht.typed d hd
      exact ⟨d, .inr hd, hmarked, Place.blurs_of_compare hdty (ht.spelled d hd) hty hspelled hexact haround⟩
  · exact ⟨c, hc, hgone, rfl, .refl _⟩

theorem overlapped_iff (h : s.Distinct) : s.Blocked p ∨ s.Dented p ↔
    ∃ e ∈ s.entries, e.state ≠ .init ∧ e.place.conflicts p = true := by
  rw [blocked_iff h, dented_iff h, ← exists_or]
  refine exists_congr fun e => ?_
  cases hc : e.place.compare p <;> simp [Place.conflicts, hc]

section

variable (hs : s.Placed cx) (ht : t.Placed cx) (hsr : s.Regular) (htr : t.Regular)
include hs ht hsr htr

/-- A join blocks exactly the places that one of the two states blocks. -/
theorem blocked_merged : (s.merged t).Blocked p ↔ s.Blocked p ∨ t.Blocked p := by
  constructor
  · intro h
    obtain ⟨e, he, hstate, haround⟩ := (blocked_iff (distinct_merged hsr.distinct htr.distinct)).mp h
    obtain ⟨d, hd, hmarked, hroot, hblurs⟩ := hs.marked_of_merged ht hsr.distinct htr.distinct he hstate
    have haround' := Place.around_of_blurs hroot hblurs haround
    rw [blocked_iff hsr.distinct, blocked_iff htr.distinct]
    exact hd.imp (⟨d, ·, hmarked, haround'⟩) (⟨d, ·, hmarked, haround'⟩)
  · rintro (⟨q, hq, haround⟩ | ⟨q, hq, haround⟩)
    · exact ⟨q, marks_merged hsr htr (.inl hq), haround⟩
    · exact ⟨q, marks_merged hsr htr (.inr hq), haround⟩

/-- Where neither state blocks a place, a join finds it partly gone just if one of them does. -/
theorem dented_merged (hfree : ¬s.Blocked p) (hfree' : ¬t.Blocked p) :
    (s.merged t).Dented p ↔ s.Dented p ∨ t.Dented p := by
  constructor
  · intro h
    obtain ⟨e, he, hstate, hc⟩ := (overlapped_iff (distinct_merged hsr.distinct htr.distinct)).mp (.inr h)
    obtain ⟨d, hd, hmarked, hroot, hblurs⟩ := hs.marked_of_merged ht hsr.distinct htr.distinct he hstate
    have hc' := Place.conflicts_of_blurs hroot hblurs hc
    refine hd.imp (fun hd => ?_) fun hd => ?_
    · exact ((overlapped_iff hsr.distinct).mpr ⟨d, hd, hmarked, hc'⟩).resolve_left hfree
    · exact ((overlapped_iff htr.distinct).mpr ⟨d, hd, hmarked, hc'⟩).resolve_left hfree'
  · rintro (⟨q, hq, hwithin⟩ | ⟨q, hq, hwithin⟩)
    · exact ⟨q, marks_merged hsr htr (.inl hq), hwithin⟩
    · exact ⟨q, marks_merged hsr htr (.inr hq), hwithin⟩

end

end MoveState

/-- In the join of two states that arise in tracking, whatever the order of the entries, a place is initialized
exactly when it is so in both states, and partly gone exactly when neither state has it as moved or never set and
one of them has it as partly gone. In every state that arises, only exact places are stored as initialized, and
below a root that is not gone no place is stored as never set. -/
theorem join_usable {cx : Context} {g : Graph} {fx : EffectMap} (hfx : cx.effects g = .ok fx)
    {s t u : MoveState} (hs : s.Arises cx.function g fx)
    (ht : t.Arises cx.function g fx) (hu : (s.merged t).entries.Perm u.entries) (p : Place) :
    (u.stateOf p = .init ↔ s.stateOf p = .init ∧ t.stateOf p = .init) ∧
      (u.stateOf p = .partly ↔ (s.stateOf p ≠ .moved ∧ s.stateOf p ≠ .uninit) ∧
        (t.stateOf p ≠ .moved ∧ t.stateOf p ≠ .uninit) ∧ (s.stateOf p = .partly ∨ t.stateOf p = .partly)) ∧
      ∀ e ∈ s.entries, (e.state = .init → e.place.isExact = true) ∧
        (e.state = .uninit → s.stateOf e.place.bare = .moved ∨ s.stateOf e.place.bare = .uninit) := by
  have hsr := hs.regular hfx
  have htr := ht.regular hfx
  have hsp := hs.placed hfx
  have htp := ht.placed hfx
  have hmerged := hsr.merged htr
  have hur := hmerged.perm hu
  have hlike := hmerged.alike_of_perm hu
  have hblocked : u.Blocked p ↔ s.Blocked p ∨ t.Blocked p :=
    (hlike.blocked p).symm.trans (MoveState.blocked_merged hsp htp hsr htr)
  have hdented : ¬s.Blocked p → ¬t.Blocked p → (u.Dented p ↔ s.Dented p ∨ t.Dented p) := fun h h' =>
    (hlike.dented p).symm.trans (MoveState.dented_merged hsp htp hsr htr h h')
  have hgone : ∀ {v : MoveState}, v.Regular → (v.stateOf p ≠ .moved ∧ v.stateOf p ≠ .uninit ↔ ¬v.Blocked p) :=
    fun hv => not_or.symm.trans (not_congr (MoveState.stateOf_gone_iff hv.plain hv.distinct))
  refine ⟨?_, ?_, fun e he => ⟨hsp.exact e he, fun hstate => ?_⟩⟩
  · rw [MoveState.stateOf_eq_init_iff hur.distinct, MoveState.stateOf_eq_init_iff hsr.distinct,
      MoveState.stateOf_eq_init_iff htr.distinct, hblocked]
    grind
  · rw [hgone hsr, hgone htr, MoveState.stateOf_eq_partly_iff hur.plain hur.distinct,
      MoveState.stateOf_eq_partly_iff hsr.plain hsr.distinct, MoveState.stateOf_eq_partly_iff htr.plain htr.distinct,
      hblocked]
    grind
  · exact (MoveState.stateOf_gone_iff hsr.plain hsr.distinct).mpr (hsr.blocked_root he hstate)

def takeCellGraph : Graph := takeCell.function.graph.toOption.getD default

def takeCellEffects : EffectMap := (takeCell.effects takeCellGraph).toOption.getD default

/-- The state after the branch that takes the cell of some row. -/
def takeCellTaken : MoveState :=
  (initialMoves takeCell.function).applyAll takeCell.function (takeCellEffects.accesses ⟨2, 0⟩)

/-- The state after the branch that sets the cell of the first row. -/
def takeCellSet : MoveState :=
  (initialMoves takeCell.function).applyAll takeCell.function (takeCellEffects.accesses ⟨3, 0⟩)

/-- The join has the first row as partly gone, since one state has, and the position as initialized, since both
have. -/
theorem join_usable_takeCell :
    let join : MoveState := ⟨(takeCellTaken.merged takeCellSet).entries.reverse⟩
    let row : Place := { root := 1, path := [.element 0], name := "v" }
    takeCellTaken.stateOf row = .partly ∧ takeCellSet.stateOf row = .init ∧ join.stateOf row = .partly ∧
      join.stateOf { root := 2, name := "i" } = .init := by
  intro join row
  have hfx : takeCell.effects takeCellGraph = .ok takeCellEffects := Outcome.eq_ok_getD _ (by decide +kernel)
  have htaken : takeCellTaken.Arises takeCell.function takeCellGraph takeCellEffects :=
    MoveState.Arises.start.applyAll (by decide +kernel)
  have hset : takeCellSet.Arises takeCell.function takeCellGraph takeCellEffects :=
    MoveState.Arises.start.applyAll (by decide +kernel)
  have hjoin := join_usable hfx htaken hset (List.reverse_perm _).symm
  have hrow : takeCellTaken.stateOf row = .partly := by decide +kernel
  have hrow' : takeCellSet.stateOf row = .init := by decide +kernel
  refine ⟨hrow, hrow', (hjoin row).2.1.mpr ?_, (hjoin _).1.mpr ⟨by decide +kernel, by decide +kernel⟩⟩
  rw [hrow, hrow']
  decide

end Ownership
