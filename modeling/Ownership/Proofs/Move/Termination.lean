import Mathlib.Tactic.GCongr
import Mathlib.Tactic.Ring
import Ownership.Proofs.Faults
import Ownership.Proofs.Graph.Order
import Ownership.Proofs.Move.Profile
import Ownership.Proofs.Progress

/-!
Move tracking comes to an end. A visit may change the state of a block without adding
to what counts, so it is not enough that states grow. But where a block has more than
one predecessor its changes only lead ahead, and a block with one predecessor takes
over what that one passes on and then stays as it is. So while nothing that counts is
added, the blocks left to visit run out.
-/
namespace Ownership

namespace MoveState

variable {s t out : MoveState} {places : List Place}

/-- Every stored place is listed. -/
def Listed (s : MoveState) (places : List Place) : Prop := ∀ e ∈ s.entries, ∃ p ∈ places, p.same e.place = true

theorem Listed.of_has (h : s.Listed places) {q : Place} (hq : s.has q = true) : ∃ p ∈ places, p.same q = true := by
  obtain ⟨e, he⟩ := Option.isSome_iff_exists.mp hq
  obtain ⟨hmem, hsame⟩ := mem_of_find? he
  obtain ⟨p, hp, hpe⟩ := h e hmem
  exact ⟨p, hp, Place.same_trans hpe hsame⟩

theorem Listed.merged (hs : s.Listed places) (ht : t.Listed places) : (s.merged t).Listed places := by
  intro e he
  obtain ⟨p, hp, rfl⟩ := List.mem_map.mp he
  rcases List.mem_append.mp hp with hp | hp
  · obtain ⟨d, hd, rfl⟩ := List.mem_map.mp hp
    exact hs d hd
  · obtain ⟨d, hd, rfl⟩ := List.mem_map.mp hp
    exact ht d (List.mem_filter.mp hd).1

theorem Listed.put (h : s.Listed places) {p : Place} (hp : p ∈ places) (state : PlaceState) (site : Option Span) :
    (s.put p state site).Listed places := by
  intro e he
  rcases List.mem_append.mp he with he | he
  · exact h e (List.mem_filter.mp he).1
  · rw [List.mem_singleton.mp he]
    exact ⟨p, hp, p.same_refl⟩

theorem Listed.apply (h : s.Listed places) {f : Function} {a : Access} (ha : a.place ∈ places) :
    (s.apply f a).Listed places := by
  unfold MoveState.apply
  split
  · exact h
  · cases a.kind with
    | declare | storageDead | move => exact h.put ha _ _
    | init | write =>
      simp only [setInit]
      split
      · exact h.put ha _ _
      · exact h
    | read | borrowShared | borrowMut | inspect => exact h

theorem Listed.applyAll (h : s.Listed places) {f : Function} {as : List Access} (ha : ∀ a ∈ as, a.place ∈ places) :
    (s.applyAll f as).Listed places := by
  induction as generalizing s with
  | nil => exact h
  | cons a as ih => exact ih (h.apply (ha a List.mem_cons_self)) fun b hb => ha b (List.mem_cons_of_mem a hb)

/-- How much of what counts is known of a block. -/
def reached (places : List Place) : Option MoveState → Nat
  | none => 0
  | some s => 1 + places.countP s.has + places.countP s.marks + places.countP s.lost

theorem reached_le (places : List Place) (s : Option MoveState) : reached places s ≤ 1 + 3 * places.length := by
  cases s with
  | none => exact Nat.zero_le _
  | some s =>
    have hhas := List.countP_le_length (p := s.has) (l := places)
    have hmarks := List.countP_le_length (p := s.marks) (l := places)
    have hlost := List.countP_le_length (p := s.lost) (l := places)
    simp only [reached]
    omega

section

variable (hs : s.Regular) (ht : t.Regular)

include hs ht

theorem countP_merged (places : List Place) : places.countP s.has ≤ places.countP (s.merged t).has ∧
    places.countP s.marks ≤ places.countP (s.merged t).marks ∧
    places.countP s.lost ≤ places.countP (s.merged t).lost := by
  refine ⟨?_, ?_, ?_⟩
  · exact List.countP_mono_left fun p _ hp => by rw [has_merged, hp]; rfl
  · exact List.countP_mono_left fun p _ hp => marks_merged hs ht (.inl hp)
  · exact List.countP_mono_left fun p _ hp => lost_merged hs hp

theorem reached_merged (places : List Place) : reached places (some s) ≤ reached places (some (s.merged t)) := by
  obtain ⟨hhas, hmarks, hlost⟩ := countP_merged hs ht places
  simp only [reached]
  omega

/-- A join that adds nothing that counts is like the state before it. -/
theorem alike_merged (hls : s.Listed places) (hlt : t.Listed places)
    (h : reached places (some s) = reached places (some (s.merged t))) : s.Alike (s.merged t) := by
  have hlisted := hls.merged hlt
  obtain ⟨hhas, hmarks, hlost⟩ := countP_merged hs ht places
  simp only [reached] at h
  have hhasOn : ∀ p ∈ places, s.has p = (s.merged t).has p := fun p hp =>
    eq_of_countP_eq (p := s.has) (fun q _ hq => by rw [has_merged, hq]; rfl) (by omega) hp
  have hmarksOn : ∀ p ∈ places, s.marks p = (s.merged t).marks p := fun p hp =>
    eq_of_countP_eq (p := s.marks) (q := (s.merged t).marks) (fun q _ hq => marks_merged hs ht (.inl hq)) (by omega) hp
  have hlostOn : ∀ p ∈ places, s.lost p = (s.merged t).lost p := fun p hp =>
    eq_of_countP_eq (p := s.lost) (q := (s.merged t).lost) (fun q _ hq => lost_merged hs hq) (by omega) hp
  have hboth : ∀ q, (∃ p ∈ places, p.same q = true) ∨ s.has q = false ∧ (s.merged t).has q = false := by
    intro q
    cases hq : (s.merged t).has q with
    | true => exact .inl (hlisted.of_has hq)
    | false =>
      refine .inr ⟨?_, rfl⟩
      rw [has_merged] at hq
      exact (Bool.or_eq_false_iff.mp hq).1
  have hnone : ∀ {u : MoveState} {q : Place}, u.has q = false → u.marks q = false ∧ u.lost q = false := by
    intro u q hq
    have hcell : u.cell? q = none := by
      rw [has, Option.isSome_eq_false_iff, Option.isNone_iff_eq_none] at hq
      rw [cell?, hq]
      rfl
    rw [marks, lost, hcell]
    exact ⟨rfl, Bool.and_false _⟩
  refine ⟨fun q => ?_, fun q => ?_, fun q => ?_⟩
  · rcases hboth q with ⟨p, hp, hsame⟩ | ⟨hq, hq'⟩
    · rw [← s.has_congr hsame, ← (s.merged t).has_congr hsame, hhasOn p hp]
    · rw [hq, hq']
  · rcases hboth q with ⟨p, hp, hsame⟩ | ⟨hq, hq'⟩
    · rw [← s.marks_congr hsame, ← (s.merged t).marks_congr hsame, hmarksOn p hp]
    · rw [(hnone hq).1, (hnone hq').1]
  · rcases hboth q with ⟨p, hp, hsame⟩ | ⟨hq, hq'⟩
    · rw [← s.lost_congr hsame, ← (s.merged t).lost_congr hsame, hlostOn p hp]
    · rw [(hnone hq).2, (hnone hq').2]

end

/-- Joining what is passed on changes the state that is stored for some place. -/
def stale (places : List Place) (out s : MoveState) : Bool :=
  places.any fun p => (s.merged out).cell? p ≠ s.cell? p

/-- How often the state may still change. -/
def owed (places : List Place) (out s : MoveState) : Nat :=
  (if stale places out s then places.length + 1 else 0) + places.countP (!s.sited ·)

theorem owed_le (places : List Place) (out s : MoveState) : owed places out s ≤ 2 * places.length + 1 := by
  have hle := List.countP_le_length (p := (!s.sited ·)) (l := places)
  unfold owed
  split <;> omega

theorem owed_congr (hs : s.Regular) (ht : t.Regular) (hout : out.Regular) (h : out.Alike t) :
    owed places t s = owed places out s := by
  have hstale : stale places t s = stale places out s := by
    unfold stale
    congr 1
    funext p
    rw [(Alike.refl s).cell?_merged h hs hs hout ht]
  rw [owed, owed, hstale]

/-- A join that adds nothing that counts and still changes the state leaves less to be owed. The
cells stay, so the change is in where places were moved from, and none of that is lost. -/
theorem owed_lt (hs : s.Regular) (hout : out.Regular) (ht : t.Regular) (hls : s.Listed places)
    (hlo : out.Listed places) (hsame : s.Alike (s.merged out)) (hot : out.Alike t)
    (hchanged : (s.merged out).sameAs s = false) : owed places t (s.merged out) < owed places out s := by
  have hcells : ∀ p, ((s.merged out).merged t).cell? p = (s.merged out).cell? p := fun p =>
    hsame.symm.cell?_merged hot.symm (hs.merged hout) hs ht hout p
  have hfresh : stale places t (s.merged out) = false := by
    simp only [stale, List.any_eq_false, hcells]
    simp
  have hle := List.countP_le_length (p := (!(s.merged out).sited ·)) (l := places)
  rw [owed, owed, hfresh]
  cases hstale : stale places out s with
  | true =>
    simp only [Bool.false_eq_true, if_false, if_true]
    omega
  | false =>
    have hlisted := hls.merged hlo
    have hstay : ∀ p, (s.merged out).cell? p = s.cell? p := by
      intro q
      cases hq : (s.merged out).has q with
      | true =>
        obtain ⟨p, hp, hpq⟩ := hlisted.of_has hq
        rw [← (s.merged out).cell?_congr hpq, ← s.cell?_congr hpq]
        simpa using List.any_eq_false.mp hstale p hp
      | false =>
        have hq' := (hsame.has q).trans hq
        rw [has, Option.isSome_eq_false_iff, Option.isNone_iff_eq_none] at hq hq'
        rw [cell?, cell?, hq, hq']
    have hkept : ∀ p, s.sited p = true → (s.merged out).sited p = true := by
      intro p hp
      have hcell := (hstay p).trans (hs.site p hp)
      rw [cell?_merged, has_of_sited hp] at hcell
      rw [sited_merged, hp, Option.some.inj hcell]
      rfl
    obtain ⟨q, hq⟩ : ∃ q, (s.merged out).sited q ≠ s.sited q := by
      by_contra hall
      have hall : ∀ q, (s.merged out).sited q = s.sited q := by simpa using hall
      rw [sameAs_of_cells (hs.merged hout).distinct hs.distinct hstay hall] at hchanged
      cases hchanged
    have hnew : (s.merged out).sited q = true := by
      cases hnow : (s.merged out).sited q with
      | true => rfl
      | false =>
        cases hold : s.sited q with
        | true => exact absurd (hkept q hold) (by simp [hnow])
        | false => exact absurd (hnow.trans hold.symm) hq
    have hold : s.sited q = false := by
      cases hold : s.sited q with
      | false => rfl
      | true => exact absurd (hnew.trans hold.symm) hq
    obtain ⟨p, hp, hpq⟩ := hlisted.of_has (has_of_sited hnew)
    have hlt : places.countP (!(s.merged out).sited ·) < places.countP (!s.sited ·) := by
      refine countP_lt_of_imp (x := p) ?_ hp ?_ ?_
      · intro r _ hr
        cases hsr : s.sited r with
        | false => rfl
        | true => simp [hkept r hsr] at hr
      · rw [(s.merged out).sited_congr hpq, hnew]
        rfl
      · rw [s.sited_congr hpq, hold]
        rfl
    simpa using hlt

end MoveState

namespace MoveProblem

open MoveState

variable {m : MoveProblem} {out : MoveState} {s t : MoveSearch} {b c x : Nat} {rank : Nat → Nat}

/-- The state that a block gets when another one is passed to it, if it is a new one. -/
def renewed (prev : Option MoveState) (out : MoveState) : Option MoveState :=
  if prev.any (prev.elim out (·.merged out)).sameAs then none else some (prev.elim out (·.merged out))

theorem get?_propagate (out : MoveState) (s : MoveSearch) (c x : Nat) : (propagate out s c).states.get? x =
    if x = c then (renewed (s.states.get? c) out).or (s.states.get? c) else s.states.get? x := by
  simp only [propagateBy, renewed]
  by_cases hx : x = c
  · subst hx
    rw [if_pos rfl]
    split
    · rfl
    · exact OrderedMap.get?_insert_self _ _ _
  · rw [if_neg hx]
    split
    · rfl
    · exact OrderedMap.get?_insert_other _ _ hx

theorem mem_propagate (out : MoveState) (s : MoveSearch) (c x : Nat) : x ∈ (propagate out s c).worklist ↔
    x ∈ s.worklist ∨ x = c ∧ (renewed (s.states.get? c) out).isSome = true := by
  simp only [propagateBy, renewed]
  split
  · simp
  · simp only [Option.isSome_some, and_true]
    by_cases hc : c ∈ s.worklist
    · simp only [List.contains_eq_mem, hc, decide_true, if_true]
      exact ⟨.inl, fun h => h.elim id fun he => he ▸ hc⟩
    · simp [hc]

/-- Passing a state to distinct blocks renews each of them from the state it had. -/
theorem foldl_propagate (out : MoveState) {cs : List Nat} (hcs : cs.Nodup) (s : MoveSearch) (x : Nat) :
    (cs.foldl (propagate out) s).states.get? x =
        (if x ∈ cs then (renewed (s.states.get? x) out).or (s.states.get? x) else s.states.get? x) ∧
      (x ∈ (cs.foldl (propagate out) s).worklist ↔
        x ∈ s.worklist ∨ x ∈ cs ∧ (renewed (s.states.get? x) out).isSome = true) := by
  induction cs generalizing s with
  | nil => simp
  | cons c cs ih =>
    obtain ⟨hc, hcs⟩ := List.nodup_cons.mp hcs
    obtain ⟨hget, hmem⟩ := ih hcs (propagate out s c)
    rw [List.foldl_cons, hget, hmem, get?_propagate, mem_propagate]
    by_cases hxc : x = c
    · subst hxc
      simp [hc]
    · simp [hxc]

/-- What a visit does: a block keeps its state and is not added to those left, or it is a successor
that is renewed with the state at the end of the visited block. -/
structure Visits (m : MoveProblem) (s t : MoveSearch) (b : Nat) : Prop where
  listed : b ∈ m.order
  left : b ∈ s.worklist
  each : ∀ c, t.states.get? c = s.states.get? c ∧ (c ∈ t.worklist → c ∈ s.worklist ∧ c ≠ b) ∨
    c ∈ m.graph.successors b ∧ ∃ y, t.states.get? c = some y ∧
      renewed (s.states.get? c) (m.transfer b ((s.states.get? b).getD {})) = some y

theorem next_visits (hg : m.graph.Ranked rank) (h : m.next s = some t) : ∃ b, m.Visits s t b := by
  obtain ⟨b, hb, rfl⟩ := Option.map_eq_some_iff.mp h
  refine ⟨b, List.mem_of_find?_eq_some hb, by simpa using List.find?_some hb, fun c => ?_⟩
  dsimp only
  obtain ⟨hget, hmem⟩ := foldl_propagate (m.transfer b ((s.states.get? b).getD {}))
    ((hg.distinct b).filter m.graph.isReachable) { s with worklist := s.worklist.filter (· ≠ b) } c
  rw [hget, hmem]
  cases hnew : renewed (s.states.get? c) (m.transfer b ((s.states.get? b).getD {})) with
  | none =>
    refine .inl ⟨by simp, fun hc => ?_⟩
    simpa using hc
  | some y =>
    by_cases hc : c ∈ (m.graph.successors b).filter m.graph.isReachable
    · exact .inr ⟨(List.mem_filter.mp hc).1, y, by simp [hc], rfl⟩
    · exact .inl ⟨by simp only [hc, if_false], fun hin => by simpa [hc] using hin⟩

/-- What tracking keeps: states are regular, store listed places only, and are there for the blocks left. -/
structure Tracking (m : MoveProblem) (s : MoveSearch) : Prop where
  known : ∀ b x, s.states.get? b = some x → b ∈ m.order
  regular : ∀ b x, s.states.get? b = some x → x.Regular
  listed : ∀ b x, s.states.get? b = some x → x.Listed m.places
  left : ∀ b ∈ s.worklist, ∃ x, s.states.get? b = some x

/-- The order lists all successors of its blocks, and storage ends and starts as a whole there. -/
structure Proper (m : MoveProblem) : Prop where
  closed : ∀ b ∈ m.order, ∀ c ∈ m.graph.successors b, c ∈ m.order
  rooted : ∀ b ∈ m.order, ∀ a ∈ m.blockAccesses b, a.kind = .declare ∨ a.kind = .storageDead → a.place.path = []

theorem mem_places {a : Access} (hb : b ∈ m.order) (ha : a ∈ m.blockAccesses b) : a.place ∈ m.places :=
  List.mem_append_right _ (List.mem_map_of_mem (List.mem_flatMap.mpr ⟨b, hb, ha⟩))

theorem regular_transfer (hm : m.Proper) (hb : b ∈ m.order) {x : MoveState} (hx : x.Regular) :
    (m.transfer b x).Regular :=
  hx.applyAll (hm.rooted b hb)

theorem listed_transfer (hb : b ∈ m.order) {x : MoveState} (hx : x.Listed m.places) :
    (m.transfer b x).Listed m.places :=
  hx.applyAll fun _ ha => mem_places hb ha

/-- A renewed state is the one passed on, or a join with it that differs from the state before. -/
theorem eq_of_renewed {prev : Option MoveState} {y : MoveState} (h : renewed prev out = some y) :
    prev = none ∧ y = out ∨ ∃ z, prev = some z ∧ y = z.merged out ∧ y.sameAs z = false := by
  unfold renewed at h
  split at h
  · cases h
  · rename_i hnew
    obtain rfl := Option.some.inj h
    cases prev with
    | none => exact .inl ⟨rfl, rfl⟩
    | some z => exact .inr ⟨z, rfl, rfl, by simpa using hnew⟩

section

variable (hm : m.Proper) (hs : m.Tracking s) (hv : m.Visits s t b)

include hm hs hv

/-- What a visit passes on is regular, and stores listed places only. -/
theorem passed_visit : (m.transfer b ((s.states.get? b).getD {})).Regular ∧
    (m.transfer b ((s.states.get? b).getD {})).Listed m.places := by
  obtain ⟨x, hx⟩ := hs.left b hv.left
  rw [hx]
  exact ⟨regular_transfer hm hv.listed (hs.regular b x hx), listed_transfer hv.listed (hs.listed b x hx)⟩

theorem Tracking.visit : m.Tracking t := by
  obtain ⟨hregular, hlisted⟩ := passed_visit hm hs hv
  have hgood : ∀ c y, t.states.get? c = some y → c ∈ m.order ∧ y.Regular ∧ y.Listed m.places := by
    intro c y hy
    rcases hv.each c with ⟨hkept, _⟩ | ⟨hc, y', hy', hnew⟩
    · rw [hkept] at hy
      exact ⟨hs.known c y hy, hs.regular c y hy, hs.listed c y hy⟩
    · obtain rfl := Option.some.inj (hy.symm.trans hy')
      refine ⟨hm.closed b hv.listed c hc, ?_⟩
      rcases eq_of_renewed hnew with ⟨_, rfl⟩ | ⟨z, hz, rfl, _⟩
      · exact ⟨hregular, hlisted⟩
      · exact ⟨(hs.regular c z hz).merged hregular, (hs.listed c z hz).merged hlisted⟩
  refine ⟨fun c y hy => (hgood c y hy).1, fun c y hy => (hgood c y hy).2.1, fun c y hy => (hgood c y hy).2.2,
    fun c hc => ?_⟩
  rcases hv.each c with ⟨hkept, hleft⟩ | ⟨_, y, hy, _⟩
  · rw [hkept]
    exact hs.left c (hleft hc).1
  · exact ⟨y, hy⟩

theorem reached_visit (c : Nat) : reached m.places (s.states.get? c) ≤ reached m.places (t.states.get? c) := by
  rcases hv.each c with ⟨hkept, _⟩ | ⟨_, y, hy, hnew⟩
  · rw [hkept]
  · rw [hy]
    rcases eq_of_renewed hnew with ⟨hnone, _⟩ | ⟨z, hz, rfl, _⟩
    · rw [hnone]
      exact Nat.zero_le _
    · rw [hz]
      exact reached_merged (hs.regular c z hz) (passed_visit hm hs hv).1 m.places

/-- A block that reaches no more keeps its state or gets one like it. -/
theorem alike_visit (h : reached m.places (s.states.get? c) = reached m.places (t.states.get? c)) :
    s.states.get? c = none ∧ t.states.get? c = none ∨
      ∃ x y, s.states.get? c = some x ∧ t.states.get? c = some y ∧ x.Alike y := by
  rcases hv.each c with ⟨hkept, _⟩ | ⟨_, y, hy, hnew⟩
  · rw [hkept]
    cases s.states.get? c with
    | none => exact .inl ⟨rfl, rfl⟩
    | some x => exact .inr ⟨x, x, rfl, rfl, .refl x⟩
  · rw [hy] at h ⊢
    rcases eq_of_renewed hnew with ⟨hnone, _⟩ | ⟨z, hz, rfl, _⟩
    · rw [hnone] at h
      simp only [reached] at h
      omega
    · rw [hz] at h ⊢
      obtain ⟨hregular, hlisted⟩ := passed_visit hm hs hv
      exact .inr ⟨z, _, rfl, rfl, alike_merged (hs.regular c z hz) hregular (hs.listed c z hz) hlisted h⟩

end

/-- The first block that leads to a block. -/
def leader? (m : MoveProblem) (c : Nat) : Option Nat :=
  (List.range m.graph.blocks.length).find? fun b => (m.graph.successors b).contains c

/-- What is owed to a block that its leader does not lead ahead to. -/
def dues (m : MoveProblem) (rank : Nat → Nat) (s : MoveSearch) (c : Nat) : Nat :=
  match m.leader? c with
  | none => 0
  | some b =>
    if rank c < rank b then 0
    else match s.states.get? b, s.states.get? c with
      | some x, some y => owed m.places (m.transfer b x) y
      | _, _ => 0

theorem dues_le (m : MoveProblem) (rank : Nat → Nat) (s : MoveSearch) (c : Nat) :
    m.dues rank s c ≤ 2 * m.places.length + 1 := by
  unfold dues
  split
  · exact Nat.zero_le _
  · split
    · exact Nat.zero_le _
    · split
      · exact owed_le _ _ _
      · exact Nat.zero_le _

theorem leader?_mem (h : m.leader? c = some b) : c ∈ m.graph.successors b := by
  have hfound := List.find?_some h
  exact List.contains_iff_mem.mp hfound

/-- A block that is not led ahead to by one block has it as its leader. -/
theorem leader?_of_sole (hg : m.graph.Ranked rank) (hc : c ∈ m.graph.successors b) (hrank : ¬rank c < rank b) :
    m.leader? c = some b := by
  have hsole := (hg.ahead b c hc).resolve_left hrank
  have hb : b < m.graph.blocks.length := by
    by_contra hge
    rw [Graph.successors_of_stray (Nat.not_lt.mp hge)] at hc
    cases hc
  have hsome : (m.leader? c).isSome = true :=
    List.find?_isSome.mpr ⟨b, List.mem_range.mpr hb, List.contains_iff_mem.mpr hc⟩
  obtain ⟨a, ha⟩ := Option.isSome_iff_exists.mp hsome
  rw [ha, hsole a (leader?_mem ha)]

/-- Nothing is owed to a block that some block leads ahead to. -/
theorem dues_of_ahead (hg : m.graph.Ranked rank) (hc : c ∈ m.graph.successors b) (hrank : rank c < rank b)
    (s : MoveSearch) : m.dues rank s c = 0 := by
  unfold dues
  cases hl : m.leader? c with
  | none => rfl
  | some a =>
    have hahead : rank c < rank a := by
      rcases hg.ahead a c (leader?_mem hl) with hlt | hsole
      · exact hlt
      · exact hsole b hc ▸ hrank
    exact if_pos hahead

/-- Whether a block is left to visit, and what is owed to it. -/
def heft (m : MoveProblem) (rank : Nat → Nat) (s : MoveSearch) (c : Nat) : Nat :=
  (if c ∈ s.worklist then 1 else 0) + m.dues rank s c

section

variable (hg : m.graph.Ranked rank) (hm : m.Proper) (hs : m.Tracking s) (hv : m.Visits s t b)
  (hsame : ∀ c, reached m.places (s.states.get? c) = reached m.places (t.states.get? c))

include hm hs hv hsame

/-- While nothing is reached, what a block is owed stays, as long as its own state does. -/
theorem dues_visit (hkept : t.states.get? c = s.states.get? c) : m.dues rank t c = m.dues rank s c := by
  have ht := hs.visit hm hv
  unfold dues
  rw [hkept]
  cases m.leader? c with
  | none => rfl
  | some a =>
    dsimp only
    split
    · rfl
    · rcases alike_visit hm hs hv (hsame a) with ⟨hx, hy⟩ | ⟨x, y, hx, hy, halike⟩
      · rw [hx, hy]
      · cases hz : s.states.get? c with
        | none => rw [hx, hy]
        | some z =>
          rw [hx, hy]
          have hlisted := hs.known a x hx
          have hrx := hs.regular a x hx
          have hry := ht.regular a y hy
          exact owed_congr (hs.regular c z hz) (regular_transfer hm hlisted hry) (regular_transfer hm hlisted hrx)
            (halike.applyAll hrx hry (hm.rooted a hlisted))

include hg

/-- A block that only the visited one leads to takes over what is passed on, and is owed less. -/
theorem dues_lt (hc : c ∈ m.graph.successors b) (hrank : ¬rank c < rank b) {y : MoveState}
    (hy : t.states.get? c = some y)
    (hnew : renewed (s.states.get? c) (m.transfer b ((s.states.get? b).getD {})) = some y) :
    m.dues rank t c < m.dues rank s c := by
  obtain ⟨x, hx⟩ := hs.left b hv.left
  rw [hx, Option.getD_some] at hnew
  rcases eq_of_renewed hnew with ⟨hnone, _⟩ | ⟨z, hz, rfl, hdiffers⟩
  · have hreach := hsame c
    rw [hnone, hy] at hreach
    simp only [reached] at hreach
    omega
  · obtain ⟨x', hx', halike⟩ : ∃ x', t.states.get? b = some x' ∧ x.Alike x' := by
      rcases alike_visit hm hs hv (hsame b) with ⟨hnone, _⟩ | ⟨w, x', hw, hx', halike⟩
      · cases hnone.symm.trans hx
      · exact ⟨x', hx', Option.some.inj (hw.symm.trans hx) ▸ halike⟩
    have hrx := hs.regular b x hx
    have hrx' := (hs.visit hm hv).regular b x' hx'
    have hreach := hsame c
    rw [hz, hy] at hreach
    obtain ⟨hout, hlist⟩ : (m.transfer b x).Regular ∧ (m.transfer b x).Listed m.places :=
      ⟨regular_transfer hm hv.listed hrx, listed_transfer hv.listed (hs.listed b x hx)⟩
    have hstays := alike_merged (hs.regular c z hz) hout (hs.listed c z hz) hlist hreach
    simp only [dues, leader?_of_sole hg hc hrank, if_neg hrank, hx, hz, hx', hy]
    exact owed_lt (hs.regular c z hz) hout (regular_transfer hm hv.listed hrx') (hs.listed c z hz) hlist hstays
      (halike.applyAll hrx hrx' (hm.rooted b hv.listed)) hdiffers

/-- While nothing is reached, a visited block gets lighter, and only blocks ahead of it heavier. -/
theorem heft_visit (c : Nat) : m.heft rank t c + (if c = b then 1 else 0) ≤ m.heft rank s c ∨
    rank c < rank b ∧ m.heft rank t c ≤ m.heft rank s c + 1 := by
  have hb := hv.left
  rcases hv.each c with ⟨hkept, hleft⟩ | ⟨hc, y, hy, hnew⟩
  · refine .inl ?_
    rw [heft, heft, dues_visit hm hs hv hsame hkept]
    by_cases hcb : c = b
    · have hout : c ∉ t.worklist := fun hin => (hleft hin).2 hcb
      subst hcb
      simp only [hb, hout, if_true, if_false]
      omega
    · simp only [hcb, if_false]
      by_cases hin : c ∈ t.worklist
      · simp only [hin, (hleft hin).1, if_true]
        omega
      · simp only [hin, if_false]
        omega
  · by_cases hrank : rank c < rank b
    · refine .inr ⟨hrank, ?_⟩
      rw [heft, heft, dues_of_ahead hg hc hrank, dues_of_ahead hg hc hrank]
      split <;> omega
    · refine .inl ?_
      have hless := dues_lt hg hm hs hv hsame hc hrank hy hnew
      rw [heft, heft]
      by_cases hcb : c = b
      · subst hcb
        simp only [hb, if_true]
        split <;> omega
      · simp only [hcb, if_false]
        split <;> omega

end

theorem heft_le (m : MoveProblem) (rank : Nat → Nat) (s : MoveSearch) (c : Nat) :
    m.heft rank s c ≤ 2 * m.places.length + 2 := by
  have hle := m.dues_le rank s c
  unfold heft
  split <;> omega

open Finset

/-- All that the blocks have reached. -/
def gain (m : MoveProblem) (s : MoveSearch) : Nat :=
  ∑ c ∈ range m.graph.blocks.length, reached m.places (s.states.get? c)

def load (m : MoveProblem) (rank : Nat → Nat) (s : MoveSearch) : Nat :=
  ∑ c ∈ range m.graph.blocks.length, m.heft rank s c * 2 ^ rank c

/-- A visit adds to what is reached, or takes from the load; what is reached counts more. -/
def size (m : MoveProblem) (rank : Nat → Nat) (s : MoveSearch) : Nat :=
  (m.graph.blocks.length * (1 + 3 * m.places.length) - m.gain s) *
    ((2 * m.places.length + 3) * 2 ^ m.graph.blocks.length) + m.load rank s

theorem gain_le (m : MoveProblem) (s : MoveSearch) :
    m.gain s ≤ m.graph.blocks.length * (1 + 3 * m.places.length) := by
  have hle := sum_le_card_nsmul (range m.graph.blocks.length) (fun c => reached m.places (s.states.get? c))
    (1 + 3 * m.places.length) fun c _ => reached_le m.places _
  simpa [gain] using hle

theorem load_lt (hg : m.graph.Ranked rank) (s : MoveSearch) :
    m.load rank s < (2 * m.places.length + 3) * 2 ^ m.graph.blocks.length :=
  calc m.load rank s
      ≤ (2 * m.places.length + 2) * 2 ^ m.graph.blocks.length :=
        weight_le hg.injective hg.bounded fun c _ => m.heft_le rank s c
    _ < (2 * m.places.length + 3) * 2 ^ m.graph.blocks.length :=
        Nat.mul_lt_mul_of_pos_right (Nat.lt_succ_self _) (Nat.two_pow_pos _)

theorem size_visit (hg : m.graph.Ranked rank) (hm : m.Proper) (hs : m.Tracking s) (hv : m.Visits s t b)
    (hb : b < m.graph.blocks.length) : m.size rank t < m.size rank s := by
  have hgains : ∀ c ∈ range m.graph.blocks.length,
      reached m.places (s.states.get? c) ≤ reached m.places (t.states.get? c) := fun c _ => reached_visit hm hs hv c
  have hload := load_lt hg t
  unfold size
  generalize (2 * m.places.length + 3) * 2 ^ m.graph.blocks.length = k at hload
  by_cases hall : ∀ c < m.graph.blocks.length,
      reached m.places (s.states.get? c) = reached m.places (t.states.get? c)
  · have hsame : ∀ c, reached m.places (s.states.get? c) = reached m.places (t.states.get? c) := by
      intro c
      by_cases hc : c < m.graph.blocks.length
      · exact hall c hc
      · rcases hv.each c with ⟨hkept, _⟩ | ⟨hedge, _⟩
        · rw [hkept]
        · exact absurd (hg.inside b c hedge) hc
    have hgain : m.gain s = m.gain t := sum_congr rfl fun c _ => hsame c
    have hlighter : m.load rank t < m.load rank s :=
      weight_lt hg.injective hb fun c _ => heft_visit hg hm hs hv hsame c
    rw [hgain]
    omega
  · have hmore : m.gain s < m.gain t := by
      obtain ⟨c, hc, hne⟩ : ∃ c, ∃ _ : c < m.graph.blocks.length,
          reached m.places (s.states.get? c) ≠ reached m.places (t.states.get? c) := by simpa using hall
      exact sum_lt_sum hgains ⟨c, mem_range.mpr hc, lt_of_le_of_ne (hgains c (mem_range.mpr hc)) hne⟩
    have hbound := gain_le m t
    generalize m.graph.blocks.length * (1 + 3 * m.places.length) = total at hbound
    calc (total - m.gain t) * k + m.load rank t
        < (total - m.gain t) * k + k := Nat.add_lt_add_left hload _
      _ = (total - m.gain t + 1) * k := (Nat.succ_mul _ _).symm
      _ ≤ (total - m.gain s) * k := Nat.mul_le_mul_right k (by omega)
      _ ≤ (total - m.gain s) * k + m.load rank s := Nat.le_add_right _ _

theorem three_mul_succ_le (l : Nat) : 3 * l + 1 ≤ 4 ^ l := by
  induction l with
  | zero => simp
  | succ l ih => rw [Nat.pow_succ]; omega

/-- The bound on visits leaves room for all of them. -/
theorem size_le_visitBound (hg : m.graph.Ranked rank) (hn : 0 < m.graph.blocks.length) (s : MoveSearch) :
    m.size rank s ≤ m.visitBound := by
  have hload := load_lt hg s
  unfold size visitBound
  generalize m.graph.blocks.length = n at hn hload
  generalize m.places.length = l at hload
  have hn2 : n + 1 ≤ 2 ^ n := Nat.lt_two_pow_self
  have hl4 := three_mul_succ_le l
  have hl4' : 2 * l + 3 ≤ 4 ^ (l + 1) := by rw [Nat.pow_succ]; omega
  have hexp : n + (l + (l + 1)) ≤ (n + 1) * (l + 1) := by
    have hle := Nat.le_mul_of_pos_left l hn
    rw [Nat.add_mul, Nat.mul_add]
    omega
  have hterms : n * (1 + 3 * l) + 1 ≤ (n + 1) * (3 * l + 1) := by
    rw [Nat.add_mul n, Nat.add_comm 1]
    omega
  calc (n * (1 + 3 * l) - m.gain s) * ((2 * l + 3) * 2 ^ n) + m.load rank s
      ≤ n * (1 + 3 * l) * ((2 * l + 3) * 2 ^ n) + (2 * l + 3) * 2 ^ n :=
        Nat.add_le_add (Nat.mul_le_mul_right _ (Nat.sub_le _ _)) hload.le
    _ = (n * (1 + 3 * l) + 1) * ((2 * l + 3) * 2 ^ n) := (Nat.succ_mul _ _).symm
    _ ≤ ((n + 1) * (3 * l + 1)) * ((2 * l + 3) * 2 ^ n) := Nat.mul_le_mul_right _ hterms
    _ ≤ (2 ^ n * 4 ^ l) * (4 ^ (l + 1) * 2 ^ n) := by gcongr
    _ = (2 * 2) ^ n * (4 ^ l * 4 ^ (l + 1)) := by rw [Nat.mul_pow]; ring
    _ = 4 ^ (n + (l + (l + 1))) := by rw [← Nat.pow_add, ← Nat.pow_add]
    _ ≤ 4 ^ ((n + 1) * (l + 1)) := Nat.pow_le_pow_right (by omega) hexp

theorem next_size (hg : m.graph.Ranked rank) (hm : m.Proper) (hinside : ∀ b ∈ m.order, b < m.graph.blocks.length)
    (s t : MoveSearch) (hs : m.Tracking s) (h : m.next s = some t) :
    m.Tracking t ∧ m.size rank t < m.size rank s := by
  obtain ⟨b, hv⟩ := next_visits hg h
  exact ⟨hs.visit hm hv, size_visit hg hm hs hv (hinside b hv.listed)⟩

theorem regular_initialMoves (f : Function) : (initialMoves f).Regular := by
  have hroot : ∀ e ∈ (initialMoves f).entries, e.place.path = [] ∧ e.site = none := by
    intro e he
    obtain ⟨⟨id, b⟩, _, rfl⟩ := List.mem_map.mp he
    exact ⟨rfl, rfl⟩
  refine ⟨plain_initialMoves f, ?_, fun p hp => ?_, fun p hp => ?_⟩
  · refine List.pairwise_map.mpr ((List.pairwise_map.mp f.bindings.distinct).imp ?_)
    intro a b hne
    simp [Place.same, hne]
  · obtain ⟨e, he⟩ := Option.isSome_iff_exists.mp (has_of_sited hp)
    rw [sited, he, Option.bind_some, (hroot e (mem_of_find? he).1).2] at hp
    cases hp
  · obtain ⟨e, he, _⟩ := Option.map_eq_some_iff.mp hp
    obtain ⟨hmem, hsame⟩ := mem_of_find? he
    have hbare : p.same p.bare = true :=
      Place.same_iff.mpr ⟨rfl, (Place.same_iff.mp hsame).2.symm.trans (hroot e hmem).1⟩
    rw [← (initialMoves f).marks_congr hbare, marks, hp]
    rfl

theorem start_tracking (hentry : m.graph.entry ∈ m.order) : m.Tracking m.start := by
  have honly : ∀ b x, m.start.states.get? b = some x → b = m.graph.entry ∧ x = initialMoves m.function := by
    intro b x hx
    by_cases hb : b = m.graph.entry
    · subst hb
      simp only [start, OrderedMap.get?_insert_self, Option.some.injEq] at hx
      exact ⟨rfl, hx.symm⟩
    · simp [start, OrderedMap.get?_insert_other _ _ hb] at hx
  refine ⟨fun b x hx => ?_, fun b x hx => ?_, fun b x hx => ?_, fun b hb => ?_⟩
  · exact (honly b x hx).1 ▸ hentry
  · exact (honly b x hx).2 ▸ regular_initialMoves m.function
  · rw [(honly b x hx).2]
    exact fun e he => ⟨e.place, List.mem_append_left _ (List.mem_map_of_mem he), e.place.same_refl⟩
  · obtain rfl : b = m.graph.entry := by simpa [start] using hb
    exact ⟨_, OrderedMap.get?_insert_self _ _ _⟩

theorem worklist_of_done (hs : m.Tracking s) (h : m.next s = none) : s.worklist = [] := by
  refine List.eq_nil_iff_forall_not_mem.mpr fun b hb => ?_
  obtain ⟨x, hx⟩ := hs.left b hb
  have hnone := List.find?_eq_none.mp (Option.map_eq_none_iff.mp h) b (hs.known b x hx)
  exact hnone (List.contains_iff_mem.mpr hb)

section

variable {cx : Context} {g : Graph} {fx : EffectMap} (hg : cx.function.graph = .ok g) (hfx : cx.effects g = .ok fx)

include hfx in
theorem proper_ofEffects : (ofEffects cx.function g fx).Proper := by
  refine ⟨fun b hb c hc => Graph.successors_reachable hb hc, fun b hb a ha hkind => ?_⟩
  obtain ⟨p, hp, ha⟩ := List.mem_flatMap.mp ha
  have hall : p ∈ g.allPoints := List.mem_flatMap.mpr ⟨b, hb, hp⟩
  exact access_root hfx hall ha (.inr hkind)

include hg hfx

/-- The search comes to an end, unless a limit stops it. -/
theorem solve_ends {limit : Option Int} {fault : Fault} (h : (ofEffects cx.function g fx).solve limit = .error fault) :
    ∃ n, limit = some n ∧ fault = .limit "move tracking" n := by
  obtain ⟨rank, hrank⟩ := Function.graph_ranked hg
  have hentry := Function.graph_entry_lt hg
  have hsettle := (Outcome.bind_eq_error.mp h).resolve_right (by rintro ⟨_, _, hok⟩; cases hok)
  exact Budget.settle_ends ((ofEffects cx.function g fx).size rank)
    (next_size hrank (proper_ofEffects hfx) fun b hb => hrank.reachable_lt hentry hb)
    (start_tracking g.entry_mem_reachable)
    (size_le_visitBound hrank (Nat.zero_lt_of_lt hentry) _) hsettle

/-- A search that comes to an end has nothing left, and made as many visits as it counted. -/
theorem solve_after {limit : Option Int} {starts : OrderedMap Nat MoveState} {budget : Budget}
    (h : (ofEffects cx.function g fx).solve limit = .ok (starts, budget)) :
    ∃ t, Budget.after (ofEffects cx.function g fx).next budget.steps (ofEffects cx.function g fx).start = some t ∧
      t.worklist = [] ∧ t.states = starts := by
  obtain ⟨rank, hrank⟩ := Function.graph_ranked hg
  have hentry := Function.graph_entry_lt hg
  obtain ⟨⟨t, spent⟩, hsettle, hdone⟩ := Outcome.bind_eq_ok.mp h
  obtain ⟨rfl, rfl⟩ := Prod.mk.inj (Except.ok.inj hdone)
  have hstep := next_size hrank (proper_ofEffects hfx) fun b hb => hrank.reachable_lt hentry hb
  obtain ⟨htracking, hnone⟩ := Budget.settle_invariant (fun s t hs hn => (hstep s t hs hn).1)
    (start_tracking g.entry_mem_reachable) hsettle
  obtain ⟨n, _, hafter, _, rfl⟩ := Budget.settle_after hsettle
  exact ⟨t, by simpa using hafter, worklist_of_done htracking hnone, rfl⟩

end

end MoveProblem

section

variable {cx : Context} {g : Graph} {fx : EffectMap} (hg : cx.function.graph = .ok g) (hfx : cx.effects g = .ok fx)

include hg hfx

theorem trackMoves_failsOnly {limit : Option Int} {kind : Fault → Prop}
    (hlimit : ∀ n, limit = some n → kind (.limit "move tracking" n)) :
    Outcome.FailsOnly kind (trackMoves g cx.function fx limit) := by
  refine Outcome.FailsOnly.bind (fun fault hf => ?_) fun _ _ => .ok _
  obtain ⟨n, hn, rfl⟩ := MoveProblem.solve_ends hg hfx hf
  exact hlimit n hn

/-- Move tracking always comes to an end. Without a limit the search makes some number of visits, the one it
reports, and then no block is left to visit. This is so although a join may take back what is stored below a
root: a place that was moved becomes one that was never set, which the search sees as a change. -/
theorem moves_settle :
    (∃ starts budget, (MoveProblem.ofEffects cx.function g fx).solve none = .ok (starts, budget) ∧
      ∃ t, Budget.after (MoveProblem.ofEffects cx.function g fx).next budget.steps
          (MoveProblem.ofEffects cx.function g fx).start = some t ∧
        t.worklist = [] ∧ t.states = starts) ∧
    ∀ (s t : MoveState) (p : Place), s.Distinct → t.Distinct → s.cell? p = some .moved →
      s.cell? p.bare = some .uninit → t.cell? p.bare = some .uninit →
      (s.merged t).cell? p = some .uninit ∧ (s.merged t).sameAs s = false := by
  refine ⟨?_, fun s t p => MoveState.cell?_merged_of_uninit⟩
  have hnever : Outcome.FailsOnly (fun _ => False) ((MoveProblem.ofEffects cx.function g fx).solve none) := by
    intro fault hf
    obtain ⟨n, hn, _⟩ := MoveProblem.solve_ends hg hfx hf
    cases hn
  obtain ⟨⟨starts, budget⟩, hsolve⟩ := Outcome.exists_ok hnever
  exact ⟨starts, budget, hsolve, MoveProblem.solve_after hg hfx hsolve⟩

end

/-- A loop that on one of its branches sets a binding and moves a part of it away. -/
def takePart : Context where
  function :=
    { name := "takePart"
      params := [⟨"c", 1, 2, {}⟩]
      ret := none
      body := .mk
        [.declare "x" 2 none {},
          .loop (.mk
            [.branch (.var "c" 1 {}) (.mk
              [.assign (.var "x" 2 {}) (.construct 4 [.mk "r" (.construct 3 [.mk "id" (.int 2 {})] {})] {}) {},
                .eval (.field (.var "x" 2 {}) "r" {}) {}] {}) none {}] {}) {}] {}
      bindings := .ofList [(1, ⟨1, "c", 2, .param, {}⟩), (2, ⟨2, "x", 4, .localVar, {}⟩)] }
  types :=
    { defs := [.scalar "Int" true, .scalar "Bool" true, .struct "R" none false, .struct "S" none false]
      structs := .ofList [("R", .ofList [("id", 1)]), ("S", .ofList [("r", 3)])] }
  signatures := {}

def takePartGraph : Graph := takePart.function.graph.toOption.getD default

def takePartEffects : EffectMap := (takePart.effects takePartGraph).toOption.getD default

def takePartMoves : MoveProblem := .ofEffects takePart.function takePartGraph takePartEffects

/-- What the search knows of the part, after so many visits, where the branches of the loop meet. -/
def takePartAt (visits : Nat) : Option PlaceState :=
  ((Budget.after takePartMoves.next visits takePartMoves.start).bind (·.states.get? 7)).bind
    (·.cell? { root := 2, path := [.field "r"] })

/-- The search goes back and forth between two answers, and still ends. -/
theorem moves_settle_takePart :
    takePartAt 8 = some .moved ∧ takePartAt 9 = some .uninit ∧ takePartAt 10 = some .moved ∧
      ∃ visits t, Budget.after takePartMoves.next visits takePartMoves.start = some t ∧ t.worklist = [] := by
  have hg : takePart.function.graph = .ok takePartGraph := Outcome.eq_ok_getD _ (by decide +kernel)
  have hfx : takePart.effects takePartGraph = .ok takePartEffects := Outcome.eq_ok_getD _ (by decide +kernel)
  obtain ⟨⟨starts, budget, _, t, hafter, hdone, _⟩, _⟩ := moves_settle hg hfx
  exact ⟨by decide +kernel, by decide +kernel, by decide +kernel, budget.steps, t, hafter, hdone⟩

end Ownership
