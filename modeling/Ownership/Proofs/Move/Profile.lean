import Ownership.Proofs.Move.Soundness

/-!
What a move state comes down to. Tracking goes by three things only: which places are
stored, which of them are marked as gone, and which roots are marked as moved. States
that agree on these object to the same accesses, and the states they are joined to
become the same. The state that is stored for a place below a marked root is not among
them: joins may change it back and forth without anything coming of it.
-/
namespace Ownership

namespace Place

variable {p q r : Place}

/-- The root of a place as a place of its own. -/
def bare (p : Place) : Place := { p with path := [] }

theorem same_iff : p.same q = true ↔ p.root = q.root ∧ p.path = q.path := by
  simp [same]

theorem same_symm (h : p.same q = true) : q.same p = true :=
  same_iff.mpr ⟨(same_iff.mp h).1.symm, (same_iff.mp h).2.symm⟩

theorem same_trans (h : p.same q = true) (k : q.same r = true) : p.same r = true :=
  same_iff.mpr ⟨(same_iff.mp h).1.trans (same_iff.mp k).1, (same_iff.mp h).2.trans (same_iff.mp k).2⟩

theorem same_congr (h : p.same q = true) (r : Place) : r.same p = r.same q := by
  rw [same, same, (same_iff.mp h).1, (same_iff.mp h).2]

theorem compare_congr (h : p.same q = true) (r : Place) : p.compare r = q.compare r := by
  rw [compare, compare, (same_iff.mp h).1, (same_iff.mp h).2]

theorem compare_congr_right (h : p.same q = true) (r : Place) : r.compare p = r.compare q := by
  rw [compare, compare, (same_iff.mp h).1, (same_iff.mp h).2]

/-- Spelled as a place or a part of it. -/
def spelledIn (q p : Place) : Bool := q.root = p.root && q.path.take p.path.length = p.path

theorem spelledIn_of_same (h : p.same q = true) : q.spelledIn p = true := by
  obtain ⟨hroot, hpath⟩ := same_iff.mp h
  simp [spelledIn, hroot, hpath]

theorem spelledIn_congr (h : p.same q = true) (r : Place) : p.spelledIn r = q.spelledIn r := by
  rw [spelledIn, spelledIn, (same_iff.mp h).1, (same_iff.mp h).2]

/-- The root of a place is not spelled as a part of another one that has a path. -/
theorem spelledIn_bare (hp : p.path ≠ []) : q.bare.spelledIn p = false := by
  have hne : [] ≠ p.path := fun h => hp h.symm
  simp [spelledIn, bare, hne]

theorem compare_bare (p : Place) : p.bare.compare p = .equal ∨ p.bare.compare p = .contains := by
  cases hpath : p.path with
  | nil => exact .inl (by simp [compare, bare, hpath, comparePaths])
  | cons x xs => exact .inr (by simp [compare, bare, hpath, comparePaths])

end Place

namespace MoveState

variable {s t u : MoveState} {p q : Place} {e : MoveEntry}

/-- No place is stored twice. -/
def Distinct (s : MoveState) : Prop := s.entries.Pairwise fun d e => d.place.same e.place = false

def has (s : MoveState) (p : Place) : Bool := (s.find? p).isSome

/-- The state that is stored for a place. -/
def cell? (s : MoveState) (p : Place) : Option PlaceState := (s.find? p).map MoveEntry.state

/-- A place is stored as gone. -/
def marks (s : MoveState) (p : Place) : Bool := (s.cell? p).any (· ≠ .init)

/-- A root is stored as moved. -/
def lost (s : MoveState) (p : Place) : Bool := p.path.isEmpty && (s.cell? p).any (· = .moved)

/-- It is known where a place was moved from. -/
def sited (s : MoveState) (p : Place) : Bool := ((s.find? p).bind MoveEntry.site).isSome

theorem mem_of_find? (h : s.find? p = some e) : e ∈ s.entries ∧ e.place.same p = true := by
  refine ⟨List.mem_of_find?_eq_some h, ?_⟩
  have hsame := List.find?_some h
  exact hsame

theorem find?_congr (s : MoveState) (h : p.same q = true) : s.find? p = s.find? q := by
  unfold find?
  congr 1
  funext e
  exact Place.same_congr h e.place

theorem has_congr (s : MoveState) (h : p.same q = true) : s.has p = s.has q := by
  rw [has, has, s.find?_congr h]

theorem cell?_congr (s : MoveState) (h : p.same q = true) : s.cell? p = s.cell? q := by
  rw [cell?, cell?, s.find?_congr h]

theorem marks_congr (s : MoveState) (h : p.same q = true) : s.marks p = s.marks q := by
  rw [marks, marks, s.cell?_congr h]

theorem lost_congr (s : MoveState) (h : p.same q = true) : s.lost p = s.lost q := by
  rw [lost, lost, s.cell?_congr h, (Place.same_iff.mp h).2]

theorem sited_congr (s : MoveState) (h : p.same q = true) : s.sited p = s.sited q := by
  rw [sited, sited, s.find?_congr h]

theorem ownState_congr (s : MoveState) (h : p.same q = true) : s.ownState p = s.ownState q := by
  unfold ownState blocker?
  congr 3
  funext e
  rw [MoveEntry.blocks, MoveEntry.blocks, Place.compare_congr_right h e.place]

theorem find?_of_mem (h : s.Distinct) (he : e ∈ s.entries) : s.find? e.place = some e := by
  obtain ⟨entries⟩ := s
  simp only [Distinct, find?] at h he ⊢
  induction entries with
  | nil => cases he
  | cons d ds ih =>
    obtain ⟨hd, hrest⟩ := List.pairwise_cons.mp h
    rcases List.mem_cons.mp he with rfl | he
    · simp
    · rw [List.find?_cons, hd e he]
      exact ih hrest he

theorem marks_iff : s.marks p = true ↔ ∃ e, s.find? p = some e ∧ e.state ≠ .init := by
  simp [marks, cell?, Option.any_eq_true]

theorem has_of_marks (h : s.marks p = true) : s.has p = true := by
  obtain ⟨e, he, _⟩ := marks_iff.mp h
  rw [has, he]
  rfl

/-- Some entry marks a place of a kind if such a place is marked. -/
theorem exists_marked_iff (h : s.Distinct) {r : Place → Prop} (hr : ∀ p q, p.same q = true → r p → r q) :
    (∃ e ∈ s.entries, e.state ≠ .init ∧ r e.place) ↔ ∃ p, s.marks p = true ∧ r p := by
  constructor
  · rintro ⟨e, he, hstate, hplace⟩
    exact ⟨e.place, marks_iff.mpr ⟨e, find?_of_mem h he, hstate⟩, hplace⟩
  · rintro ⟨p, hp, hplace⟩
    obtain ⟨e, he, hstate⟩ := marks_iff.mp hp
    obtain ⟨hmem, hsame⟩ := mem_of_find? he
    exact ⟨e, hmem, hstate, hr p e.place (Place.same_symm hsame) hplace⟩

/-- A marked place lies around the place, or is the place. -/
def Blocked (s : MoveState) (p : Place) : Prop :=
  ∃ q, s.marks q = true ∧ (q.compare p = .equal ∨ q.compare p = .contains)

/-- A marked place lies inside the place. -/
def Dented (s : MoveState) (p : Place) : Prop := ∃ q, s.marks q = true ∧ q.compare p = .within

theorem blocked_iff (h : s.Distinct) : s.Blocked p ↔
    ∃ e ∈ s.entries, e.state ≠ .init ∧ (e.place.compare p = .equal ∨ e.place.compare p = .contains) :=
  (exists_marked_iff h (r := fun q => q.compare p = .equal ∨ q.compare p = .contains)
    fun q q' hsame hq => by rwa [← Place.compare_congr hsame]).symm

theorem dented_iff (h : s.Distinct) : s.Dented p ↔
    ∃ e ∈ s.entries, e.state ≠ .init ∧ e.place.compare p = .within :=
  (exists_marked_iff h (r := fun q => q.compare p = .within)
    fun q q' hsame hq => by rwa [← Place.compare_congr hsame]).symm

theorem blocker?_isSome_iff (h : s.Distinct) : (s.blocker? p).isSome = true ↔ s.Blocked p := by
  rw [blocked_iff h, ← not_iff_not, Bool.not_eq_true, Option.isSome_eq_false_iff, Option.isNone_iff_eq_none,
    blocker?_eq_none_iff]
  simp [MoveEntry.blocks]

theorem dents_isSome_iff (h : s.Distinct) : (s.entries.find? (·.dents p)).isSome = true ↔ s.Dented p := by
  rw [dented_iff h, List.find?_isSome]
  simp [MoveEntry.dents]

theorem ownState_eq_init_iff (h : s.Distinct) : s.ownState p = .init ↔ ¬s.Blocked p := by
  rw [← blocker?_isSome_iff h]
  unfold ownState
  cases hb : s.blocker? p with
  | none => simp
  | some e => simpa using blocks_not_init (blocker?_mem hb).2

theorem foldl_shallower_le (es : List MoveEntry) (best : Option MoveEntry)
    (h : es.foldl shallower best = some e) : (∀ d ∈ best, e.depth ≤ d.depth) ∧ ∀ d ∈ es, e.depth ≤ d.depth := by
  induction es generalizing best with
  | nil =>
    rw [List.foldl_nil] at h
    exact ⟨fun d hd => Nat.le_of_eq (congrArg _ (Option.some.inj (h.symm.trans hd))), by simp⟩
  | cons x xs ih =>
    obtain ⟨hbest, hrest⟩ := ih (shallower best x) h
    have hboth : (∀ d ∈ best, e.depth ≤ d.depth) ∧ e.depth ≤ x.depth := by
      cases best with
      | none => exact ⟨by simp, hbest x (by simp [shallower])⟩
      | some b =>
        simp only [shallower] at hbest
        split at hbest
        · rename_i hlt
          have hx := hbest x rfl
          exact ⟨fun d hd => by rw [← Option.some.inj hd]; omega, hx⟩
        · rename_i hge
          have hb := hbest b rfl
          exact ⟨fun d hd => by rw [← Option.some.inj hd]; exact hb, by omega⟩
    refine ⟨hboth.1, fun d hd => ?_⟩
    rcases List.mem_cons.mp hd with rfl | hd
    · exact hboth.2
    · exact hrest d hd

theorem root_of_blocks (h : e.blocks p = true) : e.place.root = p.root := by
  by_contra hne
  simp [MoveEntry.blocks, Place.compare, hne] at h

/-- A marked root decides for all that lies below it. -/
theorem ownState_of_root (h : s.Distinct) (hm : s.marks p.bare = true) : s.cell? p.bare = some (s.ownState p) := by
  obtain ⟨r, hr, hstate⟩ := marks_iff.mp hm
  obtain ⟨hmem, hsame⟩ := mem_of_find? hr
  have hblocks : r.blocks p = true := by
    simp only [MoveEntry.blocks, Place.compare_congr hsame p]
    rcases p.compare_bare with hc | hc
    · simp [hstate, hc]
    · simp [hstate, hc]
  have hsome : (s.blocker? p).isSome = true := foldl_shallower_isSome _ none
    (.inr (List.ne_nil_of_mem (List.mem_filter.mpr ⟨hmem, hblocks⟩)))
  obtain ⟨b, hb⟩ := Option.isSome_iff_exists.mp hsome
  have hle := (foldl_shallower_le _ none hb).2 r (List.mem_filter.mpr ⟨hmem, hblocks⟩)
  obtain ⟨hbmem, hbblocks⟩ := blocker?_mem hb
  have hdepth : b.place.path = [] := by
    have hzero : r.depth = 0 := by rw [MoveEntry.depth, (Place.same_iff.mp hsame).2]; rfl
    exact List.length_eq_zero_iff.mp (Nat.le_zero.mp (hzero ▸ hle))
  have hroot : b.place.root = p.root := root_of_blocks hbblocks
  have hbsame : b.place.same p.bare = true := Place.same_iff.mpr ⟨hroot, hdepth⟩
  have hbfind : s.find? p.bare = some b := (s.find?_congr (Place.same_symm hbsame)).trans (find?_of_mem h hbmem)
  rw [cell?, hbfind, ownState, hb]
  rfl

/-- What tracking keeps of a state: stored places are distinct and plain, only moved places have
a site, and what was never set lies below a marked root. -/
structure Regular (s : MoveState) : Prop where
  plain : s.Plain
  distinct : s.Distinct
  site : ∀ p, s.sited p = true → s.cell? p = some .moved
  uninit : ∀ p, s.cell? p = some .uninit → s.marks p.bare = true

theorem cell?_ne_partly (h : s.Plain) (p : Place) : s.cell? p ≠ some .partly := by
  intro hc
  obtain ⟨e, he, hstate⟩ := Option.map_eq_some_iff.mp hc
  exact h e (mem_of_find? he).1 hstate

/-- Below a root that is not marked, whatever is gone was moved. -/
theorem Regular.ownState_of_blocked (h : s.Regular) (hm : s.marks p.bare = false) (hb : s.Blocked p) :
    s.ownState p = .moved := by
  obtain ⟨b, hsome⟩ := Option.isSome_iff_exists.mp ((blocker?_isSome_iff h.distinct).mpr hb)
  obtain ⟨hmem, hblocks⟩ := blocker?_mem hsome
  rw [ownState, hsome]
  cases hstate : b.state with
  | init => exact absurd hstate (blocks_not_init hblocks)
  | partly => exact absurd hstate (h.plain b hmem)
  | moved => exact hstate
  | uninit =>
    have hcell : s.cell? b.place = some .uninit := by rw [cell?, find?_of_mem h.distinct hmem, ← hstate]; rfl
    have hroot : b.place.root = p.root := root_of_blocks hblocks
    have hbare : b.place.bare.same p.bare = true := Place.same_iff.mpr ⟨hroot, rfl⟩
    rw [← s.marks_congr hbare, h.uninit _ hcell] at hm
    cases hm

structure Alike (s t : MoveState) : Prop where
  has : ∀ p, s.has p = t.has p
  marks : ∀ p, s.marks p = t.marks p
  lost : ∀ p, s.lost p = t.lost p

theorem Alike.refl (s : MoveState) : s.Alike s := ⟨fun _ => rfl, fun _ => rfl, fun _ => rfl⟩

theorem Alike.symm (h : s.Alike t) : t.Alike s :=
  ⟨fun p => (h.has p).symm, fun p => (h.marks p).symm, fun p => (h.lost p).symm⟩

theorem Alike.blocked (h : s.Alike t) (p : Place) : s.Blocked p ↔ t.Blocked p := by
  simp only [Blocked, h.marks]

theorem Alike.dented (h : s.Alike t) (p : Place) : s.Dented p ↔ t.Dented p := by
  simp only [Dented, h.marks]

/-- The state of a marked root is one of two, told apart by whether the root is lost. -/
theorem cell?_of_marks (h : s.Plain) (hm : s.marks p = true) (hp : p.path = []) :
    s.cell? p = some (if s.lost p then .moved else .uninit) := by
  obtain ⟨e, he, hstate⟩ := marks_iff.mp hm
  have hcell : s.cell? p = some e.state := by rw [cell?, he]; rfl
  have hpartly := cell?_ne_partly h p
  rw [lost, hcell, hp]
  rw [hcell] at hpartly
  cases hs : e.state with
  | init => exact absurd hs hstate
  | partly => exact absurd (congrArg some hs) hpartly
  | moved => rfl
  | uninit => rfl

theorem Alike.ownState (h : s.Alike t) (hs : s.Regular) (ht : t.Regular) (p : Place) :
    s.ownState p = t.ownState p := by
  cases hm : s.marks p.bare with
  | true =>
    have hm' : t.marks p.bare = true := (h.marks p.bare).symm.trans hm
    have hcells : s.cell? p.bare = t.cell? p.bare := by
      rw [cell?_of_marks hs.plain hm rfl, cell?_of_marks ht.plain hm' rfl, h.lost]
    exact Option.some.inj ((ownState_of_root hs.distinct hm).symm.trans
      (hcells.trans (ownState_of_root ht.distinct hm')))
  | false =>
    have hm' : t.marks p.bare = false := (h.marks p.bare).symm.trans hm
    by_cases hb : s.Blocked p
    · rw [hs.ownState_of_blocked hm hb, ht.ownState_of_blocked hm' ((h.blocked p).mp hb)]
    · rw [(ownState_eq_init_iff hs.distinct).mpr hb,
        (ownState_eq_init_iff ht.distinct).mpr fun hb' => hb ((h.blocked p).mpr hb')]

theorem find?_put (s : MoveState) (p : Place) (state : PlaceState) (site : Option Span) (q : Place) :
    (s.put p state site).find? q =
      if p.same q then some ⟨p, state, site⟩ else if q.spelledIn p then none else s.find? q := by
  have hkept : (s.clearBelow p).find? q = if q.spelledIn p then none else s.find? q := by
    have hclear : (s.clearBelow p).entries = s.entries.filter fun e => !e.place.spelledIn p := rfl
    rw [find?, hclear, List.find?_filter]
    cases hin : q.spelledIn p with
    | true =>
      rw [if_pos rfl, List.find?_eq_none]
      intro e _ he
      obtain ⟨hout, hsame⟩ : e.place.spelledIn p = false ∧ e.place.same q = true := by simpa using he
      rw [Place.spelledIn_congr hsame, hin] at hout
      cases hout
    | false =>
      rw [if_neg (by simp), find?]
      congr 1
      funext e
      cases he : e.place.same q with
      | false => simp
      | true => rw [Place.spelledIn_congr he, hin]; rfl
  have hput : (s.put p state site).find? q =
      ((s.clearBelow p).find? q).or ([⟨p, state, site⟩].find? (·.place.same q)) := List.find?_append
  rw [hput, hkept, List.find?_singleton]
  cases hsame : p.same q with
  | true => simp [Place.spelledIn_of_same hsame]
  | false => simp

theorem has_put (s : MoveState) (p : Place) (state : PlaceState) (site : Option Span) (q : Place) :
    (s.put p state site).has q = if p.same q then true else if q.spelledIn p then false else s.has q := by
  rw [has, find?_put]
  split
  · rfl
  · split <;> rfl

theorem cell?_put (s : MoveState) (p : Place) (state : PlaceState) (site : Option Span) (q : Place) :
    (s.put p state site).cell? q =
      if p.same q then some state else if q.spelledIn p then none else s.cell? q := by
  rw [cell?, find?_put]
  split
  · rfl
  · split <;> rfl

theorem marks_put (s : MoveState) (p : Place) (state : PlaceState) (site : Option Span) (q : Place) :
    (s.put p state site).marks q =
      if p.same q then decide (state ≠ .init) else if q.spelledIn p then false else s.marks q := by
  rw [marks, cell?_put]
  split
  · rfl
  · split <;> rfl

theorem lost_put (s : MoveState) (p : Place) (state : PlaceState) (site : Option Span) (q : Place) :
    (s.put p state site).lost q =
      if p.same q then q.path.isEmpty && decide (state = .moved)
      else if q.spelledIn p then false else s.lost q := by
  rw [lost, cell?_put]
  split
  · rfl
  · split
    · exact Bool.and_false _
    · rfl

theorem Alike.put (h : s.Alike t) (p : Place) (state : PlaceState) (site site' : Option Span) :
    (s.put p state site).Alike (t.put p state site') := by
  refine ⟨fun q => ?_, fun q => ?_, fun q => ?_⟩
  · rw [has_put, has_put, h.has]
  · rw [marks_put, marks_put, h.marks]
  · rw [lost_put, lost_put, h.lost]

theorem distinct_put (h : s.Distinct) (p : Place) (state : PlaceState) (site : Option Span) :
    (s.put p state site).Distinct := by
  refine List.pairwise_append.mpr ⟨h.filter _, List.pairwise_singleton _ _, ?_⟩
  intro d hd e he
  rw [List.mem_singleton.mp he]
  cases hsame : d.place.same p with
  | false => rfl
  | true =>
    have hkept := (List.mem_filter.mp hd).2
    have hin := Place.spelledIn_of_same (Place.same_symm hsame)
    rw [Place.spelledIn] at hin
    simp [hin] at hkept

theorem Regular.put (h : s.Regular) {state : PlaceState} {site : Option Span} (hpartly : state ≠ .partly)
    (hsite : site.isSome = true → state = .moved) (hroot : state = .uninit → p.path = []) :
    (s.put p state site).Regular := by
  refine ⟨plain_put h.plain hpartly, distinct_put h.distinct p state site, fun q hq => ?_, fun q hq => ?_⟩
  · rw [sited, find?_put] at hq
    rw [cell?_put]
    split at hq
    · rename_i hsame
      rw [if_pos hsame]
      exact congrArg some (hsite hq)
    · rename_i hne
      rw [if_neg hne]
      split at hq
      · cases hq
      · rename_i hout
        rw [if_neg hout]
        exact h.site q hq
  · rw [cell?_put] at hq
    rw [marks_put]
    split at hq
    · rename_i hsame
      have hstate := Option.some.inj hq
      have hbare : p.same q.bare = true :=
        Place.same_iff.mpr ⟨(Place.same_iff.mp hsame).1, hroot hstate⟩
      rw [if_pos hbare, hstate]
      rfl
    · split at hq
      · cases hq
      · rename_i _ hout
        have hbare : q.bare.spelledIn p = false := by
          cases hin : q.bare.spelledIn p with
          | false => rfl
          | true =>
            by_cases hpath : p.path = []
            · simp only [Place.spelledIn, Place.bare, hpath, List.length_nil, List.take_zero, decide_true,
                Bool.and_true] at hin hout
              exact absurd hin hout
            · rw [Place.spelledIn_bare hpath] at hin
              cases hin
        have hne : p.same q.bare = false := by
          cases hsame : p.same q.bare with
          | false => rfl
          | true =>
            rw [Place.spelledIn_of_same hsame] at hbare
            cases hbare
        rw [if_neg (by simp [hne]), if_neg (by simp [hbare])]
        exact h.uninit q hq

theorem complaint_isSome_iff (hp : s.Plain) (hd : s.Distinct) {f : Function} {a : Access} {allow : Bool}
    {what : String} : (s.complaint f p a allow what).isSome = true ↔ s.Blocked p ∨ allow = false ∧ s.Dented p := by
  unfold complaint lookup
  cases hb : s.blocker? p with
  | some e =>
    have hblocked : s.Blocked p := (blocker?_isSome_iff hd).mp (by rw [hb]; rfl)
    obtain ⟨hmem, hblocks⟩ := blocker?_mem hb
    have hinit := blocks_not_init hblocks
    have hpartly := hp e hmem
    cases hstate : e.state <;> simp_all
  | none =>
    have hfree : ¬s.Blocked p := fun h => by
      have hsome := (blocker?_isSome_iff hd).mpr h
      rw [hb] at hsome
      cases hsome
    rw [← dents_isSome_iff hd]
    cases hdent : s.entries.find? (·.dents p) with
    | none => simp [hfree]
    | some e => cases allow <;> simp [hfree]

variable {f : Function} {a : Access}

theorem Alike.complaint (h : s.Alike t) (hs : s.Regular) (ht : t.Regular) (p : Place) (allow : Bool)
    (what : String) : (s.complaint f p a allow what).isSome = (t.complaint f p a allow what).isSome := by
  rw [Bool.eq_iff_iff, complaint_isSome_iff hs.plain hs.distinct, complaint_isSome_iff ht.plain ht.distinct,
    h.blocked, h.dented]

/-- States that agree object to the same accesses. -/
theorem Alike.objection (h : s.Alike t) (hs : s.Regular) (ht : t.Regular) (f : Function) (a : Access) :
    (s.objection f a).isSome = (t.objection f a).isSome := by
  unfold MoveState.objection
  cases a.kind with
  | declare | storageDead | init => rfl
  | inspect | borrowShared | borrowMut | read => exact h.complaint hs ht a.place _ _
  | write =>
    cases hparent : a.place.parent with
    | none => rfl
    | some parent => exact h.complaint hs ht parent _ _
  | move =>
    dsimp only
    split
    · rfl
    · exact h.complaint hs ht a.place _ _

theorem Alike.apply (h : s.Alike t) (hs : s.Regular) (ht : t.Regular) (f : Function) (a : Access) :
    (s.apply f a).Alike (t.apply f a) := by
  unfold MoveState.apply
  rw [h.objection hs ht f a]
  split
  · exact h
  · cases a.kind with
    | declare | storageDead => exact h.put a.place _ _ _
    | move => exact h.put a.place _ _ _
    | init | write =>
      simp only [setInit]
      split
      · exact h.put a.place _ _ _
      · exact h
    | inspect | borrowShared | borrowMut | read => exact h

theorem Regular.apply (h : s.Regular) (hroot : a.kind = .declare ∨ a.kind = .storageDead → a.place.path = []) :
    (s.apply f a).Regular := by
  unfold MoveState.apply
  split
  · exact h
  · cases hkind : a.kind with
    | declare => exact h.put (by simp) (by simp) fun _ => hroot (.inl hkind)
    | storageDead => exact h.put (by simp) (by simp) fun _ => hroot (.inr hkind)
    | move => exact h.put (by simp) (by simp) (by simp)
    | init | write =>
      simp only [setInit]
      split
      · exact h.put (by simp) (by simp) (by simp)
      · exact h
    | inspect | borrowShared | borrowMut | read => exact h

theorem Regular.applyAll (h : s.Regular) {as : List Access}
    (hroot : ∀ a ∈ as, a.kind = .declare ∨ a.kind = .storageDead → a.place.path = []) :
    (s.applyAll f as).Regular := by
  induction as generalizing s with
  | nil => exact h
  | cons a as ih =>
    exact ih (h.apply (hroot a List.mem_cons_self)) fun b hb => hroot b (List.mem_cons_of_mem a hb)

theorem Alike.applyAll (h : s.Alike t) (hs : s.Regular) (ht : t.Regular) {as : List Access}
    (hroot : ∀ a ∈ as, a.kind = .declare ∨ a.kind = .storageDead → a.place.path = []) :
    (s.applyAll f as).Alike (t.applyAll f as) := by
  induction as generalizing s t with
  | nil => exact h
  | cons a as ih =>
    have ha := hroot a List.mem_cons_self
    exact ih (h.apply hs ht f a) (hs.apply ha) (ht.apply ha) fun b hb => hroot b (List.mem_cons_of_mem a hb)

theorem isSome_find?_stored (s t : MoveState) (q : Place) :
    ((stored s t).find? (·.same q)).isSome = (s.has q || t.has q) := by
  rw [Bool.eq_iff_iff, List.find?_isSome, Bool.or_eq_true]
  constructor
  · rintro ⟨p, hp, hsame⟩
    rcases List.mem_append.mp hp with hp | hp
    · obtain ⟨e, he, rfl⟩ := List.mem_map.mp hp
      exact .inl (List.find?_isSome.mpr ⟨e, he, hsame⟩)
    · obtain ⟨e, he, rfl⟩ := List.mem_map.mp hp
      exact .inr (List.find?_isSome.mpr ⟨e, (List.mem_filter.mp he).1, hsame⟩)
  · rintro (h | h)
    · obtain ⟨e, he, hsame⟩ := List.find?_isSome.mp h
      obtain ⟨p, hp, hep⟩ := stored_same (t := t) (.inl he)
      exact ⟨p, hp, Place.same_trans (Place.same_symm hep) hsame⟩
    · obtain ⟨e, he, hsame⟩ := List.find?_isSome.mp h
      obtain ⟨p, hp, hep⟩ := stored_same (s := s) (.inr he)
      exact ⟨p, hp, Place.same_trans (Place.same_symm hep) hsame⟩

/-- The entry of a place after a join: its state comes from the places around it in both states. -/
theorem find?_merged (s t : MoveState) (q : Place) (h : (s.has q || t.has q) = true) :
    ∃ e, (s.merged t).find? q = some e ∧ e.state = (s.ownState q).join (t.ownState q) ∧
      e.site.isSome = (decide ((s.ownState q).join (t.ownState q) = .moved) && (s.sited q || t.sited q)) := by
  rw [← isSome_find?_stored] at h
  obtain ⟨p, hp⟩ := Option.isSome_iff_exists.mp h
  have hsame := List.find?_some hp
  have hfind : (s.merged t).find? q = some ⟨p, (s.ownState p).join (t.ownState p),
      if (s.ownState p).join (t.ownState p) = .moved then
        ((s.find? p).bind MoveEntry.site).or ((t.find? p).bind MoveEntry.site) else none⟩ := by
    rw [find?, merged, List.find?_map]
    exact congrArg (Option.map _) hp
  refine ⟨_, hfind, ?_, ?_⟩
  · rw [s.ownState_congr hsame, t.ownState_congr hsame]
  · dsimp only
    rw [s.ownState_congr hsame, t.ownState_congr hsame, s.find?_congr hsame, t.find?_congr hsame]
    split
    · rename_i hmoved
      rw [Option.isSome_or, sited, sited, decide_eq_true hmoved, Bool.true_and]
    · rename_i hmoved
      rw [decide_eq_false hmoved]
      rfl

theorem has_merged (s t : MoveState) (q : Place) : (s.merged t).has q = (s.has q || t.has q) := by
  rw [← isSome_find?_stored, has, find?, merged, List.find?_map, Option.isSome_map]
  rfl

theorem cell?_merged (s t : MoveState) (q : Place) : (s.merged t).cell? q =
    if s.has q || t.has q then some ((s.ownState q).join (t.ownState q)) else none := by
  split
  · rename_i h
    obtain ⟨e, he, hstate, _⟩ := find?_merged s t q h
    rw [cell?, he, ← hstate]
    rfl
  · rename_i h
    rw [← has_merged, has, Bool.not_eq_true, Option.isSome_eq_false_iff, Option.isNone_iff_eq_none] at h
    rw [cell?, h]
    rfl

/-- What is stored below a root is not kept by a join: where both states never set the root, a place below it
that was moved is again one that was never set. -/
theorem cell?_merged_of_uninit (hs : s.Distinct) (ht : t.Distinct) (hp : s.cell? p = some .moved)
    (hroot : s.cell? p.bare = some .uninit) (hroot' : t.cell? p.bare = some .uninit) :
    (s.merged t).cell? p = some .uninit ∧ (s.merged t).sameAs s = false := by
  have hown : ∀ {u : MoveState}, u.Distinct → u.cell? p.bare = some .uninit → u.ownState p = .uninit := by
    intro u hu hcell
    have hmarks : u.marks p.bare = true := by rw [marks, hcell]; rfl
    exact Option.some.inj ((ownState_of_root hu hmarks).symm.trans hcell)
  have hhas : s.has p = true := by rw [has, ← Option.isSome_map, ← cell?, hp]; rfl
  have hcell : (s.merged t).cell? p = some .uninit := by
    rw [cell?_merged, hhas, Bool.true_or, if_pos rfl, hown hs hroot, hown ht hroot']
    rfl
  refine ⟨hcell, Bool.eq_false_iff.mpr fun hsame => ?_⟩
  obtain ⟨e, he, hstate⟩ := Option.map_eq_some_iff.mp hp
  obtain ⟨hmem, hplace⟩ := mem_of_find? he
  have hwithin := List.all_eq_true.mp (Bool.and_eq_true_iff.mp hsame).2 e hmem
  obtain ⟨f, hf, hagree⟩ := (Option.any_eq_true _ _).mp hwithin
  rw [find?_congr _ hplace] at hf
  rw [cell?, hf] at hcell
  simp [hstate, Option.some.inj hcell] at hagree

theorem has_of_sited (h : s.sited q = true) : s.has q = true := by
  rw [has]
  cases hf : s.find? q with
  | none => rw [sited, hf] at h; cases h
  | some e => rfl

theorem sited_merged (s t : MoveState) (q : Place) : (s.merged t).sited q =
    (decide ((s.ownState q).join (t.ownState q) = .moved) && (s.sited q || t.sited q)) := by
  cases h : s.has q || t.has q with
  | true =>
    obtain ⟨e, he, _, hsite⟩ := find?_merged s t q h
    rw [sited, he, ← hsite]
    rfl
  | false =>
    obtain ⟨hs, ht⟩ := Bool.or_eq_false_iff.mp h
    have hsno : s.sited q = false := by
      cases hq : s.sited q with
      | false => rfl
      | true => rw [has_of_sited hq] at hs; cases hs
    have htno : t.sited q = false := by
      cases hq : t.sited q with
      | false => rfl
      | true => rw [has_of_sited hq] at ht; cases ht
    have hmno : (s.merged t).sited q = false := by
      cases hq : (s.merged t).sited q with
      | false => rfl
      | true => rw [← has_merged, has_of_sited hq] at h; cases h
    rw [hsno, htno, hmno]
    simp

theorem Alike.cell?_merged {s' t' : MoveState} (h : s.Alike s') (k : t.Alike t') (hs : s.Regular) (hs' : s'.Regular)
    (ht : t.Regular) (ht' : t'.Regular) (q : Place) : (s.merged t).cell? q = (s'.merged t').cell? q := by
  rw [MoveState.cell?_merged, MoveState.cell?_merged, h.has, k.has, h.ownState hs hs' q, k.ownState ht ht' q]

theorem distinct_merged (hs : s.Distinct) (ht : t.Distinct) : (s.merged t).Distinct := by
  have hstored : (stored s t).Pairwise fun p q => p.same q = false := by
    refine List.pairwise_append.mpr ⟨List.pairwise_map.mpr hs, List.pairwise_map.mpr (ht.filter _), ?_⟩
    intro p hp q hq
    obtain ⟨d, hd, rfl⟩ := List.mem_map.mp hp
    obtain ⟨e, he, rfl⟩ := List.mem_map.mp hq
    have hnone : s.find? e.place = none := by simpa using (List.mem_filter.mp he).2
    simpa using List.find?_eq_none.mp hnone d hd
  exact List.pairwise_map.mpr hstored

theorem blocked_of_marks (h : s.marks q = true) : s.Blocked q :=
  ⟨q, h, .inl (Place.compare_of_same q.same_refl)⟩

/-- What is marked in one of two states stays so in their join. -/
theorem marks_merged (hs : s.Regular) (ht : t.Regular) (h : s.marks q = true ∨ t.marks q = true) :
    (s.merged t).marks q = true := by
  have hhas : (s.has q || t.has q) = true := by
    rw [Bool.or_eq_true]
    exact h.imp has_of_marks has_of_marks
  have hown : s.ownState q ≠ .init ∨ t.ownState q ≠ .init := by
    rw [Ne, ownState_eq_init_iff hs.distinct, not_not, Ne, ownState_eq_init_iff ht.distinct, not_not]
    exact h.imp blocked_of_marks blocked_of_marks
  rw [marks, cell?_merged, if_pos hhas]
  simpa using PlaceState.join_not_init (ownState_not_partly hs.plain) (ownState_not_partly ht.plain) hown

theorem lost_merged (hs : s.Regular) (h : s.lost q = true) : (s.merged t).lost q = true := by
  rw [lost, Bool.and_eq_true, List.isEmpty_iff] at h
  obtain ⟨hpath, hmoved⟩ := h
  have hcell : s.cell? q = some .moved := by
    obtain ⟨x, hx, hmoved⟩ := (Option.any_eq_true _ _).mp hmoved
    rw [hx, of_decide_eq_true hmoved]
  have hbare : q.same q.bare = true := Place.same_iff.mpr ⟨rfl, hpath⟩
  have hmarks : s.marks q = true := by rw [marks, hcell]; rfl
  have hown := ownState_of_root hs.distinct ((s.marks_congr hbare).symm.trans hmarks)
  rw [← s.cell?_congr hbare, hcell, Option.some.injEq] at hown
  have hjoin : (s.ownState q).join (t.ownState q) = .moved := by
    rw [← hown]
    cases t.ownState q <;> rfl
  rw [lost, cell?_merged, has_of_marks hmarks, hjoin, hpath]
  rfl

theorem Regular.marks_bare (h : s.Regular) (hown : s.ownState q = .uninit) : s.marks q.bare = true := by
  cases hm : s.marks q.bare with
  | true => rfl
  | false =>
    by_cases hb : s.Blocked q
    · rw [h.ownState_of_blocked hm hb] at hown
      cases hown
    · rw [(ownState_eq_init_iff h.distinct).mpr hb] at hown
      cases hown

theorem Regular.merged (hs : s.Regular) (ht : t.Regular) : (s.merged t).Regular := by
  refine ⟨plain_merged hs.plain ht.plain, distinct_merged hs.distinct ht.distinct, fun q hq => ?_, fun q hq => ?_⟩
  · have hhas := has_of_sited hq
    rw [has_merged] at hhas
    rw [sited_merged, Bool.and_eq_true, decide_eq_true_eq] at hq
    rw [cell?_merged, if_pos hhas, hq.1]
  · have hown : s.ownState q = .uninit ∨ t.ownState q = .uninit := by
      rw [cell?_merged] at hq
      split at hq
      · have hjoin := Option.some.inj hq
        cases hsq : s.ownState q <;> cases htq : t.ownState q <;> simp_all [PlaceState.join]
      · cases hq
    exact marks_merged hs ht (hown.imp hs.marks_bare ht.marks_bare)

/-- States with the same cells, moved from somewhere in one if in the other, are the same to tracking. -/
theorem within_of_cells (hs : s.Distinct) (hcell : ∀ p, s.cell? p = t.cell? p)
    (hsited : ∀ p, s.sited p = t.sited p) : s.within t = true := by
  refine List.all_eq_true.mpr fun e he => ?_
  have hfind := find?_of_mem hs he
  have hcell := hcell e.place
  have hsited := hsited e.place
  rw [cell?, hfind] at hcell
  rw [sited, hfind] at hsited
  cases ht : t.find? e.place with
  | none =>
    rw [cell?, ht] at hcell
    cases hcell
  | some d =>
    rw [cell?, ht] at hcell
    rw [sited, ht] at hsited
    have hstate : e.state = d.state := Option.some.inj hcell
    have hsite : e.site.isSome = d.site.isSome := hsited
    simp [hstate, hsite]

theorem sameAs_of_cells (hs : s.Distinct) (ht : t.Distinct) (hcell : ∀ p, s.cell? p = t.cell? p)
    (hsited : ∀ p, s.sited p = t.sited p) : s.sameAs t = true := by
  rw [sameAs, within_of_cells hs hcell hsited, within_of_cells ht (fun p => (hcell p).symm) fun p => (hsited p).symm]
  rfl

end MoveState

end Ownership
