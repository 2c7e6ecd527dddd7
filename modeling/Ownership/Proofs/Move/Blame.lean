import Ownership.Proofs.Move.Joins
import Ownership.Proofs.Move.Precision
import Ownership.Proofs.Place.Blurred

/-!
Which move a finding is blamed on. A use of something that was moved comes with a note on the move, if
the entry that is responsible for it knows where its place was moved from. Moves store that, and joins
keep it; but a join also marks a place that was only assigned, where another place around it was moved
in the other state, and then there is nothing to tell. Which of several entries is responsible depends on
the order in which joins list them, so tracking is looked at with any order.
-/
namespace Ownership

open Outcome

/-- One of the accesses moves the place, from this position in the text. -/
def MovedIn (led : Set Access) (p : Place) (span : Span) : Prop :=
  ∃ m ∈ led, m.kind = .move ∧ m.place.same p = true ∧ m.span = span

/-- One of the accesses assigns to the place, which is a known one. -/
def WrittenIn (led : Set Access) (p : Place) : Prop :=
  ∃ w ∈ led, w.kind = .write ∧ w.place.isExact = true ∧ w.place.same p = true

/-- One of the accesses moves another place around this one. -/
def MovedAround (led : Set Access) (p : Place) : Prop :=
  ∃ m ∈ led, m.kind = .move ∧ m.place.root = p.root ∧ m.place.path ≠ p.path ∧ Blurs m.place.path p.path

section

variable {led more : Set Access} {p q : Place} {span : Span}

theorem MovedIn.mono (h : MovedIn led p span) (hsub : led ⊆ more) : MovedIn more p span := by
  obtain ⟨m, hm, hrest⟩ := h
  exact ⟨m, hsub hm, hrest⟩

theorem WrittenIn.mono (h : WrittenIn led p) (hsub : led ⊆ more) : WrittenIn more p := by
  obtain ⟨w, hw, hrest⟩ := h
  exact ⟨w, hsub hw, hrest⟩

theorem MovedAround.mono (h : MovedAround led p) (hsub : led ⊆ more) : MovedAround more p := by
  obtain ⟨m, hm, hrest⟩ := h
  exact ⟨m, hsub hm, hrest⟩

theorem MovedIn.congr (h : MovedIn led p span) (hsame : p.same q = true) : MovedIn led q span := by
  obtain ⟨m, hm, hkind, hplace, hspan⟩ := h
  exact ⟨m, hm, hkind, Place.same_trans hplace hsame, hspan⟩

end

namespace MoveState

/-- Where it is known where a place was moved from, one of the accesses moved it. It is known for
moved roots, and below a root that is not marked it is unknown only for places that are assigned to;
if one of these is marked, another place around it is moved. -/
structure Told (led : Set Access) (s : MoveState) : Prop where
  regular : s.Regular
  site : ∀ e ∈ s.entries, ∀ span ∈ e.site, MovedIn led e.place span
  root : ∀ e ∈ s.entries, e.place.path = [] → e.state = .moved → e.site.isSome = true
  part : ∀ e ∈ s.entries, e.place.path ≠ [] → s.marks e.place.bare = false → e.site.isSome = true ∨
    WrittenIn led e.place ∧ (e.state ≠ .init → MovedAround led e.place)

variable {led more : Set Access} {s t u : MoveState} {f : Function} {a : Access} {p q : Place} {e : MoveEntry}

theorem Told.mono (h : s.Told led) (hsub : led ⊆ more) : s.Told more where
  regular := h.regular
  site e he span hspan := (h.site e he span hspan).mono hsub
  root := h.root
  part e he hpath hroot := (h.part e he hpath hroot).imp_right fun hrest =>
    ⟨hrest.1.mono hsub, fun hstate => (hrest.2 hstate).mono hsub⟩

theorem Told.perm (h : s.Told led) (hperm : s.entries.Perm t.entries) : t.Told led where
  regular := h.regular.perm hperm
  site e he := h.site e (hperm.mem_iff.mpr he)
  root e he := h.root e (hperm.mem_iff.mpr he)
  part e he hpath hroot := by
    rw [← (h.regular.alike_of_perm hperm).marks] at hroot
    exact h.part e (hperm.mem_iff.mpr he) hpath hroot

theorem told_empty (led : Set Access) : Told led {} where
  regular := ⟨fun _ he => absurd he List.not_mem_nil, List.Pairwise.nil, by simp [sited, find?],
    by simp [cell?, find?]⟩
  site _ he := absurd he List.not_mem_nil
  root _ he := absurd he List.not_mem_nil
  part _ he := absurd he List.not_mem_nil

theorem told_initialMoves (led : Set Access) (f : Function) : Told led (initialMoves f) := by
  have hentry : ∀ e ∈ (initialMoves f).entries, e.place.path = [] ∧ e.state ≠ .moved ∧ e.site = none := by
    intro e he
    obtain ⟨⟨id, b⟩, _, rfl⟩ := List.mem_map.mp he
    refine ⟨rfl, ?_, rfl⟩
    dsimp only
    split <;> simp
  refine ⟨MoveProblem.regular_initialMoves f, ?_, ?_, ?_⟩
  · intro e he span hspan
    rw [(hentry e he).2.2] at hspan
    cases hspan
  · exact fun e he _ hmoved => absurd hmoved (hentry e he).2.1
  · exact fun e he hpath => absurd (hentry e he).1 hpath

/-- An entry that is kept when a state is stored has the root that it had. -/
theorem marks_put_kept {state : PlaceState} {site : Option Span} (he : e ∈ (s.clearBelow p).entries) :
    (s.put p state site).marks e.place.bare = s.marks e.place.bare := by
  have hkept : e.place.spelledIn p = false := by
    have hout := (List.mem_filter.mp he).2
    rwa [Bool.not_eq_true'] at hout
  have hbare : e.place.bare.spelledIn p = false := by
    by_cases hpath : p.path = []
    · simp only [Place.spelledIn, Place.bare, hpath, List.length_nil, List.take_zero, decide_true,
        Bool.and_true] at hkept ⊢
      exact hkept
    · exact Place.spelledIn_bare hpath
  have hne : p.same e.place.bare = false := Bool.eq_false_iff.mpr fun hsame => by
    rw [Place.spelledIn_of_same hsame] at hbare
    cases hbare
  rw [marks_put, if_neg (by simp [hne]), if_neg (by simp [hbare])]

theorem Told.put (h : s.Told led) {state : PlaceState} {site : Option Span} (hpartly : state ≠ .partly)
    (hsite : site.isSome = true ↔ state = .moved) (hmoved : ∀ span ∈ site, MovedIn led p span)
    (huninit : state = .uninit → p.path = []) (hinit : state = .init → p.path ≠ [] → WrittenIn led p) :
    (s.put p state site).Told led := by
  refine ⟨h.regular.put hpartly hsite.mp huninit, fun e he => ?_, fun e he => ?_, fun e he => ?_⟩
  all_goals rcases List.mem_append.mp he with he | he
  · exact h.site e (List.mem_filter.mp he).1
  · rw [List.mem_singleton.mp he]
    exact hmoved
  · exact h.root e (List.mem_filter.mp he).1
  · rw [List.mem_singleton.mp he]
    exact fun _ => hsite.mpr
  · rw [marks_put_kept he]
    exact h.part e (List.mem_filter.mp he).1
  · rw [List.mem_singleton.mp he]
    intro hpath _
    cases state with
    | init => exact .inr ⟨hinit rfl hpath, fun hstate => absurd rfl hstate⟩
    | partly => exact absurd rfl hpartly
    | moved => exact .inl (hsite.mpr rfl)
    | uninit => exact absurd (huninit rfl) hpath

/-- An access that is among those a state tells of keeps it so. -/
theorem Told.apply (h : s.Told led) (ha : a ∈ led)
    (hroot : a.kind = .init ∨ a.kind = .declare ∨ a.kind = .storageDead → a.place.path = []) :
    (s.apply f a).Told led := by
  have hset (hinit : a.place.isExact = true → a.place.path ≠ [] → WrittenIn led a.place) :
      (s.setInit a.place).Told led := by
    unfold setInit
    split
    · rename_i hexact
      exact h.put (by simp) (by simp) (by simp) (by simp) fun _ => hinit hexact
    · exact h
  unfold MoveState.apply
  split
  · exact h
  · cases hkind : a.kind with
    | declare => exact h.put (by simp) (by simp) (by simp) (fun _ => hroot (.inr (.inl hkind))) (by simp)
    | storageDead => exact h.put (by simp) (by simp) (by simp) (fun _ => hroot (.inr (.inr hkind))) (by simp)
    | move =>
      refine h.put (by simp) (by simp) (fun span hspan => ?_) (by simp) (by simp)
      exact ⟨a, ha, hkind, a.place.same_refl, Option.some.inj hspan⟩
    | init => exact hset fun _ hpath => absurd (hroot (.inl hkind)) hpath
    | write => exact hset fun hexact _ => ⟨a, ha, hkind, hexact, a.place.same_refl⟩
    | read | borrowShared | borrowMut | inspect => exact h

theorem Told.movedIn_of_find? (h : s.Told led) {span : Span} (hspan : (s.find? p).bind MoveEntry.site = some span) :
    MovedIn led p span := by
  obtain ⟨e, he, hsite⟩ := Option.bind_eq_some_iff.mp hspan
  obtain ⟨hmem, hsame⟩ := mem_of_find? he
  exact (h.site e hmem span hsite).congr hsame

theorem sited_of_mem (h : s.Distinct) (he : e ∈ s.entries) (hsite : e.site.isSome = true)
    (hsame : e.place.same p = true) : s.sited p = true := by
  rw [sited, ← s.find?_congr hsame, find?_of_mem h he]
  exact hsite

/-- A moved root is known to be moved from somewhere. -/
theorem Told.sited_root (h : s.Told led) (hpath : p.path = []) (hown : s.ownState p = .moved) :
    s.sited p = true := by
  have hbare := Place.bare_of_root hpath
  obtain ⟨q, hq, haround⟩ := h.regular.distinct.blocked_of_moved hown
  have hsame : q.same p = true := by
    have hroot := Place.root_of_around haround
    rw [Place.compare, if_pos hroot] at haround
    have hlength := (Place.around_iff.mp haround).2
    rw [hpath, List.length_nil, Nat.le_zero, List.length_eq_zero_iff] at hlength
    exact Place.same_iff.mpr ⟨hroot, hlength.trans hpath.symm⟩
  rw [s.marks_congr hsame, ← hbare] at hq
  have hcell := ownState_of_root h.regular.distinct hq
  rw [hbare, hown] at hcell
  obtain ⟨e, he, hstate⟩ := Option.map_eq_some_iff.mp hcell
  obtain ⟨hmem, hplace⟩ := mem_of_find? he
  exact sited_of_mem h.regular.distinct hmem
    (h.root e hmem ((Place.same_iff.mp hplace).2.trans hpath) hstate) hplace

/-- Below a root that is not marked, what is known to be moved from somewhere is moved. -/
theorem Regular.ownState_of_sited (h : s.Regular) (hroot : s.marks p.bare = false) (hsite : s.sited p = true) :
    s.ownState p = .moved := by
  refine h.ownState_of_blocked hroot (blocked_of_marks ?_)
  rw [marks, h.site p hsite]
  rfl

theorem Told.written_of_unsited (h : s.Told led) (he : e ∈ s.entries) (hpath : e.place.path ≠ [])
    (hroot : s.marks e.place.bare = false) (hsite : s.sited e.place = false) : WrittenIn led e.place := by
  refine ((h.part e he hpath hroot).resolve_left fun hsited => ?_).1
  rw [sited_of_mem h.regular.distinct he hsited e.place.same_refl] at hsite
  cases hsite

theorem Told.written_of_stored (hs : s.Told led) (ht : t.Told led) (hp : p ∈ stored s t) (hpath : p.path ≠ [])
    (hsroot : s.marks p.bare = false) (htroot : t.marks p.bare = false) (hssite : s.sited p = false)
    (htsite : t.sited p = false) : WrittenIn led p := by
  rcases List.mem_append.mp hp with hp | hp
  · obtain ⟨e, he, rfl⟩ := List.mem_map.mp hp
    exact hs.written_of_unsited he hpath hsroot hssite
  · obtain ⟨e, he, rfl⟩ := List.mem_map.mp hp
    exact ht.written_of_unsited (List.mem_filter.mp he).1 hpath htroot htsite

theorem marks_of_merged (hs : s.Regular) (ht : t.Regular) (h : (s.merged t).marks p = false) :
    s.marks p = false ∧ t.marks p = false := by
  rw [← Bool.or_eq_false_iff, Bool.eq_false_iff, Ne, Bool.or_eq_true]
  intro hm
  rw [marks_merged hs ht hm] at h
  cases h

section

variable {cx : Context} (hplaced : ∀ a ∈ led, (∃ ty, cx.PlaceType a.place ty) ∧ a.place.Spelled)

include hplaced

theorem blurs_of_around (hp : ∃ a ∈ led, a.place.same p = true) (hq : WrittenIn led q)
    (h : p.compare q = .equal ∨ p.compare q = .contains) : p.root = q.root ∧ Blurs p.path q.path := by
  obtain ⟨a, ha, hap⟩ := hp
  obtain ⟨w, hw, _, hexact, hwq⟩ := hq
  obtain ⟨⟨_, hty⟩, hspelled⟩ := hplaced a ha
  obtain ⟨⟨_, hty'⟩, hspelled'⟩ := hplaced w hw
  rw [← Place.compare_congr hap, ← Place.compare_congr_right hwq] at h
  have hblurs := Place.blurs_of_compare hty hspelled hty' hspelled' hexact h
  rwa [(Place.same_iff.mp hap).1, (Place.same_iff.mp hap).2, (Place.same_iff.mp hwq).1,
    (Place.same_iff.mp hwq).2] at hblurs

/-- An assigned place is blocked only by what was moved around it, if nothing is known of its own
move. What blocks it was moved itself, or stands below a move that is around the place as well. -/
theorem Told.movedAround (h : s.Told led) (hroot : s.marks p.bare = false) (hwritten : WrittenIn led p)
    (hsite : s.sited p = false) (hb : s.Blocked p) : MovedAround led p := by
  obtain ⟨q, hq, haround⟩ := hb
  obtain ⟨e, he, hstate⟩ := marks_iff.mp hq
  obtain ⟨hmem, hsame⟩ := mem_of_find? he
  rw [← Place.compare_congr hsame] at haround
  have heroot := Place.root_of_around haround
  have hbare : s.marks e.place.bare = false := by
    rw [← hroot]
    exact s.marks_congr (Place.same_iff.mpr ⟨heroot, rfl⟩)
  have hpath : e.place.path ≠ [] := by
    intro hnil
    have hroot' : q.same e.place.bare = true := Place.same_trans (Place.same_symm hsame)
      (Place.same_iff.mpr ⟨rfl, hnil⟩)
    rw [← s.marks_congr hroot', hq] at hbare
    cases hbare
  rcases h.part e hmem hpath hbare with hsited | ⟨hassigned, hmoved⟩
  · obtain ⟨span, hspan⟩ := Option.isSome_iff_exists.mp hsited
    obtain ⟨m, hm, hkind, hplace, _⟩ := h.site e hmem span hspan
    obtain ⟨hmroot, hmpath⟩ := Place.same_iff.mp hplace
    have hblurs := (blurs_of_around hplaced ⟨m, hm, hplace⟩ hwritten haround).2
    refine ⟨m, hm, hkind, hmroot.trans heroot, fun heq => ?_, hmpath ▸ hblurs⟩
    have hep : e.place.same p = true := Place.same_iff.mpr ⟨heroot, hmpath.symm.trans heq⟩
    rw [sited_of_mem h.regular.distinct hmem hsited hep] at hsite
    cases hsite
  · obtain ⟨m, hm, hkind, hmroot, hmpath, hmblurs⟩ := hmoved hstate
    obtain ⟨w, hw, _, hexact, hwe⟩ := hassigned
    have hblurs := (blurs_of_around hplaced ⟨w, hw, hwe⟩ hwritten haround).2
    refine ⟨m, hm, hkind, hmroot.trans heroot, fun heq => ?_, hmblurs.trans hblurs⟩
    have hno : .anyElement ∉ e.place.path := by
      rw [← (Place.same_iff.mp hwe).2]
      simpa [Place.isExact] using hexact
    exact hmpath (heq.trans (hblurs.antisymm (heq ▸ hmblurs) hno).symm)

theorem Told.merged (hs : s.Told led) (ht : t.Told led) : (s.merged t).Told led := by
  have hsite : ∀ q, (s.ownState q).join (t.ownState q) = .moved → s.sited q = true ∨ t.sited q = true →
      (if (s.ownState q).join (t.ownState q) = .moved then
        ((s.find? q).bind MoveEntry.site).or ((t.find? q).bind MoveEntry.site) else none).isSome = true := by
    intro q hmoved hsited
    rw [if_pos hmoved, Option.isSome_or, Bool.or_eq_true]
    exact hsited
  refine ⟨hs.regular.merged ht.regular, fun e he => ?_, fun e he => ?_, fun e he => ?_⟩
  all_goals obtain ⟨q, hq, rfl⟩ := List.mem_map.mp he
  · intro span hspan
    dsimp only at hspan
    split at hspan
    · rcases Option.or_eq_some_iff.mp hspan with hspan | ⟨_, hspan⟩
      · exact hs.movedIn_of_find? hspan
      · exact ht.movedIn_of_find? hspan
    · cases hspan
  · intro hpath hmoved
    exact hsite q hmoved ((PlaceState.join_eq_moved_iff.mp hmoved).imp (hs.sited_root hpath) (ht.sited_root hpath))
  · intro hpath hroot
    obtain ⟨hsroot, htroot⟩ := marks_of_merged hs.regular ht.regular hroot
    by_cases hsited : s.sited q = true ∨ t.sited q = true
    · refine .inl (hsite q (PlaceState.join_eq_moved_iff.mpr ?_) hsited)
      exact hsited.imp (hs.regular.ownState_of_sited hsroot) (ht.regular.ownState_of_sited htroot)
    · simp only [not_or, Bool.not_eq_true] at hsited
      have hwritten := hs.written_of_stored ht hq hpath hsroot htroot hsited.1 hsited.2
      refine .inr ⟨hwritten, fun hstate => ?_⟩
      by_cases hown : s.ownState q = .init
      · refine ht.movedAround hplaced htroot hwritten hsited.2 ?_
        by_contra hfree
        exact hstate (by simp [hown, (ownState_eq_init_iff ht.regular.distinct).mpr hfree, PlaceState.join])
      · refine hs.movedAround hplaced hsroot hwritten hsited.1 ?_
        rwa [ownState_eq_init_iff hs.regular.distinct, not_not] at hown

end

/-- A root that is marked blocks a place before anything else does. -/
theorem marks_of_blocker? (h : s.blocker? p = some e) (hpath : e.place.path ≠ []) : s.marks p.bare = false := by
  refine Bool.eq_false_iff.mpr fun hm => hpath ?_
  obtain ⟨r, hr, hstate⟩ := marks_iff.mp hm
  obtain ⟨hmem, hsame⟩ := mem_of_find? hr
  have hblocks : r.blocks p = true := by
    rw [MoveEntry.blocks, Place.compare_congr hsame]
    rcases p.compare_bare with hc | hc <;> simp [hstate, hc]
  have hle := (foldl_shallower_le _ none h).2 r (List.mem_filter.mpr ⟨hmem, hblocks⟩)
  have hzero : r.depth = 0 := by rw [MoveEntry.depth, (Place.same_iff.mp hsame).2]; rfl
  rw [hzero, Nat.le_zero] at hle
  exact List.length_eq_zero_iff.mp hle

/-- It is known where the place of the entry was moved from, or the place was assigned to and another one
around it was moved. -/
def Explained (led : Set Access) (e : MoveEntry) : Prop :=
  e.site.isSome = true ∨ WrittenIn led e.place ∧ MovedAround led e.place

theorem Told.explained_part (h : s.Told led) (he : e ∈ s.entries) (hinit : e.state ≠ .init)
    (hpath : e.place.path ≠ []) (hroot : e.place.root = p.root) (hbare : s.marks p.bare = false) :
    Explained led e := by
  have hsame : e.place.bare.same p.bare = true := Place.same_iff.mpr ⟨hroot, rfl⟩
  rw [← s.marks_congr hsame] at hbare
  exact (h.part e he hpath hbare).imp_right fun hrest => ⟨hrest.1, hrest.2 hinit⟩

theorem Told.explained_blocker (h : s.Told led) (hb : s.blocker? p = some e) (hmoved : e.state = .moved) :
    e.place.conflicts p = true ∧ Explained led e := by
  obtain ⟨hmem, hblocks⟩ := blocker?_mem hb
  constructor
  · simp only [MoveEntry.blocks, Bool.and_eq_true, Bool.or_eq_true, decide_eq_true_eq] at hblocks
    rcases hblocks.2 with hc | hc <;> simp [Place.conflicts, hc]
  · by_cases hpath : e.place.path = []
    · exact .inl (h.root e hmem hpath hmoved)
    · exact h.explained_part hmem (blocks_not_init hblocks) hpath (root_of_blocks hblocks)
        (marks_of_blocker? hb hpath)

theorem Told.explained_dent (h : s.Told led) (hfree : s.blocker? p = none) (he : e ∈ s.entries)
    (hdents : e.dents p = true) : e.place.conflicts p = true ∧ Explained led e := by
  simp only [MoveEntry.dents, Bool.and_eq_true, decide_eq_true_eq] at hdents
  obtain ⟨hinit, hwithin⟩ := hdents
  have hroot : e.place.root = p.root := Place.root_of_compare (by simp [hwithin])
  have hpath : e.place.path ≠ [] := by
    intro hnil
    rw [Place.compare, if_pos hroot, hnil] at hwithin
    cases hp : p.path <;> simp [hp, Place.comparePaths] at hwithin
  have hbare : s.marks p.bare = false := Bool.eq_false_iff.mpr fun hm => by
    have hsome := (blocker?_isSome_iff h.regular.distinct).mpr ⟨p.bare, hm, p.compare_bare⟩
    rw [hfree] at hsome
    cases hsome
  exact ⟨by simp [Place.conflicts, hwithin], h.explained_part he hinit hpath hroot hbare⟩

/-- The entry that is responsible for a place being gone overlaps it and is explained. -/
theorem Told.explained_lookup (h : s.Told led) {state : PlaceState} (hlookup : s.lookup p = (state, some e))
    (hstate : state = .moved ∨ state = .partly) :
    e ∈ s.entries ∧ e.place.conflicts p = true ∧ Explained led e := by
  unfold MoveState.lookup at hlookup
  split at hlookup
  · rename_i b hb
    obtain ⟨rfl, he⟩ := Prod.mk.inj hlookup
    obtain rfl := Option.some.inj he
    have hmem := (blocker?_mem hb).1
    exact ⟨hmem, h.explained_blocker hb (hstate.resolve_right (h.regular.plain b hmem))⟩
  · rename_i hfree
    split at hlookup
    · rename_i d hd
      obtain rfl := Option.some.inj (Prod.mk.inj hlookup).2
      have hmem := List.mem_of_find?_eq_some hd
      have hdents := List.find?_some hd
      exact ⟨hmem, h.explained_dent hfree hmem hdents⟩
    · cases (Prod.mk.inj hlookup).2

end MoveState

/-- The accesses before what is left of a point, and those at points from which a path leads there. -/
def LeadsTo (g : Graph) (fx : EffectMap) (p : Point) (before : List Access) : Set Access :=
  {a | a ∈ before ∨ ∃ o ∈ g.allPoints, a ∈ fx.accesses o ∧ Relation.TransGen g.Follows o p}

/-- An access is objected to for the place that it uses, and an assignment for the place around its target. -/
def Access.Uses (a : Access) (p : Place) : Prop :=
  if a.kind = .write then a.place.parent = some p else p = a.place

theorem told_keptBy {cx : Context} {g : Graph} {fx : EffectMap} (hfx : cx.effects g = .ok fx)
    {join : MoveState → MoveState → MoveState}
    (hjoin : ∀ s t : MoveState, (s.merged t).entries.Perm (join s t).entries) :
    KeptBy join cx.function g fx fun p before s => s.Told (LeadsTo g fx p before) where
  start := MoveState.told_initialMoves _ cx.function
  empty p := MoveState.told_empty _
  access p hp before a after s hsplit hs := by
    have hmono : LeadsTo g fx p before ⊆ LeadsTo g fx p (before ++ [a]) :=
      fun _ => Or.imp_left (List.mem_append_left _)
    exact (hs.mono hmono).apply (.inl (List.mem_append_right _ List.mem_cons_self))
      (access_root hfx hp (by rw [hsplit]; simp))
  follow p hp q s hpq hs := by
    refine hs.mono ?_
    rintro a (ha | ⟨o, ho, ha, hpath⟩)
    · exact .inr ⟨p, hp, ha, .single hpq⟩
    · exact .inr ⟨o, ho, ha, hpath.tail hpq⟩
  join p _ s t hs ht := by
    have hplaced : ∀ a ∈ LeadsTo g fx p [], (∃ ty, cx.PlaceType a.place ty) ∧ a.place.Spelled := by
      rintro a (ha | ⟨o, ho, ha, _⟩)
      · cases ha
      · have hplaced := Context.accesses_placed hfx ho a ha
        exact ⟨hplaced.typed, hplaced.spelled⟩
    exact (hs.merged hplaced ht).perm (hjoin s t)

theorem MoveState.lookup_of_complaint {s : MoveState} {f : Function} {p : Place} {a : Access} {allow : Bool}
    {what : String} {d : Diagnostic} (h : s.complaint f p a allow what = some d)
    (hkind : d.kind = some .useAfterMove) :
    ∃ state e, s.lookup p = (state, some e) ∧ (state = .moved ∨ state = .partly) ∧
      d = useAfterMove p a what state (some e) := by
  have hsome : ∀ state culprit, s.lookup p = (state, culprit) → state ≠ .init → ∃ e, culprit = some e := by
    intro state culprit hlookup hinit
    unfold lookup at hlookup
    split at hlookup
    · exact ⟨_, (Prod.mk.inj hlookup).2.symm⟩
    · split at hlookup
      · exact ⟨_, (Prod.mk.inj hlookup).2.symm⟩
      · exact absurd (Prod.mk.inj hlookup).1.symm hinit
  unfold complaint at h
  split at h
  · cases h
  · obtain rfl := Option.some.inj h
    cases hkind
  · rename_i culprit hlookup
    split at h
    · cases h
    · obtain ⟨e, rfl⟩ := hsome _ _ hlookup (by simp)
      exact ⟨_, e, hlookup, .inr rfl, (Option.some.inj h).symm⟩
  · rename_i culprit hlookup
    obtain ⟨e, rfl⟩ := hsome _ _ hlookup (by simp)
    exact ⟨_, e, hlookup, .inl rfl, (Option.some.inj h).symm⟩

/-- A use after a move is found by looking up the place that is used. -/
theorem MoveState.lookup_of_objection {s : MoveState} {f : Function} {a : Access} {d : Diagnostic}
    (h : s.objection f a = some d) (hkind : d.kind = some .useAfterMove) :
    ∃ p what state e, a.Uses p ∧ s.lookup p = (state, some e) ∧ (state = .moved ∨ state = .partly) ∧
      d = useAfterMove p a what state (some e) := by
  unfold objection at h
  cases hk : a.kind <;> simp only [hk] at h
  case declare => cases h
  case storageDead => cases h
  case init => cases h
  case write =>
    obtain ⟨parent, hparent, h⟩ := Option.bind_eq_some_iff.mp h
    exact ⟨parent, _, (lookup_of_complaint h hkind).imp fun _ => Exists.imp fun _ hrest =>
      ⟨by rwa [Access.Uses, if_pos hk], hrest⟩⟩
  case move =>
    split at h
    · obtain rfl := Option.some.inj h
      cases hkind
    · exact ⟨a.place, _, (lookup_of_complaint h hkind).imp fun _ => Exists.imp fun _ hrest =>
        ⟨by simp [Access.Uses, hk], hrest⟩⟩
  all_goals
    exact ⟨a.place, _, (lookup_of_complaint h hkind).imp fun _ => Exists.imp fun _ hrest =>
      ⟨by simp [Access.Uses, hk], hrest⟩⟩

/-- A use after a move is never reported without a move: some access that leads to it moves a place that
overlaps the one it uses. Whatever the order of joins, the report either has one note, on such a move, or
none; and it has none only if an assignment leads to it as well, to a known place which overlaps the used
one and around which the move takes another place. -/
theorem useAfterMove_blames {cx : Context} {g : Graph} {fx : EffectMap} (hfx : cx.effects g = .ok fx)
    {join : MoveState → MoveState → MoveState}
    (hjoin : ∀ s t : MoveState, (s.merged t).entries.Perm (join s t).entries) {limit : Option Int} {r : MoveResult}
    (h : trackMovesBy join g cx.function fx limit = .ok r) {d : Diagnostic} (hd : d ∈ r.findings)
    (hkind : d.kind = some .useAfterMove) :
    ∃ p ∈ g.allPoints, ∃ before a after q, fx.accesses p = before ++ a :: after ∧ a.Uses q ∧
      (∃ what state culprit, d = MoveState.useAfterMove q a what state culprit) ∧
      ∃ m ∈ LeadsTo g fx p before, m.kind = .move ∧ m.place.conflicts q = true ∧
        ((∃ label, d.related = [⟨m.span, label⟩]) ∨
          d.related = [] ∧ ∃ w ∈ LeadsTo g fx p before, w.kind = .write ∧ w.place.isExact = true ∧
            w.place.conflicts q = true ∧ m.place.same w.place = false ∧
            (m.place.compare w.place = .equal ∨ m.place.compare w.place = .contains)) := by
  obtain ⟨p, hp, before, a, after, s, hsplit, hs, hobject⟩ := (told_keptBy hfx hjoin).findings h hd
  obtain ⟨q, what, state, e, huses, hlookup, hstate, rfl⟩ := MoveState.lookup_of_objection hobject hkind
  obtain ⟨hmem, hconflicts, hexplained⟩ := hs.explained_lookup hlookup hstate
  refine ⟨p, hp, before, a, after, q, hsplit, huses, ⟨what, state, some e, rfl⟩, ?_⟩
  cases hsite : e.site with
  | some span =>
    obtain ⟨m, hm, hmove, hsame, rfl⟩ := hs.site e hmem span hsite
    refine ⟨m, hm, hmove, ?_, .inl ⟨"value moved here ('" ++ e.place.render ++ "')", ?_⟩⟩
    · rwa [Place.conflicts, Place.compare_congr hsame]
    · simp [MoveState.useAfterMove, hsite]
  | none =>
    rw [MoveState.Explained, hsite] at hexplained
    obtain ⟨⟨w, hw, hwrite, hexact, hsame⟩, m, hm, hmove, hroot, hpath, hblurs⟩ := hexplained.resolve_left (by simp)
    obtain ⟨hwroot, hwpath⟩ := Place.same_iff.mp hsame
    refine ⟨m, hm, hmove, ?_, .inr ⟨by simp [MoveState.useAfterMove, hsite], w, hw, hwrite, hexact, ?_, ?_, ?_⟩⟩
    · exact Place.conflicts_of_blurs hroot hblurs hconflicts
    · rwa [Place.conflicts, Place.compare_congr hsame]
    · simp [Place.same, hwpath, hpath]
    · rw [Place.compare, if_pos (hroot.trans hwroot.symm), hwpath]
      exact hblurs.around

/-- One branch moves a part away and the other assigns to a part of it. -/
def assignPart : Context where
  function :=
    { name := "assign_part"
      params := [⟨"c", 1, 1, {}⟩, ⟨"s", 2, 4, {}⟩]
      ret := none
      body := .mk [
        .branch (.var "c" 1 {})
          (.mk [.declare "t" 3 (some (.field (.var "s" 2 {}) "x" { line := some 3 })) {}] {})
          (some (.mk [.assign (.field (.field (.var "s" 2 {}) "x" {}) "f" {}) (.int 0 {}) {}] {})) {},
        .declare "u" 4 (some (.var "s" 2 {})) {}] {}
      bindings := .ofList [(1, ⟨1, "c", 1, .param, {}⟩), (2, ⟨2, "s", 4, .param, {}⟩),
        (3, ⟨3, "t", 3, .localVar, {}⟩), (4, ⟨4, "u", 4, .localVar, {}⟩)] }
  types :=
    { defs := [.scalar "Bool" true, .scalar "Int" true, .struct "X" none false, .struct "S" none false]
      structs := .ofList [("X", .ofList [("f", 2)]), ("S", .ofList [("x", 3)])] }
  signatures := {}

def assignPartGraph : Graph := assignPart.function.graph.toOption.getD default

def assignPartEffects : EffectMap := (assignPart.effects assignPartGraph).toOption.getD default

/-- Joins that list the entries from the last to the first. -/
def backwards (s t : MoveState) : MoveState := ⟨(s.merged t).entries.reverse⟩

/-- The kinds of the findings on the function and the spans of their notes, with these joins. -/
def assignPartNotes (join : MoveState → MoveState → MoveState) : Option (List (Option DiagnosticKind × List Span)) :=
  (trackMovesBy join assignPartGraph assignPart.function assignPartEffects none).toOption.map fun r =>
    r.findings.map fun d => (d.kind, d.related.map Related.span)

theorem exists_of_assignPartNotes {join : MoveState → MoveState → MoveState} {spans : List Span}
    (h : assignPartNotes join = some [(some .useAfterMove, spans)]) :
    ∃ r, trackMovesBy join assignPartGraph assignPart.function assignPartEffects none = .ok r ∧
      ∃ d ∈ r.findings, d.kind = some .useAfterMove ∧ d.related.map Related.span = spans := by
  obtain ⟨r, hr, hnotes⟩ := Option.map_eq_some_iff.mp h
  refine ⟨r, eq_ok_of_toOption hr, ?_⟩
  have hmem : (some DiagnosticKind.useAfterMove, spans) ∈
      r.findings.map fun d => (d.kind, d.related.map Related.span) := by
    rw [hnotes]
    exact List.mem_cons_self
  obtain ⟨d, hd, he⟩ := List.mem_map.mp hmem
  exact ⟨d, hd, (Prod.mk.inj he).1, (Prod.mk.inj he).2⟩

/-- Where the entries come from the last to the first, the note is on the move in the first branch. -/
theorem useAfterMove_blames_assignPart :
    ∃ r, trackMovesBy backwards assignPartGraph assignPart.function assignPartEffects none = .ok r ∧
      ∃ d ∈ r.findings, d.kind = some .useAfterMove ∧ d.related.map Related.span = [{ line := some 3 }] ∧
        ∃ p before, ∃ m ∈ LeadsTo assignPartGraph assignPartEffects p before, m.kind = .move ∧
          m.span = { line := some 3 } := by
  have hfx : assignPart.effects assignPartGraph = .ok assignPartEffects := eq_ok_getD _ (by decide +kernel)
  have hnotes : assignPartNotes backwards = some [(some .useAfterMove, [{ line := some 3 }])] := by decide +kernel
  obtain ⟨r, hr, d, hd, hkind, hspans⟩ := exists_of_assignPartNotes hnotes
  refine ⟨r, hr, d, hd, hkind, hspans, ?_⟩
  obtain ⟨p, _, before, _, _, _, _, _, _, m, hm, hmove, _, ⟨_, hnote⟩ | ⟨hnone, _⟩⟩ :=
    useAfterMove_blames hfx (fun s t => (List.reverse_perm _).symm) hr hd hkind
  · rw [hnote] at hspans
    exact ⟨p, before, m, hm, hmove, List.singleton_inj.mp hspans⟩
  · rw [hnone] at hspans
    cases hspans

/-- In the order of the joins themselves there is none, although the value was moved. -/
theorem useAfterMove_unblamed_assignPart :
    assignPart.function.graph = .ok assignPartGraph ∧ assignPart.effects assignPartGraph = .ok assignPartEffects ∧
      ∃ r, trackMoves assignPartGraph assignPart.function assignPartEffects none = .ok r ∧
        ∃ d ∈ r.findings, d.kind = some .useAfterMove ∧ d.related = [] := by
  refine ⟨eq_ok_getD _ (by decide +kernel), eq_ok_getD _ (by decide +kernel), ?_⟩
  have hnotes : assignPartNotes MoveState.merged = some [(some .useAfterMove, [])] := by decide +kernel
  obtain ⟨r, hr, d, hd, hkind, hspans⟩ := exists_of_assignPartNotes hnotes
  exact ⟨r, hr, d, hd, hkind, List.map_eq_nil_iff.mp hspans⟩

end Ownership
