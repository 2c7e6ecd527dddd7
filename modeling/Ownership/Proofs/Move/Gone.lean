import Ownership.Move.Tracking
import Ownership.Proofs.Effect.Collected
import Ownership.Proofs.Place.Storage

/-!
Storage that is gone: moved away, never set, or out of scope. Accesses change
this set one after the other, and each kind of access asks for some of the
storage to be there. A move state stands for the storage that its entries say
is gone; it keeps standing for at least what is gone, access by access, as long
as nothing is objected to, and where nothing is objected to the storage that an
access needs is there.
-/
namespace Ownership

namespace Access

/-- What is gone after an access that finds its place at `l`. -/
def goneAfter (a : Access) (l : Storage) (gone : Set Storage) : Set Storage :=
  match a.kind with
  | .move => {k | k ∈ gone ∨ k.Extends l}
  | .write | .init => {k | k ∈ gone ∧ ¬k.Extends l}
  | .declare | .storageDead => {k | k ∈ gone ∨ k.root = a.place.root}
  | .read | .borrowShared | .borrowMut | .inspect => gone

/-- The storage that an access needs is there. -/
def Permitted (a : Access) (l : Storage) (gone : Set Storage) : Prop :=
  match a.kind with
  | .read | .borrowShared | .borrowMut => ∀ k, k.Extends l → k ∉ gone
  | .move => (∀ k, k.Extends l → k ∉ gone) ∧ .deref ∉ l.path
  | .inspect => l ∉ gone
  | .write => l.path ≠ [] → l.parent ∉ gone
  | .init | .declare | .storageDead => True

/-- An access takes what is gone before it to what is gone after it, wherever its
unknown positions lead. -/
def Removes (a : Access) (gone gone' : Set Storage) : Prop :=
  ∃ l, a.place.Denotes l ∧ gone' = a.goneAfter l gone

end Access

/-- Whatever lies in storage that is gone is gone too. -/
def GoneWhole (gone : Set Storage) : Prop := ∀ l k, l ∈ gone → k.Extends l → k ∈ gone

/-- At first everything but the parameters is gone. -/
def Function.goneAtStart (f : Function) : Set Storage :=
  {l | ∃ b, f.bindings.get? l.root = some b ∧ b.kind ≠ .param}

namespace MoveState

/-- The storage that a state says is gone. -/
def gone (s : MoveState) : Set Storage :=
  {l | ∃ e ∈ s.entries, e.state ≠ .init ∧ e.place.Covers l}

/-- No entry is stored as partly gone; that is only ever an answer. -/
def Plain (s : MoveState) : Prop := ∀ e ∈ s.entries, e.state ≠ .partly

variable {s t : MoveState} {p : Place} {l : Storage}

theorem foldl_shallower_mem (es : List MoveEntry) (best : Option MoveEntry) {e : MoveEntry}
    (h : es.foldl shallower best = some e) : best = some e ∨ e ∈ es := by
  induction es generalizing best with
  | nil => exact .inl h
  | cons x xs ih =>
    rcases ih (shallower best x) h with hb | hx
    · cases best with
      | none => exact .inr (by simp_all [shallower])
      | some b =>
        simp only [shallower] at hb
        split at hb
        · exact .inr (by simp_all)
        · exact .inl hb
    · exact .inr (List.mem_cons_of_mem x hx)

theorem foldl_shallower_isSome (es : List MoveEntry) (best : Option MoveEntry)
    (h : best.isSome = true ∨ es ≠ []) : (es.foldl shallower best).isSome = true := by
  induction es generalizing best with
  | nil => simpa using h
  | cons x xs ih =>
    apply ih
    left
    cases best with
    | none => rfl
    | some b =>
      simp only [shallower]
      split <;> rfl

theorem blocker?_eq_none_iff : s.blocker? p = none ↔ ∀ e ∈ s.entries, e.blocks p = false := by
  unfold blocker?
  constructor
  · intro h e he
    by_contra hb
    have hne : s.entries.filter (·.blocks p) ≠ [] := by
      intro hnil
      exact hb (by simpa using List.filter_eq_nil_iff.mp hnil e he)
    have hsome := foldl_shallower_isSome _ none (.inr hne)
    rw [h] at hsome
    simp at hsome
  · intro h
    have hnil : s.entries.filter (·.blocks p) = [] := by
      apply List.filter_eq_nil_iff.mpr
      intro e he
      simp [h e he]
    rw [hnil]
    rfl

theorem blocker?_mem {e : MoveEntry} (h : s.blocker? p = some e) : e ∈ s.entries ∧ e.blocks p = true := by
  rcases foldl_shallower_mem _ _ h with hn | hmem
  · simp at hn
  · exact List.mem_filter.mp hmem

theorem blocks_not_init {e : MoveEntry} (h : e.blocks p = true) : e.state ≠ .init := by
  simp only [MoveEntry.blocks, Bool.and_eq_true, decide_eq_true_eq] at h
  exact h.1

/-- Nothing around a place is gone if no entry blocks it. -/
theorem not_gone_of_blocker (h : s.blocker? p = none) (hl : p.Denotes l) : l ∉ s.gone := by
  rintro ⟨e, he, hstate, hcover⟩
  have hb := blocker?_eq_none_iff.mp h e he
  rcases hcover.around hl with hc | hc <;> simp [MoveEntry.blocks, hstate, hc] at hb

/-- Nothing around or inside a place is gone if no entry blocks or dents it. -/
theorem not_gone_of_lookup (h : (s.lookup p).1 = .init) (hl : p.Denotes l) {k : Storage}
    (hk : k.Extends l) : k ∉ s.gone := by
  unfold lookup at h
  cases hb : s.blocker? p with
  | some e =>
    rw [hb] at h
    exact absurd h (blocks_not_init (blocker?_mem hb).2)
  | none =>
    rw [hb] at h
    cases hd : s.entries.find? (·.dents p) with
    | some e => simp [hd] at h
    | none =>
      rintro ⟨e, he, hstate, hcover⟩
      have hblock := blocker?_eq_none_iff.mp hb e he
      have hdent := List.find?_eq_none.mp hd e he
      have hshare := hcover.conflicts (hl.covers.extends hk)
      cases hc : e.place.compare p <;> simp_all [MoveEntry.blocks, MoveEntry.dents]

theorem lookup_init_of_complaint {f : Function} {a : Access} {what : String}
    (h : s.complaint f p a false what = none) : (s.lookup p).1 = .init := by
  unfold complaint at h
  split at h
  · rename_i hlook
    rw [hlook]
  · simp at h
  · simp at h
  · simp at h

theorem blocker?_of_complaint (hs : s.Plain) {f : Function} {a : Access} {what : String}
    (h : s.complaint f p a true what = none) : s.blocker? p = none := by
  cases hb : s.blocker? p with
  | none => rfl
  | some e =>
    exfalso
    obtain ⟨hmem, hblocks⟩ := blocker?_mem hb
    have hinit := blocks_not_init hblocks
    have hpartly := hs e hmem
    have hlook : s.lookup p = (e.state, some e) := by simp [lookup, hb]
    unfold complaint at h
    rw [hlook] at h
    cases hstate : e.state <;> simp_all

theorem plain_put {state : PlaceState} {site : Option Span} (hs : s.Plain) (h : state ≠ .partly) :
    (s.put p state site).Plain := by
  intro e he
  rcases List.mem_append.mp he with he | he
  · exact hs e (List.mem_filter.mp he).1
  · rw [List.mem_singleton.mp he]
    exact h

/-- Storing a state for a place only loses entries that are spelled as parts of it. -/
theorem gone_put_or_covers {state : PlaceState} {site : Option Span} (h : l ∈ s.gone) :
    l ∈ (s.put p state site).gone ∨ p.Covers l := by
  obtain ⟨e, he, hstate, hcover⟩ := h
  by_cases hspelled : e.place.root = p.root ∧ e.place.path.take p.path.length = p.path
  · exact .inr (hcover.of_spelled hspelled.1 hspelled.2)
  · refine .inl ⟨e, List.mem_append_left _ (List.mem_filter.mpr ⟨he, ?_⟩), hstate, hcover⟩
    simp only [Bool.not_eq_true', Bool.and_eq_false_iff, decide_eq_false_iff_not]
    exact Classical.not_and_iff_not_or_not.mp hspelled

theorem gone_put_of_covers {state : PlaceState} {site : Option Span} (h : state ≠ .init)
    (hp : p.Covers l) : l ∈ (s.put p state site).gone :=
  ⟨⟨p, state, site⟩, List.mem_append_right _ List.mem_cons_self, h, hp⟩

/-- Marking a place as gone keeps all that was gone, and adds what the place covers. -/
theorem gone_put_of_gone {state : PlaceState} {site : Option Span} (h : state ≠ .init)
    (hl : l ∈ s.gone ∨ p.Covers l) : l ∈ (s.put p state site).gone := by
  rcases hl with hl | hl
  · rcases gone_put_or_covers hl with hput | hcover
    · exact hput
    · exact gone_put_of_covers h hcover
  · exact gone_put_of_covers h hl

theorem plain_setInit (hs : s.Plain) : (s.setInit p).Plain := by
  unfold setInit
  split
  · exact plain_put hs (by simp)
  · exact hs

/-- Setting a place restores at most the one piece of storage it denotes. -/
theorem gone_setInit (hl : p.Denotes l) {k : Storage} (hk : k ∈ s.gone) (hne : ¬k.Extends l) :
    k ∈ (s.setInit p).gone := by
  unfold setInit
  split
  · rename_i hexact
    have hput : k ∈ (s.put p .init none).gone ∨ p.Covers k := gone_put_or_covers hk
    rcases hput with h | ⟨j, hj, hkj⟩
    · exact h
    · rw [hj.unique hl hexact] at hkj
      exact absurd hkj hne
  · exact hk

/-- A state describes what is gone: it says so of all of it, without partial entries. -/
structure Describes (s : MoveState) (gone : Set Storage) : Prop where
  plain : s.Plain
  covered : ∀ l ∈ gone, l ∈ s.gone
  whole : GoneWhole gone

variable {f : Function} {a : Access} {gone : Set Storage}

/-- Where nothing is objected to, the storage that an access needs is there. -/
theorem Describes.permitted (h : s.Describes gone) (ho : s.objection f a = none)
    (hl : a.place.Denotes l) : a.Permitted l gone := by
  have huse : ∀ {what}, s.complaint f a.place a false what = none → ∀ k, k.Extends l → k ∉ gone :=
    fun hc k hk hgone => not_gone_of_lookup (lookup_init_of_complaint hc) hl hk (h.covered k hgone)
  unfold objection at ho
  unfold Access.Permitted
  cases hkind : a.kind <;> simp only [hkind] at ho ⊢
  case read => exact huse ho
  case borrowShared => exact huse ho
  case borrowMut => exact huse ho
  case move =>
    split at ho
    · simp at ho
    · rename_i hderef
      refine ⟨huse ho, ?_⟩
      rw [← hl.2.deref_mem_iff]
      simpa [Place.throughDeref] using hderef
  case inspect =>
    intro hgone
    exact not_gone_of_blocker (blocker?_of_complaint h.plain ho) hl (h.covered l hgone)
  case write =>
    intro hpath hgone
    have hne : a.place.path ≠ [] := by
      intro hnil
      rw [hl.root hnil] at hpath
      exact hpath rfl
    have hparent : a.place.parent = some { a.place with path := a.place.path.dropLast } := by
      simp [Place.parent, hne]
    rw [hparent] at ho
    exact not_gone_of_blocker (blocker?_of_complaint h.plain ho) hl.parent (h.covered _ hgone)

/-- Storage stays gone as a whole, since nothing is written inside storage that is gone. What a
store restores has no storage around it that stays gone. -/
theorem goneWhole_goneAfter (hw : GoneWhole gone) (hl : a.place.Denotes l) (hp : a.Permitted l gone)
    (hroot : a.kind = .init ∨ a.kind = .declare ∨ a.kind = .storageDead → a.place.path = []) :
    GoneWhole (a.goneAfter l gone) := by
  have hstore : (∀ k, l.Extends k → k ∈ gone → k = l) →
      GoneWhole {k | k ∈ gone ∧ ¬k.Extends l} := by
    rintro hsolid k j ⟨hk, hkl⟩ hjk
    refine ⟨hw k j hk hjk, fun hjl => ?_⟩
    rcases hjk.total hjl with hkl' | hlk
    · exact hkl hkl'
    · exact hkl (hsolid k hlk hk ▸ .refl l)
  unfold Access.goneAfter
  unfold Access.Permitted at hp
  cases hkind : a.kind <;> simp only [hkind] at hp hroot ⊢
  case read => exact hw
  case borrowShared => exact hw
  case borrowMut => exact hw
  case inspect => exact hw
  case move =>
    rintro k j (hk | hk) hjk
    · exact .inl (hw k j hk hjk)
    · exact .inr (hjk.trans hk)
  case write =>
    apply hstore
    intro k hlk hk
    by_contra hne
    obtain ⟨hpath, hparent⟩ := hlk.parent_of_ne hne
    exact hp hpath (hw k _ hk hparent)
  case init =>
    apply hstore
    intro k hlk _
    by_contra hne
    obtain ⟨hpath, _⟩ := hlk.parent_of_ne hne
    rw [hl.root (hroot (.inl trivial))] at hpath
    exact hpath rfl
  case declare =>
    rintro k j (hk | hk) hjk
    · exact .inl (hw k j hk hjk)
    · exact .inr (hjk.1.trans hk)
  case storageDead =>
    rintro k j (hk | hk) hjk
    · exact .inl (hw k j hk hjk)
    · exact .inr (hjk.1.trans hk)

/-- An access that is not objected to keeps the state describing what is gone. -/
theorem Describes.apply (h : s.Describes gone) (ho : s.objection f a = none) (hl : a.place.Denotes l)
    (hroot : a.kind = .init ∨ a.kind = .declare ∨ a.kind = .storageDead → a.place.path = []) :
    (s.apply f a).Describes (a.goneAfter l gone) := by
  have hwhole := goneWhole_goneAfter h.whole hl (h.permitted ho hl) hroot
  have hstore : ∀ k, k ∈ gone ∧ ¬k.Extends l → k ∈ (s.setInit a.place).gone :=
    fun k hk => gone_setInit hl (h.covered k hk.1) hk.2
  have hend : a.place.path = [] → ∀ k, k ∈ gone ∨ k.root = a.place.root →
      k ∈ (s.setUninit a.place).gone := by
    intro hpath k hk
    apply gone_put_of_gone (by simp)
    refine hk.imp (h.covered k) fun hk => ⟨⟨a.place.root, []⟩, ⟨rfl, ?_⟩, hk, List.nil_prefix⟩
    rw [hpath]
    exact .nil
  unfold MoveState.apply
  rw [if_neg (by simp [ho])]
  unfold Access.goneAfter at hwhole ⊢
  cases hkind : a.kind <;> simp only [hkind] at hwhole hroot ⊢
  case read => exact h
  case borrowShared => exact h
  case borrowMut => exact h
  case inspect => exact h
  case move =>
    refine ⟨plain_put h.plain (by simp), ?_, hwhole⟩
    intro k hk
    exact gone_put_of_gone (by simp) (hk.imp (h.covered k) fun hk => ⟨l, hl, hk⟩)
  case write => exact ⟨plain_setInit h.plain, hstore, hwhole⟩
  case init => exact ⟨plain_setInit h.plain, hstore, hwhole⟩
  case declare =>
    exact ⟨plain_put h.plain (by simp), hend (hroot (.inr (.inl trivial))), hwhole⟩
  case storageDead =>
    exact ⟨plain_put h.plain (by simp), hend (hroot (.inr (.inr trivial))), hwhole⟩

/-- A state says at least as much to be gone as another. -/
def Above (t s : MoveState) : Prop := ∀ l ∈ s.gone, l ∈ t.gone

theorem Describes.above (h : s.Describes gone) (ht : t.Plain) (hst : t.Above s) : t.Describes gone :=
  ⟨ht, fun l hl => hst l (h.covered l hl), h.whole⟩

theorem ownState_not_partly (hs : s.Plain) : s.ownState p ≠ .partly := by
  unfold ownState
  cases hb : s.blocker? p with
  | none => simp
  | some e => exact hs e (blocker?_mem hb).1

/-- A place that is stored as gone is gone. -/
theorem ownState_of_mem {e : MoveEntry} (he : e ∈ s.entries) (hstate : e.state ≠ .init)
    (hsame : e.place.same p = true) : s.ownState p ≠ .init := by
  have hblocks : e.blocks p = true := by
    simp [MoveEntry.blocks, hstate, Place.compare_of_same hsame]
  unfold ownState
  cases hb : s.blocker? p with
  | none => simp [blocker?_eq_none_iff.mp hb e he] at hblocks
  | some b => exact blocks_not_init (blocker?_mem hb).2

end MoveState

theorem PlaceState.join_not_partly {a b : PlaceState} (ha : a ≠ .partly) (hb : b ≠ .partly) :
    a.join b ≠ .partly := by
  cases a <;> cases b <;> simp_all [join]

theorem PlaceState.join_not_init {a b : PlaceState} (ha : a ≠ .partly) (hb : b ≠ .partly)
    (h : a ≠ .init ∨ b ≠ .init) : a.join b ≠ .init := by
  cases a <;> cases b <;> simp_all [join]

namespace MoveState

variable {s t : MoveState}

theorem plain_merged (hs : s.Plain) (ht : t.Plain) : (s.merged t).Plain := by
  intro e he
  obtain ⟨p, _, rfl⟩ := List.mem_map.mp he
  exact PlaceState.join_not_partly (ownState_not_partly hs) (ownState_not_partly ht)

/-- Every place that one of the states stores is stored after the join. -/
theorem stored_same {e : MoveEntry} (he : e ∈ s.entries ∨ e ∈ t.entries) :
    ∃ p ∈ stored s t, e.place.same p = true := by
  unfold stored
  by_cases hs : e ∈ s.entries
  · exact ⟨e.place, List.mem_append_left _ (List.mem_map_of_mem hs), by simp⟩
  have ht := he.resolve_left hs
  cases hf : s.find? e.place with
  | none =>
    refine ⟨e.place, List.mem_append_right _ (List.mem_map_of_mem ?_), by simp⟩
    exact List.mem_filter.mpr ⟨ht, by simp [hf]⟩
  | some d =>
    have hd := List.mem_of_find?_eq_some hf
    have hsame := List.find?_some hf
    refine ⟨d.place, List.mem_append_left _ (List.mem_map_of_mem hd), ?_⟩
    simp only [Place.same, Bool.and_eq_true, decide_eq_true_eq] at hsame ⊢
    exact ⟨hsame.1.symm, hsame.2.symm⟩

/-- A place that one of the states stores as gone is gone after the join. -/
theorem join_of_mem (hs : s.Plain) (ht : t.Plain) {e : MoveEntry} (he : e ∈ s.entries ∨ e ∈ t.entries)
    (hstate : e.state ≠ .init) {p : Place} (hsame : e.place.same p = true) :
    (s.ownState p).join (t.ownState p) ≠ .init := by
  apply PlaceState.join_not_init (ownState_not_partly hs) (ownState_not_partly ht)
  exact he.imp (fun h => ownState_of_mem h hstate hsame) fun h => ownState_of_mem h hstate hsame

/-- A join says that whatever one of its states says is gone. -/
theorem mem_gone_merged (hs : s.Plain) (ht : t.Plain) {l : Storage} (h : l ∈ s.gone ∨ l ∈ t.gone) :
    l ∈ (s.merged t).gone := by
  have hentry : ∀ e, e ∈ s.entries ∨ e ∈ t.entries → e.state ≠ .init → e.place.Covers l →
      l ∈ (s.merged t).gone := by
    intro e he hstate hcover
    obtain ⟨p, hp, hsame⟩ := stored_same he
    exact ⟨_, List.mem_map_of_mem hp, join_of_mem hs ht he hstate hsame, hcover.of_same hsame⟩
  rcases h with ⟨e, he, hstate, hcover⟩ | ⟨e, he, hstate, hcover⟩
  · exact hentry e (.inl he) hstate hcover
  · exact hentry e (.inr he) hstate hcover

theorem above_of_within (h : s.within t = true) : t.Above s := by
  rintro l ⟨e, he, hstate, hcover⟩
  have hfind := List.all_eq_true.mp h e he
  obtain ⟨d, hd, hmatch⟩ := (Option.any_eq_true _ _).mp hfind
  simp only [Bool.and_eq_true, decide_eq_true_eq] at hmatch
  refine ⟨d, List.mem_of_find?_eq_some hd, by rwa [hmatch.1], hcover.of_same ?_⟩
  have hsame := List.find?_some hd
  simp only [Place.same, Bool.and_eq_true, decide_eq_true_eq] at hsame ⊢
  exact ⟨hsame.1.symm, hsame.2.symm⟩

theorem plain_initialMoves (f : Function) : (initialMoves f).Plain := by
  intro e he
  obtain ⟨⟨id, b⟩, _, rfl⟩ := List.mem_map.mp he
  simp only
  split <;> simp

theorem initialMoves_describes (f : Function) : (initialMoves f).Describes f.goneAtStart := by
  refine ⟨plain_initialMoves f, ?_, ?_⟩
  · rintro l ⟨b, hb, hkind⟩
    obtain ⟨before, after, hentries, _⟩ := List.lookup_eq_some_iff.mp hb
    have hmem : (l.root, b) ∈ f.bindings.entries := by simp [hentries]
    refine ⟨_, List.mem_map_of_mem hmem, by simp [hkind], ⟨l.root, []⟩, ⟨rfl, .nil⟩, rfl, ?_⟩
    exact List.nil_prefix
  · rintro l k ⟨b, hb, hkind⟩ hkl
    exact ⟨b, hkl.1 ▸ hb, hkind⟩

end MoveState

end Ownership
