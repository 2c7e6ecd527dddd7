import Ownership.Proofs.Move.Runs
import Ownership.Proofs.Place.Exact

/-!
Precision of move tracking. Where no position is unknown, an entry of a move
state is one piece of storage, and as long as no path misuses storage, each
entry that is not initialized is gone on some path. Joins and accesses keep
this, so no access is objected to; a finding therefore comes with a path, taken
alone, on which some access does not find the storage that it needs.
-/
namespace Ownership

open Outcome

namespace MoveState

/-- Each entry is a tracked place, and one that is not initialized is gone on some arrival. -/
structure Backed (cx : Context) (s : MoveState) (arrivals : Set (Set Storage)) : Prop where
  tracked : ∀ e ∈ s.entries, e.place.Tracked cx
  gone : ∀ e ∈ s.entries, e.state ≠ .init → ∃ gone ∈ arrivals, e.place.storage ∈ gone

variable {cx : Context} {f : Function} {s t : MoveState} {a : Access} {p : Place}
  {arrivals more : Set (Set Storage)}

theorem Backed.mono (h : s.Backed cx arrivals) (hsub : arrivals ⊆ more) : s.Backed cx more :=
  ⟨h.tracked, fun e he hs => (h.gone e he hs).imp fun _ hg => ⟨hsub hg.1, hg.2⟩⟩

theorem backed_empty (cx : Context) (arrivals : Set (Set Storage)) : Backed cx {} arrivals :=
  ⟨fun _ he => absurd he List.not_mem_nil, fun _ he => absurd he List.not_mem_nil⟩

/-- Nothing blocks a place that no arrival finds gone. -/
theorem Backed.blocker?_eq_none (h : s.Backed cx arrivals) (hw : ∀ gone ∈ arrivals, GoneWhole gone)
    {l : Storage} (hl : ∀ gone ∈ arrivals, l ∉ gone)
    (haround : ∀ q : Place, q.Tracked cx → q.compare p = .equal ∨ q.compare p = .contains →
      l.Extends q.storage) : s.blocker? p = none := by
  refine blocker?_eq_none_iff.mpr fun e he => ?_
  by_contra hb
  simp only [MoveEntry.blocks, Bool.not_eq_false, Bool.and_eq_true, Bool.or_eq_true,
    decide_eq_true_eq] at hb
  obtain ⟨gone, hmem, hgone⟩ := h.gone e he hb.1
  exact hl gone hmem (hw gone hmem _ _ hgone (haround e.place (h.tracked e he) hb.2))

theorem complaint_of_blocker? (h : s.blocker? p = none) (what : String) :
    s.complaint f p a true what = none := by
  unfold complaint lookup
  rw [h]
  cases s.entries.find? (·.dents p) <;> rfl

/-- Nothing is objected to in the use of a place that no arrival finds gone in part. -/
theorem Backed.complaint_eq_none (h : s.Backed cx arrivals) (hw : ∀ gone ∈ arrivals, GoneWhole gone)
    (hp : p.Tracked cx) (hl : ∀ gone ∈ arrivals, ∀ k, k.Extends p.storage → k ∉ gone)
    (what : String) : s.complaint f p a false what = none := by
  have hblock := h.blocker?_eq_none hw (fun gone hg => hl gone hg _ (.refl _)) fun q hq hc =>
    Place.storage_extends (hq.front hp hc).1 (hq.front hp hc).2
  have hdent : s.entries.find? (·.dents p) = none := by
    refine List.find?_eq_none.mpr fun e he hd => ?_
    simp only [MoveEntry.dents, Bool.and_eq_true, decide_eq_true_eq] at hd
    have hinside : p.compare e.place = .contains := by
      rw [Place.compare_swap, hd.2]
      rfl
    obtain ⟨gone, hmem, hgone⟩ := h.gone e he hd.1
    obtain ⟨hroot, hpath⟩ := hp.front (h.tracked e he) (.inr hinside)
    exact hl gone hmem _ (Place.storage_extends hroot hpath) hgone
  unfold complaint lookup
  rw [hblock, hdent]

/-- Nothing is objected to in an access that every arrival permits. -/
theorem Backed.objection_eq_none (h : s.Backed cx arrivals) (hw : ∀ gone ∈ arrivals, GoneWhole gone)
    (hne : arrivals.Nonempty) (ha : a.place.Tracked cx)
    (hp : ∀ gone ∈ arrivals, a.Permitted a.place.storage gone) : s.objection f a = none := by
  unfold objection
  unfold Access.Permitted at hp
  cases hkind : a.kind <;> simp only [hkind] at hp ⊢
  case read => exact h.complaint_eq_none hw ha hp _
  case borrowShared => exact h.complaint_eq_none hw ha hp _
  case borrowMut => exact h.complaint_eq_none hw ha hp _
  case move =>
    obtain ⟨gone, hgone⟩ := hne
    have hderef : a.place.throughDeref = false := by
      have hno := (hp gone hgone).2
      rw [← (Place.denotes_storage a.place).2.deref_mem_iff] at hno
      simpa [Place.throughDeref] using hno
    rw [hderef]
    exact h.complaint_eq_none hw ha (fun gone hg => (hp gone hg).1) _
  case inspect =>
    exact complaint_of_blocker? (h.blocker?_eq_none hw hp fun q hq hc =>
      Place.storage_extends (hq.front ha hc).1 (hq.front ha hc).2) _
  case write =>
    cases hparent : a.place.parent with
    | none => rfl
    | some parent =>
      have hpath : a.place.storage.path ≠ [] := by
        intro hnil
        have hnil : a.place.path = [] := by simpa [Place.storage] using hnil
        simp [Place.parent, hnil] at hparent
      refine complaint_of_blocker? (h.blocker?_eq_none hw (fun gone hg => hp gone hg hpath) ?_) _
      intro q hq hc
      obtain ⟨hroot, hfront⟩ := hq.front_parent ha hparent hc
      refine ⟨hroot.symm, ?_⟩
      simp only [Place.storage, Storage.parent, ← List.map_dropLast]
      exact hfront.map Projection.step

/-- Storing a state for a place only keeps entries outside it. -/
theorem Backed.put (h : s.Backed cx arrivals) (hp : p.Tracked cx) {state : PlaceState} {site : Option Span}
    (hkeep : ∀ gone ∈ arrivals, ∀ l ∈ gone, ¬l.Extends p.storage → ∃ gone' ∈ more, l ∈ gone')
    (hnew : state ≠ .init → ∃ gone ∈ more, p.storage ∈ gone) : (s.put p state site).Backed cx more := by
  constructor
  · intro e he
    rcases List.mem_append.mp he with he | he
    · exact h.tracked e (List.mem_filter.mp he).1
    · rw [List.mem_singleton.mp he]
      exact hp
  · intro e he hstate
    rcases List.mem_append.mp he with he | he
    · obtain ⟨he, hout⟩ := List.mem_filter.mp he
      obtain ⟨gone, hmem, hgone⟩ := h.gone e he hstate
      refine hkeep gone hmem _ hgone fun hext => ?_
      obtain ⟨hroot, hpath⟩ := hp.front_of_extends (h.tracked e he) hext
      have htake := (List.prefix_iff_eq_take.mp hpath).symm
      simp [hroot, htake] at hout
    · rw [List.mem_singleton.mp he] at hstate ⊢
      exact hnew hstate

/-- An access that every arrival permits takes a backed state to one that is backed after it. -/
theorem Backed.apply (h : s.Backed cx arrivals) (hw : ∀ gone ∈ arrivals, GoneWhole gone)
    (hne : arrivals.Nonempty) (ha : a.place.Tracked cx)
    (hp : ∀ gone ∈ arrivals, a.Permitted a.place.storage gone)
    (hmore : ∀ gone ∈ arrivals, a.goneAfter a.place.storage gone ∈ more) :
    (s.apply f a).Backed cx more := by
  unfold MoveState.apply
  rw [h.objection_eq_none hw hne ha hp]
  unfold Access.goneAfter at hmore
  obtain ⟨gone₀, hgone₀⟩ := hne
  have hinit : (∀ gone ∈ arrivals, {k | k ∈ gone ∧ ¬k.Extends a.place.storage} ∈ more) →
      (s.setInit a.place).Backed cx more := by
    intro hmore
    unfold setInit
    rw [if_pos ha.exact]
    exact h.put ha (fun gone hg l hl hout => ⟨_, hmore gone hg, hl, hout⟩) (absurd rfl)
  cases hkind : a.kind <;> simp only [hkind] at hmore ⊢
  case read => exact h.mono hmore
  case borrowShared => exact h.mono hmore
  case borrowMut => exact h.mono hmore
  case inspect => exact h.mono hmore
  case write => exact hinit hmore
  case init => exact hinit hmore
  case move =>
    exact h.put ha (fun gone hg l hl _ => ⟨_, hmore gone hg, .inl hl⟩)
      fun _ => ⟨_, hmore gone₀ hgone₀, .inr (.refl _)⟩
  case declare =>
    exact h.put ha (fun gone hg l hl _ => ⟨_, hmore gone hg, .inl hl⟩)
      fun _ => ⟨_, hmore gone₀ hgone₀, .inr rfl⟩
  case storageDead =>
    exact h.put ha (fun gone hg l hl _ => ⟨_, hmore gone hg, .inl hl⟩)
      fun _ => ⟨_, hmore gone₀ hgone₀, .inr rfl⟩

/-- A place whose state is not initialized lies in storage that some arrival finds gone. -/
theorem Backed.gone_of_ownState (h : s.Backed cx arrivals) (hw : ∀ gone ∈ arrivals, GoneWhole gone)
    (hp : p.Tracked cx) (hstate : s.ownState p ≠ .init) : ∃ gone ∈ arrivals, p.storage ∈ gone := by
  by_contra hno
  refine hstate ?_
  have hblock := h.blocker?_eq_none hw (fun gone hg hl => hno ⟨gone, hg, hl⟩) fun q hq hc =>
    Place.storage_extends (hq.front hp hc).1 (hq.front hp hc).2
  rw [ownState, hblock]
  rfl

theorem Backed.merged (hs : s.Backed cx arrivals) (ht : t.Backed cx arrivals)
    (hw : ∀ gone ∈ arrivals, GoneWhole gone) : (s.merged t).Backed cx arrivals := by
  have hstored : ∀ q ∈ stored s t, q.Tracked cx := by
    intro q hq
    rcases List.mem_append.mp hq with hq | hq
    · obtain ⟨e, he, rfl⟩ := List.mem_map.mp hq
      exact hs.tracked e he
    · obtain ⟨e, he, rfl⟩ := List.mem_map.mp hq
      exact ht.tracked e (List.mem_filter.mp he).1
  constructor
  · intro e he
    obtain ⟨q, hq, rfl⟩ := List.mem_map.mp he
    exact hstored q hq
  · intro e he hstate
    obtain ⟨q, hq, rfl⟩ := List.mem_map.mp he
    by_cases hown : s.ownState q = .init
    · refine ht.gone_of_ownState hw (hstored q hq) fun hown' => hstate ?_
      simp [hown, hown', PlaceState.join]
    · exact hs.gone_of_ownState hw (hstored q hq) hown

/-- At first every binding but the parameters is gone. -/
theorem backed_initialMoves (h : cx.function.goneAtStart ∈ arrivals) :
    (initialMoves cx.function).Backed cx arrivals := by
  constructor
  · intro e he
    obtain ⟨⟨id, b⟩, hmem, rfl⟩ := List.mem_map.mp he
    have hget := OrderedMap.get?_eq_some_of_mem hmem
    exact ⟨⟨b.ty, cx.placeType_root hget b.name⟩, Place.spelled_root id b.name, rfl⟩
  · intro e he hstate
    obtain ⟨⟨id, b⟩, hmem, rfl⟩ := List.mem_map.mp he
    have hget := OrderedMap.get?_eq_some_of_mem hmem
    refine ⟨_, h, b, hget, fun hparam => hstate ?_⟩
    simp [hparam]

end MoveState

/-- What may be gone after the first accesses of a point, on the paths that reach it. -/
def Arrivals (f : Function) (g : Graph) (fx : EffectMap) (p : Point) (before : List Access) :
    Set (Set Storage) :=
  {gone' | ∃ gone, GoneAt f g fx p gone ∧ Acts Access.Removes before gone gone'}

theorem Access.removes_total (a : Access) (gone : Set Storage) : ∃ gone', a.Removes gone gone' :=
  ⟨_, a.place.storage, a.place.denotes_storage, rfl⟩

/-- No path comes to an access that does not find the storage it needs. -/
def NeverMisused (f : Function) (g : Graph) (fx : EffectMap) : Prop :=
  ∀ p before a after, fx.accesses p = before ++ a :: after → ∀ gone ∈ Arrivals f g fx p before,
    ∀ l, a.place.Denotes l → a.Permitted l gone

section

variable {cx : Context} {g : Graph} {fx : EffectMap}

theorem arrivals_nonempty (f : Function) (fx : EffectMap) {p : Point} (hp : p ∈ g.allPoints)
    (before : List Access) : (Arrivals f g fx p before).Nonempty := by
  obtain ⟨gone, hgone⟩ : ∃ gone, GoneAt f g fx p gone := by
    refine Graph.exists_reaches ?_ ?_ hp
    · exact ⟨f.goneAtStart, rfl⟩
    · exact fun p _ gone => Acts.total Access.removes_total (fx.accesses p) gone
  obtain ⟨gone', hacts⟩ := Acts.total Access.removes_total before gone
  exact ⟨gone', gone, hgone, hacts⟩

/-- Making one more access. -/
theorem arrivals_access {p : Point} {before : List Access} {a : Access} {gone : Set Storage}
    (h : gone ∈ Arrivals cx.function g fx p before) :
    a.goneAfter a.place.storage gone ∈ Arrivals cx.function g fx p (before ++ [a]) := by
  obtain ⟨gone₀, hat, hacts⟩ := h
  exact ⟨gone₀, hat, hacts.append (.cons ⟨_, a.place.denotes_storage, rfl⟩ (.nil _))⟩

/-- Going on to the next point. -/
theorem arrivals_next {p q : Point} (hpq : g.Follows p q) :
    Arrivals cx.function g fx p (fx.accesses p) ⊆ Arrivals cx.function g fx q [] := by
  rintro gone ⟨gone₀, hat, hacts⟩
  exact ⟨gone, hat.next hpq hacts, .nil gone⟩

/-- Storage stays gone as a whole along accesses that find what they need. -/
theorem whole_of_acts {as : List Access} {gone gone' : Set Storage}
    (hroot : ∀ a ∈ as, a.kind = .init ∨ a.kind = .declare ∨ a.kind = .storageDead → a.place.path = [])
    (hperm : ∀ before a after gone', as = before ++ a :: after → Acts Access.Removes before gone gone' →
      ∀ l, a.place.Denotes l → a.Permitted l gone')
    (hw : GoneWhole gone) (h : Acts Access.Removes as gone gone') : GoneWhole gone' := by
  induction h with
  | nil => exact hw
  | @cons a rest _ _ _ hact _ ih =>
    obtain ⟨l, hl, rfl⟩ := hact
    have hfirst := hperm [] a rest _ rfl (.nil _) l hl
    refine ih (fun b hb => hroot b (List.mem_cons_of_mem a hb)) ?_
      (MoveState.goneWhole_goneAfter hw hl hfirst (hroot a List.mem_cons_self))
    intro before b after gone' hsplit hacts
    exact hperm (a :: before) b after gone' (by rw [hsplit]; rfl) (.cons ⟨l, hl, rfl⟩ hacts)

theorem goneWhole_goneAtStart (f : Function) : GoneWhole f.goneAtStart :=
  (MoveState.initialMoves_describes f).whole

section

variable (hg : cx.function.graph = .ok g) (hfx : cx.effects g = .ok fx)
  (hsafe : NeverMisused cx.function g fx)

include hg hfx hsafe

/-- On paths without misuse, storage is gone as a whole. -/
theorem GoneAt.whole {p : Point} {gone : Set Storage} (h : GoneAt cx.function g fx p gone) :
    GoneWhole gone := by
  induction h with
  | entry h => exact h ▸ goneWhole_goneAtStart cx.function
  | @next p _ gone _ hp _ hacts ih =>
    have hmem := (Graph.Reaches.invariant (Graph.pruned_of_graph hg) (fun _ _ => True) (fun _ _ => trivial)
      (fun _ _ _ _ _ _ _ _ => trivial) hp).1
    exact whole_of_acts (fun _ => access_root hfx hmem)
      (fun before a after gone' hsplit hbefore => hsafe p before a after hsplit gone' ⟨gone, hp, hbefore⟩)
      ih hacts

theorem arrivals_whole {p : Point} (hp : p ∈ g.allPoints) (before after : List Access)
    (hsplit : fx.accesses p = before ++ after) :
    ∀ gone ∈ Arrivals cx.function g fx p before, GoneWhole gone := by
  rintro gone' ⟨gone, hat, hacts⟩
  refine whole_of_acts ?_ ?_ (hat.whole hg hfx hsafe) hacts
  · exact fun a ha => access_root hfx hp (hsplit ▸ List.mem_append_left _ ha)
  · intro first a rest gone' hfirst hacts
    refine hsafe p first a (rest ++ after) ?_ gone' ⟨gone, hat, hacts⟩
    rw [hsplit, hfirst, List.append_assoc]
    rfl

variable (hexact : ∀ p ∈ g.allPoints, ∀ a ∈ fx.accesses p, a.place.isExact = true)

omit hg hsafe in
include hexact in
theorem access_tracked {p : Point} (hp : p ∈ g.allPoints) {a : Access} (ha : a ∈ fx.accesses p) :
    a.place.Tracked cx :=
  have hplaced := Context.accesses_placed hfx hp a ha
  ⟨hplaced.typed, hplaced.spelled, hexact p hp a ha⟩

include hexact

/-- As long as no path misuses storage, states stay backed by the paths behind them. -/
theorem backed_keptBy : KeptBy MoveState.merged cx.function g fx fun p before s =>
    s.Backed cx (Arrivals cx.function g fx p before) where
  start := MoveState.backed_initialMoves ⟨_, .entry rfl, .nil _⟩
  empty _ := MoveState.backed_empty cx _
  access p hp before a after s hsplit hs := by
    have ha := access_tracked hfx hexact hp (a := a) (by rw [hsplit]; simp)
    have hw := arrivals_whole hg hfx hsafe hp before (a :: after) hsplit
    exact hs.apply hw (arrivals_nonempty cx.function fx hp before) ha
      (fun gone hgone => hsafe p before a after hsplit gone hgone _ a.place.denotes_storage)
      fun gone hgone => arrivals_access hgone
  follow _ _ _ _ hpq hs := hs.mono (arrivals_next hpq)
  join _ hp _ _ hs ht := hs.merged ht (arrivals_whole hg hfx hsafe hp [] _ rfl)

/-- Then no access is objected to. -/
theorem findings_eq_nil {limit : Option Int} {r : MoveResult} (hm : trackMoves g cx.function fx limit = .ok r) :
    r.findings = [] := by
  refine List.eq_nil_iff_forall_not_mem.mpr fun d hd => ?_
  obtain ⟨p, hp, before, a, after, s, hsplit, hs, hobj⟩ := (backed_keptBy hg hfx hsafe hexact).findings hm hd
  have ha := access_tracked hfx hexact hp (a := a) (by rw [hsplit]; simp)
  have hw := arrivals_whole hg hfx hsafe hp before (a :: after) hsplit
  rw [hs.objection_eq_none hw (arrivals_nonempty cx.function fx hp before) ha
    fun gone hgone => hsafe p before a after hsplit gone hgone _ a.place.denotes_storage] at hobj
  cases hobj

end

end

/-- A finding is never spurious where no position is unknown: some path, taken alone, comes to
an access that does not find the storage it needs, or moves something out through a reference. -/
theorem misuse_of_findings {cx : Context} {g : Graph} {fx : EffectMap} {limit : Option Int} {r : MoveResult}
    (hg : cx.function.graph = .ok g) (hfx : cx.effects g = .ok fx)
    (hexact : ∀ p ∈ g.allPoints, ∀ a ∈ fx.accesses p, a.place.isExact = true)
    (hm : trackMoves g cx.function fx limit = .ok r) (hr : r.findings ≠ []) :
    ∃ p gone before a after gone' l, GoneAt cx.function g fx p gone ∧
      fx.accesses p = before ++ a :: after ∧ Acts Access.Removes before gone gone' ∧
      a.place.Denotes l ∧ ¬a.Permitted l gone' := by
  by_contra hno
  have hsafe : NeverMisused cx.function g fx := by
    rintro p before a after hsplit gone' ⟨gone, hat, hacts⟩ l hl
    by_contra hbad
    exact hno ⟨p, gone, before, a, after, gone', l, hat, hsplit, hacts, hl, hbad⟩
  exact hr (findings_eq_nil hg hfx hsafe hexact hm)

/-- A value is moved away in one branch only and used after both. -/
def maybeMoved : Context where
  function :=
    { name := "maybe_moved"
      params := [⟨"c", 1, 1, {}⟩, ⟨"v", 2, 2, {}⟩]
      ret := none
      body := .mk [
        .branch (.var "c" 1 {}) (.mk [.declare "t" 3 (some (.field (.var "v" 2 {}) "part" {})) {}] {}) none {},
        .declare "u" 4 (some (.var "v" 2 {})) {}] {}
      bindings := .ofList [(1, ⟨1, "c", 1, .param, {}⟩), (2, ⟨2, "v", 2, .param, {}⟩),
        (3, ⟨3, "t", 3, .localVar, {}⟩), (4, ⟨4, "u", 2, .localVar, {}⟩)] }
  types :=
    { defs := [.scalar "Bool" true, .struct "Pair" none false, .struct "Part" none false]
      structs := .ofList [("Pair", .ofList [("part", 3), ("rest", 3)]), ("Part", {})] }
  signatures := {}

def maybeMovedGraph : Graph := maybeMoved.function.graph.toOption.getD default

def maybeMovedEffects : EffectMap := (maybeMoved.effects maybeMovedGraph).toOption.getD default

def maybeMovedResult : MoveResult :=
  (trackMoves maybeMovedGraph maybeMoved.function maybeMovedEffects none).toOption.getD ⟨[], [], 0⟩

/-- The use after both branches is reported, and the path through the first one runs into it. -/
theorem misuse_of_findings_maybeMoved :
    maybeMovedResult.findings.map Diagnostic.message = ["use of partially moved value 'v'"] ∧
      ∃ p gone before a after gone' l, GoneAt maybeMoved.function maybeMovedGraph maybeMovedEffects p gone ∧
        maybeMovedEffects.accesses p = before ++ a :: after ∧ Acts Access.Removes before gone gone' ∧
        a.place.Denotes l ∧ ¬a.Permitted l gone' := by
  have hfound : maybeMovedResult.findings.map Diagnostic.message = ["use of partially moved value 'v'"] := by
    decide +kernel
  have hm : trackMoves maybeMovedGraph maybeMoved.function maybeMovedEffects none = .ok maybeMovedResult :=
    eq_ok_getD _ (by decide +kernel)
  have hne : maybeMovedResult.findings ≠ [] := by
    intro hnil
    rw [hnil] at hfound
    cases hfound
  exact ⟨hfound, misuse_of_findings (eq_ok_getD _ (by decide +kernel)) (eq_ok_getD _ (by decide +kernel))
    (by decide +kernel) hm hne⟩

end Ownership
