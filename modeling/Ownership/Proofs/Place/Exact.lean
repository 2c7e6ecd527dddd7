import Ownership.Proofs.Place.Blurred

/-!
Places without unknown positions. Such a place is one piece of storage. Of two
typed ones, the one that compares as around the other is a part of its path, and
its storage is around the other's.
-/
namespace Ownership

namespace Place

/-- A place with a type, known positions and a path that some expression spells. -/
structure Tracked (cx : Context) (p : Place) : Prop where
  typed : ∃ ty, cx.PlaceType p ty
  spelled : p.Spelled
  exact : p.isExact = true

variable {cx : Context} {p q : Place}

theorem Tracked.no_any (h : p.Tracked cx) : .anyElement ∉ p.path := by
  simpa [isExact] using h.exact

/-- The one piece of storage that a place without unknown positions denotes. -/
def storage (p : Place) : Storage := ⟨p.root, p.path.map Projection.step⟩

theorem denotes_storage (p : Place) : p.Denotes p.storage := ⟨rfl, Traces.map_step p.path⟩

theorem storage_extends (hroot : p.root = q.root) (hpath : p.path <+: q.path) :
    q.storage.Extends p.storage :=
  ⟨hroot.symm, hpath.map Projection.step⟩

/-- Of two tracked places the one that compares as around the other is a part of its path. -/
theorem Tracked.front (hp : p.Tracked cx) (hq : q.Tracked cx)
    (h : p.compare q = .equal ∨ p.compare q = .contains) : p.root = q.root ∧ p.path <+: q.path := by
  obtain ⟨_, hty⟩ := hp.typed
  obtain ⟨_, hty'⟩ := hq.typed
  obtain ⟨hroot, hblurs⟩ := blurs_of_compare hty hp.spelled hty' hq.spelled hq.exact h
  exact ⟨hroot, hblurs.front hp.no_any⟩

/-- What compares as around a part of a path compares as around the whole path. -/
theorem comparePaths_append {ps qs : List Projection} (rest : List Projection)
    (h : comparePaths ps qs = .equal ∨ comparePaths ps qs = .contains) :
    comparePaths ps (qs ++ rest) = .equal ∨ comparePaths ps (qs ++ rest) = .contains := by
  induction ps generalizing qs with
  | nil => cases qs ++ rest <;> simp [comparePaths]
  | cons p ps ih =>
    cases qs with
    | nil => simp [comparePaths] at h
    | cons q qs =>
      rw [comparePaths] at h
      rw [List.cons_append, comparePaths]
      split at h
      · simp at h
      · rename_i happart
        rw [if_neg happart]
        exact ih h

/-- The same where the second place is the parent of a tracked one, which need not be typed. -/
theorem Tracked.front_parent (hp : p.Tracked cx) (hq : q.Tracked cx) {parent : Place}
    (hparent : q.parent = some parent) (h : p.compare parent = .equal ∨ p.compare parent = .contains) :
    p.root = q.root ∧ p.path <+: q.path.dropLast := by
  unfold Place.parent at hparent
  split at hparent
  · cases hparent
  · rename_i hne
    obtain rfl := Option.some.inj hparent
    have hne : q.path ≠ [] := by simpa using hne
    have hsplit := List.dropLast_append_getLast hne
    unfold compare at h
    split at h
    · rename_i hroot
      have haround : p.compare q = .equal ∨ p.compare q = .contains := by
        rw [compare, if_pos hroot, ← hsplit]
        exact comparePaths_append _ h
      have hlength := (around_iff.mp h).2
      obtain ⟨_, hfront⟩ := hp.front hq haround
      exact ⟨hroot, List.prefix_of_prefix_length_le hfront (List.dropLast_prefix q.path) hlength⟩
    · simp at h

/-- Exact paths whose concrete paths are nested are nested themselves. -/
theorem front_of_map_step {ps qs : List Projection} (hp : .anyElement ∉ ps) (hq : .anyElement ∉ qs)
    (h : ps.map Projection.step <+: qs.map Projection.step) : ps <+: qs := by
  induction ps generalizing qs with
  | nil => exact List.nil_prefix
  | cons p ps ih =>
    cases qs with
    | nil => simp at h
    | cons q qs =>
      rw [List.mem_cons, not_or] at hp hq
      simp only [List.map_cons, List.cons_prefix_cons] at h
      obtain ⟨hstep, hrest⟩ := h
      have hpq : p = q := by
        cases p <;> cases q <;> simp_all [Projection.step]
      exact List.cons_prefix_cons.mpr ⟨hpq, ih hp.2 hq.2 hrest⟩

theorem Tracked.front_of_extends (hp : p.Tracked cx) (hq : q.Tracked cx)
    (h : q.storage.Extends p.storage) : p.root = q.root ∧ p.path <+: q.path :=
  ⟨h.1.symm, front_of_map_step hp.no_any hq.no_any h.2⟩

end Place

end Ownership
