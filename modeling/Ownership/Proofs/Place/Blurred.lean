import Ownership.Proofs.Place.Overlap

/-!
Paths with unknown positions. The comparison of places is not transitive: an unknown position
compares as equal to every position, and so do steps of different kinds. Between typed places, what
compares as around an exact one has the same steps, except that some of its positions may be unknown;
and this relation is transitive and goes well with the comparison.
-/
namespace Ownership

/-- The steps of the first path are the first steps of the second, but for positions that are unknown. -/
def Blurs : List Projection → List Projection → Prop
  | [], _ => True
  | _ :: _, [] => False
  | p :: ps, q :: qs => (p = q ∨ p = .anyElement) ∧ Blurs ps qs

namespace Blurs

variable {ps qs rs : List Projection}

theorem refl (ps : List Projection) : Blurs ps ps := by
  induction ps with
  | nil => trivial
  | cons p ps ih => exact ⟨.inl rfl, ih⟩

theorem trans (h : Blurs ps qs) (k : Blurs qs rs) : Blurs ps rs := by
  induction ps generalizing qs rs with
  | nil => trivial
  | cons p ps ih =>
    cases qs with
    | nil => exact h.elim
    | cons q qs =>
      cases rs with
      | nil => exact k.elim
      | cons r rs =>
        refine ⟨?_, ih h.2 k.2⟩
        rcases h.1 with rfl | hp
        · exact k.1
        · exact .inr hp

/-- A path without unknown positions blurs only what it is a part of. -/
theorem front (h : Blurs ps qs) (hps : .anyElement ∉ ps) : ps <+: qs := by
  induction ps generalizing qs with
  | nil => exact List.nil_prefix
  | cons p ps ih =>
    cases qs with
    | nil => exact h.elim
    | cons q qs =>
      rw [List.mem_cons, not_or] at hps
      exact List.cons_prefix_cons.mpr ⟨h.1.resolve_right (Ne.symm hps.1), ih h.2 hps.2⟩

theorem around (h : Blurs ps qs) : Place.comparePaths ps qs = .equal ∨ Place.comparePaths ps qs = .contains := by
  induction ps generalizing qs with
  | nil => cases qs <;> simp [Place.comparePaths]
  | cons p ps ih =>
    cases qs with
    | nil => exact h.elim
    | cons q qs =>
      have happart : p.apart q = false := by
        rcases h.1 with rfl | rfl
        · exact Projection.apart_self p
        · rfl
      rw [Place.comparePaths, happart]
      exact ih h.2

theorem antisymm (h : Blurs ps qs) (k : Blurs qs ps) (hps : .anyElement ∉ ps) : ps = qs :=
  (h.front hps).eq_of_length_le (Place.around_iff.mp k.around).2

/-- What overlaps the sharper path overlaps the blurred one. -/
theorem overlaps (h : Blurs ps qs) (k : Place.comparePaths qs rs ≠ .disjoint) :
    Place.comparePaths ps rs ≠ .disjoint := by
  induction ps generalizing qs rs with
  | nil => cases rs <;> simp [Place.comparePaths]
  | cons p ps ih =>
    cases qs with
    | nil => exact h.elim
    | cons q qs =>
      cases rs with
      | nil => simp [Place.comparePaths]
      | cons r rs =>
        obtain ⟨happart, hrest⟩ := Place.comparePaths_cons_ne.mp k
        have hhead : p.apart r = false := by
          rcases h.1 with rfl | rfl
          · exact happart
          · rfl
        exact Place.comparePaths_cons_ne.mpr ⟨hhead, ih h.2 hrest⟩

end Blurs

/-- Of paths that can stand for the same steps, the shorter one blurs the other if that is exact. -/
theorem Meet.blurs {ps qs : List Projection} (h : Meet ps qs) (hqs : .anyElement ∉ qs)
    (hlength : ps.length ≤ qs.length) : Blurs ps qs := by
  induction ps generalizing qs with
  | nil => trivial
  | cons p ps ih =>
    cases qs with
    | nil => simp at hlength
    | cons q qs =>
      rw [List.mem_cons, not_or] at hqs
      exact ⟨h.1.eq_or_any (Ne.symm hqs.1), ih h.2 hqs.2 (Nat.le_of_succ_le_succ hlength)⟩

theorem Place.conflicts_of_blurs {p q r : Place} (hroot : p.root = q.root) (h : Blurs p.path q.path)
    (k : q.conflicts r = true) : p.conflicts r = true := by
  rw [conflicts, decide_eq_true_eq] at k ⊢
  have hr := root_of_compare k
  rw [compare, if_pos hr] at k
  rw [compare, if_pos (hroot.trans hr)]
  exact h.overlaps k

/-- What lies around a place and is blurred still does. -/
theorem Place.around_of_blurs {p q r : Place} (hroot : p.root = q.root) (h : Blurs p.path q.path)
    (k : q.compare r = .equal ∨ q.compare r = .contains) : p.compare r = .equal ∨ p.compare r = .contains := by
  have hr := root_of_around k
  rw [compare, if_pos hr, around_iff] at k
  rw [compare, if_pos (hroot.trans hr), around_iff]
  exact ⟨h.overlaps k.1, Nat.le_trans (around_iff.mp h.around).2 k.2⟩

/-- Of two typed places, the one that compares as around the other blurs it if the other is exact. -/
theorem Place.blurs_of_compare {cx : Context} {p q : Place} {ty ty' : TypeId} (hp : cx.PlaceType p ty)
    (hps : p.Spelled) (hq : cx.PlaceType q ty') (hqs : q.Spelled) (hexact : q.isExact = true)
    (h : p.compare q = .equal ∨ p.compare q = .contains) : p.root = q.root ∧ Blurs p.path q.path := by
  have hroot := root_of_around h
  have haround := h
  rw [compare, if_pos hroot, around_iff] at haround
  have hne : p.compare q ≠ .disjoint := by rcases h with h | h <;> simp [h]
  have hmeet := meet_of_compare hp hps hq hqs hne
  exact ⟨hroot, hmeet.blurs (by simpa [isExact] using hexact) haround.2⟩

end Ownership
