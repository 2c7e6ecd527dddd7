import Mathlib.Data.List.Forall2
import Mathlib.Data.Set.Defs
import Ownership.Place

/-!
Storage. A piece of storage is a root with a path of concrete steps, where
every position is a number; a place denotes the storage that its path can
stand for. Two places that reach into one piece of storage never compare as disjoint,
and the shorter one then counts as containing the other.
-/
namespace Ownership

inductive Step where
  | field (name : String)
  | element (position : Int)
  | deref
  | downcast (variant : String)
  deriving DecidableEq, Repr

/-- A step of a place can stand for a concrete one; an unknown position stands for any. -/
inductive Projection.Admits : Projection → Step → Prop where
  | field (name : String) : Admits (.field name) (.field name)
  | element (i : Int) : Admits (.element i) (.element i)
  | anyElement (i : Int) : Admits .anyElement (.element i)
  | deref : Admits .deref .deref
  | downcast (variant : String) : Admits (.downcast variant) (.downcast variant)

namespace Projection

theorem Admits.not_apart {p q : Projection} {s : Step} (hp : p.Admits s) (hq : q.Admits s) :
    p.apart q = false := by
  cases hp <;> cases hq <;> simp [apart]

/-- A step with a known position stands for one concrete step only. -/
theorem Admits.unique {p : Projection} {s t : Step} (hs : p.Admits s) (ht : p.Admits t)
    (hp : p ≠ .anyElement) : s = t := by
  cases hs with
  | anyElement => exact absurd rfl hp
  | field | element | deref | downcast => cases ht; rfl

theorem admits_deref {p : Projection} : p.Admits .deref ↔ p = .deref := by
  constructor
  · intro h
    cases h
    rfl
  · rintro rfl
    exact .deref

/-- A step that it can stand for. -/
def step : Projection → Step
  | field name => .field name
  | element i => .element i
  | anyElement => .element 0
  | deref => .deref
  | downcast variant => .downcast variant

theorem admits_step (p : Projection) : p.Admits p.step := by
  cases p <;> constructor

end Projection

/-- A path of a place can stand for a concrete path. -/
abbrev Traces (ps : List Projection) (steps : List Step) : Prop := List.Forall₂ Projection.Admits ps steps

namespace Traces

variable {ps qs : List Projection} {xs ys : List Step}

theorem map_step (ps : List Projection) : Traces ps (ps.map Projection.step) := by
  induction ps with
  | nil => exact .nil
  | cons p _ ih => exact .cons p.admits_step ih

/-- A path that stands for part of the other's concrete path counts as around it. -/
theorem compare_of_front (hp : Traces ps xs) (hq : Traces qs ys) (h : xs <+: ys) :
    Place.comparePaths ps qs = .equal ∨ Place.comparePaths ps qs = .contains := by
  induction hp generalizing qs ys with
  | nil => cases qs <;> simp [Place.comparePaths]
  | cons hstep _ ih =>
    cases hq with
    | nil => simp at h
    | cons hstep' hq' =>
      obtain ⟨rfl, hrest⟩ := List.cons_prefix_cons.mp h
      rw [Place.comparePaths, hstep.not_apart hstep']
      exact ih hq' hrest

/-- The concrete path is the only one if no position is unknown. -/
theorem unique (hx : Traces ps xs) (hy : Traces ps ys) (h : .anyElement ∉ ps) : xs = ys := by
  induction hx generalizing ys with
  | nil =>
    cases hy
    rfl
  | cons hstep _ ih =>
    cases hy with
    | cons hstep' hy' =>
      rw [List.mem_cons, not_or] at h
      rw [hstep.unique hstep' (Ne.symm h.1), ih hy' h.2]

/-- The front of a path stands for a front of the concrete path. -/
theorem front {rest : List Projection} (h : Traces (ps ++ rest) xs) : ∃ ys, ys <+: xs ∧ Traces ps ys := by
  induction ps generalizing xs with
  | nil => exact ⟨[], List.nil_prefix, .nil⟩
  | cons p ps ih =>
    cases h with
    | cons hstep hrest =>
      obtain ⟨ys, hpre, hys⟩ := ih hrest
      exact ⟨_ :: ys, List.cons_prefix_cons.mpr ⟨rfl, hpre⟩, .cons hstep hys⟩

theorem dropLast (h : Traces ps xs) : Traces ps.dropLast xs.dropLast := by
  induction h with
  | nil => exact .nil
  | cons hstep hrest ih =>
    cases hrest with
    | nil => exact .nil
    | cons hstep' hrest' => exact .cons hstep ih

theorem deref_mem_iff (h : Traces ps xs) : .deref ∈ ps ↔ .deref ∈ xs := by
  induction h with
  | nil => simp
  | @cons p x ps xs hstep _ ih =>
    have hhead : Projection.deref = p ↔ Step.deref = x := by
      constructor
      · rintro rfl
        cases hstep
        rfl
      · rintro rfl
        exact (Projection.admits_deref.mp hstep).symm
    rw [List.mem_cons, List.mem_cons, hhead, ih]

end Traces

structure Storage where
  root : BindingId
  path : List Step := []
  deriving DecidableEq, Repr

namespace Storage

/-- The storage is the other one or lies in it. -/
def Extends (l k : Storage) : Prop := l.root = k.root ∧ k.path <+: l.path

theorem Extends.refl (l : Storage) : l.Extends l := ⟨rfl, List.prefix_rfl⟩

theorem Extends.trans {l k j : Storage} (h : l.Extends k) (h' : k.Extends j) : l.Extends j :=
  ⟨h.1.trans h'.1, h'.2.trans h.2⟩

/-- Two pieces of storage around a third one are nested. -/
theorem Extends.total {l k j : Storage} (hk : l.Extends k) (hj : l.Extends j) :
    k.Extends j ∨ j.Extends k := by
  rcases List.prefix_or_prefix_of_prefix hk.2 hj.2 with h | h
  · exact .inr ⟨hj.1.symm.trans hk.1, h⟩
  · exact .inl ⟨hk.1.symm.trans hj.1, h⟩

def parent (l : Storage) : Storage := { l with path := l.path.dropLast }

/-- Storage strictly inside other storage has its parent there too. -/
theorem Extends.parent_of_ne {l k : Storage} (h : l.Extends k) (hne : k ≠ l) :
    l.path ≠ [] ∧ l.parent.Extends k := by
  obtain ⟨rest, hrest⟩ := h.2
  rcases List.eq_nil_or_concat rest with rfl | ⟨front, step, rfl⟩
  · rw [List.append_nil] at hrest
    obtain ⟨lroot, lpath⟩ := l
    obtain ⟨kroot, kpath⟩ := k
    exact absurd (by simp only [Storage.mk.injEq]; exact ⟨h.1.symm, hrest⟩) hne
  · rw [List.concat_eq_append, ← List.append_assoc] at hrest
    refine ⟨by simp [← hrest], h.1, ?_⟩
    simp [parent, ← hrest]

end Storage

namespace Place

theorem comparePaths_self (ps : List Projection) : comparePaths ps ps = .equal := by
  induction ps with
  | nil => rfl
  | cons p ps ih => simpa [comparePaths] using ih

theorem compare_of_same {p q : Place} (h : p.same q = true) : p.compare q = .equal := by
  simp only [same, Bool.and_eq_true, decide_eq_true_eq] at h
  rw [compare, if_pos h.1, h.2, comparePaths_self]

/-- The place can stand for the storage. -/
def Denotes (p : Place) (l : Storage) : Prop := p.root = l.root ∧ Traces p.path l.path

/-- The storage is what the place can stand for, or lies in it. -/
def Covers (p : Place) (l : Storage) : Prop := ∃ k, p.Denotes k ∧ l.Extends k

variable {p q : Place} {l k : Storage}

theorem Denotes.covers (h : p.Denotes l) : p.Covers l := ⟨l, h, .refl l⟩

theorem Covers.of_same (h : p.Covers l) (hpq : p.same q = true) : q.Covers l := by
  obtain ⟨k, hk, hlk⟩ := h
  simp only [same, Bool.and_eq_true, decide_eq_true_eq] at hpq
  exact ⟨k, ⟨hpq.1 ▸ hk.1, hpq.2 ▸ hk.2⟩, hlk⟩

theorem Covers.extends (h : p.Covers l) (he : k.Extends l) : p.Covers k := by
  obtain ⟨j, hj, hlj⟩ := h
  exact ⟨j, hj, he.trans hlj⟩

/-- A place that covers what another denotes counts as around it. -/
theorem Covers.around (hp : p.Covers l) (hq : q.Denotes l) :
    p.compare q = .equal ∨ p.compare q = .contains := by
  obtain ⟨k, hk, hlk⟩ := hp
  have hroot : p.root = q.root := hk.1.trans (hlk.1.symm.trans hq.1.symm)
  rw [compare, if_pos hroot]
  exact hk.2.compare_of_front hq.2 hlk.2

/-- Places that cover the same storage are not disjoint. -/
theorem Covers.conflicts (hp : p.Covers l) (hq : q.Covers l) : p.compare q ≠ .disjoint := by
  obtain ⟨k, hk, hlk⟩ := hp
  obtain ⟨j, hj, hlj⟩ := hq
  rcases hlk.total hlj with h | h
  · rw [compare_swap]
    rcases Covers.around ⟨j, hj, h⟩ hk with he | he <;> simp [he, Overlap.swap]
  · rcases Covers.around ⟨k, hk, h⟩ hj with he | he <;> simp [he]

/-- A place spelled as part of another covers less. -/
theorem Covers.of_spelled (h : q.Covers l) (hroot : q.root = p.root)
    (hpath : q.path.take p.path.length = p.path) : p.Covers l := by
  obtain ⟨k, hk, hlk⟩ := h
  have hsplit := List.take_append_drop p.path.length q.path
  rw [hpath] at hsplit
  have htraces := hk.2
  rw [← hsplit] at htraces
  obtain ⟨ys, hys, htrace⟩ := htraces.front
  exact ⟨⟨k.root, ys⟩, ⟨hroot.symm.trans hk.1, htrace⟩, hlk.trans ⟨rfl, hys⟩⟩

/-- A place without unknown positions denotes one piece of storage. -/
theorem Denotes.unique (hl : p.Denotes l) (hk : p.Denotes k) (h : p.isExact = true) : l = k := by
  have hany : Projection.anyElement ∉ p.path := by simpa [isExact] using h
  obtain ⟨lroot, lpath⟩ := l
  obtain ⟨kroot, kpath⟩ := k
  simp only [Storage.mk.injEq]
  exact ⟨hl.1.symm.trans hk.1, hl.2.unique hk.2 hany⟩

theorem Denotes.parent (h : p.Denotes l) : { p with path := p.path.dropLast }.Denotes l.parent :=
  ⟨h.1, h.2.dropLast⟩

theorem Denotes.root (h : p.Denotes l) (hp : p.path = []) : l = ⟨p.root, []⟩ := by
  obtain ⟨root, path⟩ := l
  have hpath := h.2
  rw [hp] at hpath
  simp only [Storage.mk.injEq]
  exact ⟨h.1.symm, List.forall₂_nil_left_iff.mp hpath⟩

end Place

end Ownership
