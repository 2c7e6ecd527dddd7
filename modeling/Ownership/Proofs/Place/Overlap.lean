import Ownership.Proofs.Effect.Occurrences
import Ownership.Proofs.Place.Storage
import Ownership.Proofs.TypeTable.Carrying

/-!
Overlap is decided exactly. The comparison of places lets steps of different kinds count as
equal, and goes on past positions that are unknown. The type that two places start from tells
which kind of step can come next, so along typed paths two steps that are not told apart can
stand for one concrete step and lead to one type. Places that are not found disjoint thus
have storage in common for some choice of the unknown positions.
-/
namespace Ownership

/-- A path as expressions spell it: every downcast is followed by a field of the variant. -/
inductive Paired : List Projection → Prop where
  | nil : Paired []
  | field (name : String) {ps : List Projection} (h : Paired ps) : Paired (.field name :: ps)
  | element (i : Int) {ps : List Projection} (h : Paired ps) : Paired (.element i :: ps)
  | anyElement {ps : List Projection} (h : Paired ps) : Paired (.anyElement :: ps)
  | deref {ps : List Projection} (h : Paired ps) : Paired (.deref :: ps)
  | payload (variant field : String) {ps : List Projection} (h : Paired ps) :
      Paired (.downcast variant :: .field field :: ps)

theorem Paired.append {ps qs : List Projection} (hp : Paired ps) (hq : Paired qs) : Paired (ps ++ qs) := by
  induction hp with
  | nil => exact hq
  | field name _ ih => exact .field name ih
  | element i _ ih => exact .element i ih
  | anyElement _ ih => exact .anyElement ih
  | deref _ ih => exact .deref ih
  | payload variant field _ ih => exact .payload variant field ih

theorem Place.Spelled.paired {p : Place} (h : p.Spelled) : Paired p.path := by
  obtain ⟨e, h⟩ := h
  have hpush : ∀ {q : Place} {steps : List Projection}, Paired q.path → Paired steps →
      Paired (q.path ++ steps) := fun hq hs => hq.append hs
  fun_induction Place.ofExpr? e generalizing p with
  | case1 name id =>
    obtain rfl := Option.some.inj h
    exact .nil
  | case2 subject name loc ih =>
    obtain ⟨q, hq, rfl⟩ := Option.map_eq_some_iff.mp h
    exact hpush (ih hq) (.field name .nil)
  | case3 subject i l loc ih =>
    obtain ⟨q, hq, rfl⟩ := Option.map_eq_some_iff.mp h
    exact hpush (ih hq) (.element i .nil)
  | case4 subject position loc _ ih =>
    obtain ⟨q, hq, rfl⟩ := Option.map_eq_some_iff.mp h
    exact hpush (ih hq) (.anyElement .nil)
  | case5 subject loc ih =>
    obtain ⟨q, hq, rfl⟩ := Option.map_eq_some_iff.mp h
    exact hpush (ih hq) (.deref .nil)
  | case6 subject variant field loc ih =>
    obtain ⟨q, hq, rfl⟩ := Option.map_eq_some_iff.mp h
    simp only [Place.push, List.append_assoc]
    exact hpush (ih hq) (.payload variant field .nil)
  | case7 => cases h

/-- What can follow once a variant is selected, or none is: a field of the variant comes first. -/
def PairedAfter : Option String → List Projection → Prop
  | none, ps => Paired ps
  | some _, ps => ∃ name rest, ps = .field name :: rest ∧ Paired rest

theorem PairedAfter.tail {pending : Option String} {p : Projection} {ps : List Projection}
    (h : PairedAfter pending (p :: ps)) : PairedAfter (TypeTable.pendingAfter pending p) ps := by
  cases pending with
  | none =>
    cases h with
    | field _ h | element _ h | anyElement h | deref h => exact h
    | payload variant field h => exact ⟨field, _, rfl, h⟩
  | some variant =>
    obtain ⟨name, rest, heq, hrest⟩ := h
    obtain ⟨rfl, rfl⟩ := List.cons.inj heq
    exact hrest

/-- The two steps can stand for one concrete step. -/
def Projection.Meets (p q : Projection) : Prop := ∃ x, p.Admits x ∧ q.Admits x

/-- The kind of step that a type allows. -/
def Projection.Fits : Projection → TypeDef → Prop
  | .field _, .struct .. => True
  | .element _, .array _ => True
  | .anyElement, .array _ => True
  | .deref, .ref .. => True
  | .downcast _, .enum .. => True
  | _, _ => False

namespace Projection

variable {p q : Projection}

/-- Steps of the same kind that do not tell storage apart can stand for one concrete step. -/
theorem Fits.meets {d : TypeDef} (hp : p.Fits d) (hq : q.Fits d) (h : p.apart q = false) : p.Meets q := by
  cases p <;> cases q <;> cases d <;> simp only [Fits] at hp hq <;> simp only [apart] at h
  case field.field a b _ _ _ =>
    obtain rfl : a = b := by simpa using h
    exact ⟨_, .field a, .field a⟩
  case element.element i j _ =>
    obtain rfl : i = j := by simpa using h
    exact ⟨_, .element i, .element i⟩
  case element.anyElement i _ => exact ⟨_, .element i, .anyElement i⟩
  case anyElement.element i _ => exact ⟨_, .anyElement i, .element i⟩
  case anyElement.anyElement _ => exact ⟨_, .anyElement 0, .anyElement 0⟩
  case deref.deref _ _ _ => exact ⟨_, .deref, .deref⟩
  case downcast.downcast a b _ _ _ =>
    obtain rfl : a = b := by simpa using h
    exact ⟨_, .downcast a, .downcast a⟩

/-- A step that meets one with a known position is that step, unless its own position is unknown. -/
theorem Meets.eq_or_any (h : p.Meets q) (hq : q ≠ .anyElement) : p = q ∨ p = .anyElement := by
  obtain ⟨x, hp, hq⟩ := h
  cases hp <;> cases hq <;> simp_all

theorem Meets.step?_eq (h : p.Meets q) (t : TypeTable) (ty : TypeId) (pending : Option String) :
    t.step? ty pending p = t.step? ty pending q := by
  obtain ⟨x, hp, hq⟩ := h
  cases hp <;> cases hq <;> rfl

theorem Meets.pendingAfter_eq (h : p.Meets q) (pending : Option String) :
    TypeTable.pendingAfter pending p = TypeTable.pendingAfter pending q := by
  obtain ⟨x, hp, hq⟩ := h
  cases hp <;> cases hq <;> rfl

end Projection

/-- As far as both go, the paths can stand for the same concrete steps. -/
def Meet : List Projection → List Projection → Prop
  | p :: ps, q :: qs => p.Meets q ∧ Meet ps qs
  | _, _ => True

theorem Meet.traces {ps qs : List Projection} (h : Meet ps qs) :
    ∃ xs ys, Traces ps xs ∧ Traces qs ys ∧ (xs <+: ys ∨ ys <+: xs) := by
  induction ps generalizing qs with
  | nil => exact ⟨[], _, .nil, .map_step qs, .inl List.nil_prefix⟩
  | cons p ps ih =>
    cases qs with
    | nil => exact ⟨_, [], .map_step (p :: ps), .nil, .inr List.nil_prefix⟩
    | cons q qs =>
      obtain ⟨⟨x, hp, hq⟩, hrest⟩ := h
      obtain ⟨xs, ys, hxs, hys, hnested⟩ := ih hrest
      refine ⟨x :: xs, x :: ys, .cons hp hxs, .cons hq hys, ?_⟩
      exact hnested.imp (List.cons_prefix_cons.mpr ⟨rfl, ·⟩) (List.cons_prefix_cons.mpr ⟨rfl, ·⟩)

namespace Place

/-- Paths that are not disjoint have no step apart from one another. -/
theorem comparePaths_cons_ne {p q : Projection} {ps qs : List Projection} :
    comparePaths (p :: ps) (q :: qs) ≠ .disjoint ↔ p.apart q = false ∧ comparePaths ps qs ≠ .disjoint := by
  cases happart : p.apart q <;> simp [comparePaths, happart]

/-- Unless two paths are disjoint, their lengths tell how they compare. -/
theorem comparePaths_of_ne {ps qs : List Projection} (h : comparePaths ps qs ≠ .disjoint) :
    comparePaths ps qs = if ps.length = qs.length then .equal
      else if ps.length < qs.length then .contains else .within := by
  induction ps generalizing qs with
  | nil => cases qs <;> rfl
  | cons p ps ih =>
    cases qs with
    | nil => rfl
    | cons q qs =>
      obtain ⟨happart, hrest⟩ := comparePaths_cons_ne.mp h
      rw [comparePaths, happart, if_neg (by simp), ih hrest]
      simp

/-- The first path is the shorter one or as long as the second just if it compares as around it. -/
theorem around_iff {ps qs : List Projection} : comparePaths ps qs = .equal ∨ comparePaths ps qs = .contains ↔
    comparePaths ps qs ≠ .disjoint ∧ ps.length ≤ qs.length := by
  constructor
  · intro h
    have hne : comparePaths ps qs ≠ .disjoint := by rcases h with h | h <;> simp [h]
    refine ⟨hne, ?_⟩
    rw [comparePaths_of_ne hne] at h
    split at h
    · omega
    · split at h
      · omega
      · simp at h
  · rintro ⟨hne, hle⟩
    rw [comparePaths_of_ne hne]
    split
    · exact .inl rfl
    · exact .inr (if_pos (by omega))

end Place

namespace TypeTable

variable {t : TypeTable} {place place' : Place} {loc loc' : Span}

/-- The first step of a typed path is of the kind that the type allows. -/
theorem fits_of_walk {ty next : TypeId} {p : Projection} {ps : List Projection} (hp : Paired (p :: ps))
    (h : t.walk place loc ty none (p :: ps) = .ok next) : ∃ d, t.get ty = .ok d ∧ p.Fits d := by
  obtain ⟨mid, hstep, hrest⟩ := walk_cons h
  cases hp with
  | field name =>
    obtain ⟨_, _, _, hget, _⟩ := hasPart_of_fieldType hstep
    exact ⟨_, hget, trivial⟩
  | element i => exact ⟨_, get_of_elementType hstep, trivial⟩
  | anyElement => exact ⟨_, get_of_elementType hstep, trivial⟩
  | deref =>
    obtain ⟨_, _, hget⟩ := get_of_pointee hstep
    exact ⟨_, hget, trivial⟩
  | payload variant field =>
    obtain rfl : ty = mid := by simpa [step?] using hstep
    obtain ⟨_, hfield, _⟩ := walk_cons hrest
    obtain ⟨_, _, _, hget, _⟩ := hasPart_of_payloadType hfield
    exact ⟨_, hget, trivial⟩

/-- The first steps of typed paths from one type can stand for one concrete step, unless they are apart. -/
theorem meets_of_walk {pending : Option String} {p q : Projection} {ps qs : List Projection}
    (hp : PairedAfter pending (p :: ps)) (hq : PairedAfter pending (q :: qs)) {ty a b : TypeId}
    (hps : t.walk place loc ty pending (p :: ps) = .ok a) (hqs : t.walk place' loc' ty pending (q :: qs) = .ok b)
    (h : p.apart q = false) : p.Meets q := by
  cases pending with
  | none =>
    obtain ⟨d, hd, hpd⟩ := fits_of_walk hp hps
    obtain ⟨d', hd', hqd⟩ := fits_of_walk hq hqs
    obtain rfl := Except.ok.inj (hd.symm.trans hd')
    exact hpd.meets hqd h
  | some variant =>
    obtain ⟨name, _, heq, _⟩ := hp
    obtain ⟨name', _, heq', _⟩ := hq
    obtain ⟨rfl, _⟩ := List.cons.inj heq
    obtain ⟨rfl, _⟩ := List.cons.inj heq'
    obtain rfl : name = name' := by simpa [Projection.apart] using h
    exact ⟨_, .field name, .field name⟩

/-- Typed paths from one type that are not disjoint can stand for the same concrete steps. -/
theorem meet_of_comparePaths {pending : Option String} {ps qs : List Projection} (hp : PairedAfter pending ps)
    (hq : PairedAfter pending qs) {ty a b : TypeId} (hps : t.walk place loc ty pending ps = .ok a)
    (hqs : t.walk place' loc' ty pending qs = .ok b) (h : Place.comparePaths ps qs ≠ .disjoint) : Meet ps qs := by
  induction ps generalizing qs ty pending with
  | nil => trivial
  | cons p ps ih =>
    cases qs with
    | nil => trivial
    | cons q qs =>
      obtain ⟨happart, hrest⟩ := Place.comparePaths_cons_ne.mp h
      have hmeets := meets_of_walk hp hq hps hqs happart
      obtain ⟨mid, hstep, hps⟩ := walk_cons hps
      obtain ⟨mid', hstep', hqs⟩ := walk_cons hqs
      rw [hmeets.step?_eq] at hstep
      obtain rfl := Option.some.inj (Except.ok.inj (hstep.symm.trans hstep'))
      rw [← hmeets.pendingAfter_eq] at hqs
      exact ⟨hmeets, ih hp.tail (hmeets.pendingAfter_eq pending ▸ hq.tail) hps hqs hrest⟩

end TypeTable

namespace Place

variable {cx : Context} {p q : Place} {ty ty' : TypeId}

theorem root_of_compare (h : p.compare q ≠ .disjoint) : p.root = q.root := by
  by_contra hne
  exact h (if_neg hne)

theorem root_of_around (h : p.compare q = .equal ∨ p.compare q = .contains) : p.root = q.root :=
  root_of_compare (by rcases h with h | h <;> simp [h])

/-- Places that can stand for nested concrete paths are not disjoint. The longer of the two paths
lies in both. -/
theorem compare_of_nested (hroot : p.root = q.root) {xs ys : List Step} (hp : Traces p.path xs)
    (hq : Traces q.path ys) (h : xs <+: ys ∨ ys <+: xs) : p.compare q ≠ .disjoint := by
  have hpx : p.Denotes ⟨p.root, xs⟩ := ⟨rfl, hp⟩
  have hqy : q.Denotes ⟨p.root, ys⟩ := ⟨hroot.symm, hq⟩
  rcases h with hfront | hfront
  · exact Covers.conflicts (l := ⟨p.root, ys⟩) ⟨_, hpx, rfl, hfront⟩ hqy.covers
  · exact Covers.conflicts (l := ⟨p.root, xs⟩) hpx.covers ⟨_, hqy, rfl, hfront⟩

/-- The paths of typed places that are not disjoint can stand for the same concrete steps. -/
theorem meet_of_compare (hp : cx.PlaceType p ty) (hps : p.Spelled) (hq : cx.PlaceType q ty') (hqs : q.Spelled)
    (h : p.compare q ≠ .disjoint) : Meet p.path q.path := by
  have hroot := root_of_compare h
  rw [compare, if_pos hroot] at h
  obtain ⟨b, _, hb, hwalk⟩ := hp.walk
  obtain ⟨b', _, hb', hwalk'⟩ := hq.walk
  rw [hroot] at hb
  obtain rfl := Option.some.inj (hb.symm.trans hb')
  have hpaired : PairedAfter none p.path := hps.paired
  exact TypeTable.meet_of_comparePaths hpaired hqs.paired hwalk hwalk' h

end Place

/-- Two typed places are not disjoint exactly when they have the same root and their unknown positions can be
chosen so that one concrete path becomes a part of the other; the lengths of the paths then tell which place
contains the other. The comparison the other way round is the mirror image. -/
theorem overlap_exact {cx : Context} {p q : Place} {ty ty' : TypeId} (hp : cx.PlaceType p ty) (hps : p.Spelled)
    (hq : cx.PlaceType q ty') (hqs : q.Spelled) :
    (p.compare q ≠ .disjoint ↔ p.root = q.root ∧
      ∃ xs ys, Traces p.path xs ∧ Traces q.path ys ∧ (xs <+: ys ∨ ys <+: xs)) ∧
    (p.compare q ≠ .disjoint → p.compare q = if p.path.length = q.path.length then .equal
      else if p.path.length < q.path.length then .contains else .within) ∧
    q.compare p = (p.compare q).swap := by
  refine ⟨⟨fun h => ?_, ?_⟩, fun h => ?_, Place.compare_swap p q⟩
  · exact ⟨Place.root_of_compare h, (Place.meet_of_compare hp hps hq hqs h).traces⟩
  · rintro ⟨hroot, xs, ys, hxs, hys, hnested⟩
    exact Place.compare_of_nested hroot hxs hys hnested
  · have hroot := Place.root_of_compare h
    rw [Place.compare, if_pos hroot] at h ⊢
    exact Place.comparePaths_of_ne h

/-- A function that takes the cell of some row, or sets the cell of the first row anew. -/
def takeCell : Context where
  function :=
    { name := "takeCell"
      params := [⟨"v", 1, 5, {}⟩, ⟨"i", 2, 1, {}⟩, ⟨"c", 3, 2, {}⟩]
      ret := none
      body := .mk
        [.branch (.var "c" 3 {})
          (.mk [.eval (.field (.index (.var "v" 1 {}) (.var "i" 2 {}) {}) "cell" {}) {}] {})
          (some (.mk [.assign (.field (.index (.var "v" 1 {}) (.int 0 {}) {}) "cell" {})
            (.construct 3 [.mk "id" (.int 7 {})] {}) {}] {})) {}] {}
      bindings := .ofList [(1, ⟨1, "v", 5, .param, {}⟩), (2, ⟨2, "i", 1, .param, {}⟩), (3, ⟨3, "c", 2, .param, {}⟩)] }
  types :=
    { defs := [.scalar "Int" true, .scalar "Bool" true, .struct "Cell" none false, .struct "Row" none false, .array 4]
      structs := .ofList [("Cell", .ofList [("id", 1)]), ("Row", .ofList [("cell", 3)])] }
  signatures := {}

/-- The cell of an unknown row. -/
def takenCell : Place := { root := 1, path := [.anyElement, .field "cell"], name := "v" }

/-- A part of the cell of a row that is known. -/
def cellPart : Place := { root := 1, path := [.element 3, .field "cell", .field "id"], name := "v" }

/-- The cell of an unknown row contains the parts of the cell of a known one, since the row may be the same. -/
theorem overlap_exact_takeCell :
    takenCell.compare cellPart = .contains ∧ cellPart.compare takenCell = .within ∧
      ∃ xs ys, Traces takenCell.path xs ∧ Traces cellPart.path ys ∧ (xs <+: ys ∨ ys <+: xs) := by
  have hcell : takenCell.Spelled := ⟨.field (.index (.var "v" 1 {}) (.var "i" 2 {}) {}) "cell" {}, rfl⟩
  have hpart : cellPart.Spelled :=
    ⟨.field (.field (.index (.var "v" 1 {}) (.int 3 {}) {}) "cell" {}) "id" {}, rfl⟩
  have hcellType : takeCell.PlaceType takenCell 3 := ⟨{}, by decide⟩
  have hpartType : takeCell.PlaceType cellPart 1 := ⟨{}, by decide⟩
  obtain ⟨hiff, hlengths, hswap⟩ := overlap_exact hcellType hcell hpartType hpart
  have hne : takenCell.compare cellPart ≠ .disjoint := by decide
  have hcontains : takenCell.compare cellPart = .contains := hlengths hne
  exact ⟨hcontains, by rw [hswap, hcontains]; rfl, (hiff.mp hne).2⟩

end Ownership
