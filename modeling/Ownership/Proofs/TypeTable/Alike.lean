import Ownership.Proofs.Effect.Collected
import Ownership.Proofs.Place.Storage
import Ownership.Proofs.TypeTable.Carrying

/-!
Types up to regions, and types along concrete steps. The same steps lead from
like types to like types, and the type of a place is the one that any steps its
path can stand for lead to.
-/
namespace Ownership

open Outcome

namespace TypeTable

variable {t : TypeTable} {a b c : TypeId}

/-- The same type, whatever regions it names and whether references in it are mutable. -/
inductive Alike (t : TypeTable) : TypeId → TypeId → Prop where
  | refl (a : TypeId) : Alike t a a
  | ref {a b x y : TypeId} {m n : Bool} {r s : Option String} (ha : t.get a = .ok (.ref x m r))
      (hb : t.get b = .ok (.ref y n s)) (h : Alike t x y) : Alike t a b
  | array {a b x y : TypeId} (ha : t.get a = .ok (.array x)) (hb : t.get b = .ok (.array y))
      (h : Alike t x y) : Alike t a b
  | struct {a b : TypeId} {name : String} {r s : Option String} {m n : Bool}
      (ha : t.get a = .ok (.struct name r m)) (hb : t.get b = .ok (.struct name s n)) : Alike t a b
  | enum {a b : TypeId} {name : String} {r s : Option String} {m n : Bool}
      (ha : t.get a = .ok (.enum name r m)) (hb : t.get b = .ok (.enum name s n)) : Alike t a b

namespace Alike

theorem symm (h : t.Alike a b) : t.Alike b a := by
  induction h with
  | refl a => exact .refl a
  | ref ha hb _ ih => exact .ref hb ha ih
  | array ha hb _ ih => exact .array hb ha ih
  | struct ha hb => exact .struct hb ha
  | enum ha hb => exact .enum hb ha

/-- What is like a reference is one, to a like type. -/
theorem of_ref (h : t.Alike a b) {x : TypeId} {m : Bool} {r : Option String}
    (ha : t.get a = .ok (.ref x m r)) : ∃ y n s, t.get b = .ok (.ref y n s) ∧ t.Alike x y := by
  cases h with
  | refl => exact ⟨x, m, r, ha, .refl x⟩
  | ref ha' hb h =>
    obtain ⟨rfl, _⟩ := TypeDef.ref.inj (Except.ok.inj (ha.symm.trans ha'))
    exact ⟨_, _, _, hb, h⟩
  | array ha' | struct ha' | enum ha' => simp [ha] at ha'

theorem of_array (h : t.Alike a b) {x : TypeId} (ha : t.get a = .ok (.array x)) :
    ∃ y, t.get b = .ok (.array y) ∧ t.Alike x y := by
  cases h with
  | refl => exact ⟨x, ha, .refl x⟩
  | array ha' hb h =>
    obtain rfl := TypeDef.array.inj (Except.ok.inj (ha.symm.trans ha'))
    exact ⟨_, hb, h⟩
  | ref ha' | struct ha' | enum ha' => simp [ha] at ha'

theorem of_aggregate (h : t.Alike a b) {k : Kind} {name : String} {r : Option String} {m : Bool}
    (ha : t.get a = .ok (k.type name r m)) : ∃ s n, t.get b = .ok (k.type name s n) := by
  cases h with
  | refl => exact ⟨r, m, ha⟩
  | ref ha' | array ha' => cases k <;> simp [ha, Kind.type] at ha'
  | struct ha' hb | enum ha' hb =>
    cases k <;>
      simp only [ha, Kind.type, Except.ok.injEq, TypeDef.struct.injEq, TypeDef.enum.injEq, reduceCtorEq] at ha'
    obtain ⟨rfl, _⟩ := ha'
    exact ⟨_, _, hb⟩

theorem trans (h : t.Alike a b) (k : t.Alike b c) : t.Alike a c := by
  induction h generalizing c with
  | refl a => exact k
  | ref ha hb _ ih =>
    obtain ⟨_, _, _, hc, hlike⟩ := k.of_ref hb
    exact .ref ha hc (ih hlike)
  | array ha hb _ ih =>
    obtain ⟨_, hc, hlike⟩ := k.of_array hb
    exact .array ha hc (ih hlike)
  | struct ha hb =>
    obtain ⟨_, _, hc⟩ := k.of_aggregate (k := .struct) hb
    exact .struct ha hc
  | enum ha hb =>
    obtain ⟨_, _, hc⟩ := k.of_aggregate (k := .enum) hb
    exact .enum ha hc

/-- The same step leads from like types to like types. -/
theorem step (h : t.Alike a b) {pending : Option String} {p : Projection} {next : TypeId}
    (ha : t.step? a pending p = .ok (some next)) :
    ∃ next', t.step? b pending p = .ok (some next') ∧ t.Alike next next' := by
  cases p with
  | deref =>
    obtain ⟨_, _, hx⟩ := get_of_pointee ha
    obtain ⟨y, _, _, hy, hlike⟩ := h.of_ref hx
    exact ⟨y, by simp [step?, pointee, hy, Except.map], hlike⟩
  | element | anyElement =>
    obtain ⟨y, hy, hlike⟩ := h.of_array (get_of_elementType ha)
    exact ⟨y, by simp [step?, elementType, hy, Except.map], hlike⟩
  | downcast variant =>
    obtain rfl : a = next := by simpa [step?] using ha
    exact ⟨b, rfl, h⟩
  | field name =>
    cases pending with
    | none =>
      obtain ⟨_, _, _, hx, _⟩ := hasPart_of_fieldType ha
      obtain ⟨_, _, hy⟩ := h.of_aggregate (k := .struct) hx
      exact ⟨next, by simpa [step?, fieldType, hx, hy, Kind.type, bind, Except.bind] using ha, .refl next⟩
    | some variant =>
      obtain ⟨_, _, _, hx, _⟩ := hasPart_of_payloadType ha
      obtain ⟨_, _, hy⟩ := h.of_aggregate (k := .enum) hx
      exact ⟨next, by simpa [step?, payloadType, hx, hy, Kind.type, bind, Except.bind] using ha, .refl next⟩

end Alike

/-- Tells types apart that differ in more than regions and mutability. -/
def alikeFrom (t : TypeTable) : Nat → TypeId → TypeId → Bool
  | 0, _, _ => false
  | n + 1, a, b =>
    a = b || match t.get a, t.get b with
      | .ok (.ref x _ _), .ok (.ref y _ _) => t.alikeFrom n x y
      | .ok (.array x), .ok (.array y) => t.alikeFrom n x y
      | .ok (.struct x _ _), .ok (.struct y _ _) => x = y
      | .ok (.enum x _ _), .ok (.enum y _ _) => x = y
      | _, _ => false

def alike (t : TypeTable) (a b : TypeId) : Bool := t.alikeFrom t.chainBound a b

theorem alike_of_alikeFrom {n : Nat} (h : t.alikeFrom n a b = true) : t.Alike a b := by
  induction n generalizing a b with
  | zero => cases h
  | succ n ih =>
    simp only [alikeFrom, Bool.or_eq_true, decide_eq_true_eq] at h
    rcases h with rfl | h
    · exact .refl a
    · split at h
      · rename_i ha hb
        exact .ref ha hb (ih h)
      · rename_i ha hb
        exact .array ha hb (ih h)
      · rename_i ha hb
        obtain rfl := of_decide_eq_true h
        exact .struct ha hb
      · rename_i ha hb
        obtain rfl := of_decide_eq_true h
        exact .enum ha hb
      · cases h

end TypeTable

/-- The step of a place that stands for this very step only. -/
def Step.projection : Step → Projection
  | .field name => .field name
  | .element i => .element i
  | .deref => .deref
  | .downcast variant => .downcast variant

namespace TypeTable

variable {t : TypeTable} {a b : TypeId}

theorem step?_of_admits {p : Projection} {s : Step} (h : p.Admits s) (t : TypeTable) (ty : TypeId)
    (pending : Option String) : t.step? ty pending s.projection = t.step? ty pending p ∧
      pendingAfter pending s.projection = pendingAfter pending p := by
  cases h <;> exact ⟨rfl, rfl⟩

/-- The type that steps lead to, with the variant that is selected there. -/
def descend (t : TypeTable) : TypeId × Option String → List Step → Option (TypeId × Option String)
  | start, [] => some start
  | (ty, pending), s :: rest =>
    match t.step? ty pending s.projection with
    | .ok (some next) => t.descend (next, pendingAfter pending s.projection) rest
    | _ => none

theorem descend_cons {ty : TypeId} {pending : Option String} {s : Step} {rest : List Step}
    {r : TypeId × Option String} : t.descend (ty, pending) (s :: rest) = some r ↔
      ∃ next, t.step? ty pending s.projection = .ok (some next) ∧
        t.descend (next, pendingAfter pending s.projection) rest = some r := by
  rw [descend]
  split
  · rename_i next hnext
    simp [hnext]
  · rename_i hnone
    simp only [reduceCtorEq, false_iff, not_exists, not_and]
    exact fun next hnext => absurd hnext (hnone next)

theorem descend_append (start : TypeId × Option String) (xs ys : List Step) :
    t.descend start (xs ++ ys) = (t.descend start xs).bind (t.descend · ys) := by
  induction xs generalizing start with
  | nil => rfl
  | cons x xs ih =>
    obtain ⟨ty, pending⟩ := start
    rw [List.cons_append, descend, descend]
    split
    · exact ih _
    · rfl

theorem Alike.descend (h : t.Alike a b) {pending pending' : Option String} {xs : List Step} {r : TypeId}
    (ha : t.descend (a, pending) xs = some (r, pending')) :
    ∃ r', t.descend (b, pending) xs = some (r', pending') ∧ t.Alike r r' := by
  induction xs generalizing a b pending with
  | nil =>
    obtain ⟨rfl, rfl⟩ := Prod.mk.inj (Option.some.inj ha)
    exact ⟨b, rfl, h⟩
  | cons x xs ih =>
    obtain ⟨next, hnext, hrest⟩ := descend_cons.mp ha
    obtain ⟨next', hnext', hlike⟩ := h.step hnext
    obtain ⟨r', hr', hlike'⟩ := ih hlike hrest
    exact ⟨r', descend_cons.mpr ⟨next', hnext', hr'⟩, hlike'⟩

/-- A type that steps lead from to a reference holds one. -/
theorem holds_of_descend {start final : TypeId × Option String} {xs : List Step}
    (h : t.descend start xs = some final) (hk : ∃ k, t.Holds final.1 k) : ∃ k, t.Holds start.1 k := by
  induction xs generalizing start with
  | nil =>
    obtain rfl := Option.some.inj h
    exact hk
  | cons x xs ih =>
    obtain ⟨ty, pending⟩ := start
    obtain ⟨next, hnext, hrest⟩ := descend_cons.mp h
    obtain ⟨k, hk⟩ := ih hrest
    exact hk.of_step hnext

/-- The steps that a path stands for lead to the type of the path. -/
theorem descend_of_walk {place : Place} {loc : Span} {path : List Projection}
    {steps : List Step} (h : Traces path steps) {ty ty' : TypeId} {pending : Option String}
    (hwalk : t.walk place loc ty pending path = .ok ty') :
    t.descend (ty, pending) steps = some (ty', none) := by
  induction h generalizing ty pending with
  | nil =>
    cases pending with
    | none =>
      obtain rfl := Except.ok.inj hwalk
      rfl
    | some variant => cases hwalk
  | cons hstep _ ih =>
    obtain ⟨mid, hmid, hrest⟩ := walk_cons hwalk
    obtain ⟨hsame, hpending⟩ := step?_of_admits hstep t ty pending
    exact descend_cons.mpr ⟨mid, hsame.trans hmid, hpending ▸ ih hrest⟩

end TypeTable

/-- A place has one type. -/
theorem Context.PlaceType.unique {cx : Context} {place : Place} {a b : TypeId} (ha : cx.PlaceType place a)
    (hb : cx.PlaceType place b) : a = b := by
  obtain ⟨bd, _, hbd, hwalk⟩ := ha.walk
  obtain ⟨bd', _, hbd', hwalk'⟩ := hb.walk
  obtain rfl := Option.some.inj (hbd.symm.trans hbd')
  have hsteps := Traces.map_step place.path
  have hsame := (TypeTable.descend_of_walk hsteps hwalk).symm.trans (TypeTable.descend_of_walk hsteps hwalk')
  exact (Prod.mk.inj (Option.some.inj hsame)).1

end Ownership
