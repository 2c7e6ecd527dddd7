import Ownership.Proofs.Faults
import Ownership.Proofs.TypeTable.Carrying
import Ownership.Signature

/-!
Type tables that are built from the ground up. Every type refers to types that stand
before it in the table, and every aggregate has a layout of such types. In such a table
each look-up of a type that is there has an answer, and what a place of such a type leads
to is there as well.
-/
namespace Ownership

open Outcome

namespace TypeTable

variable {t u : TypeTable} {ty part : Int} {d : TypeDef}

/-- The type is in the table. -/
def Knows (t : TypeTable) (ty : Int) : Prop := 0 < ty ∧ ty ≤ t.defs.length

theorem get_eq_ok : t.get ty = .ok d ↔ ∃ i : Nat, ty = (i : Int) + 1 ∧ t.defs[i]? = some d := by
  constructor
  · intro h
    unfold get at h
    split at h
    · rename_i i
      exact ⟨i, rfl, eq_some_of_elim_eq_ok h⟩
    · cases h
  · rintro ⟨i, rfl, hd⟩
    have hget : t.get ((i : Int) + 1) = (t.defs[i]?).elim (.error (.unknownType ((i : Int) + 1))) .ok := rfl
    rw [hget, hd]
    rfl

theorem knows_iff : t.Knows ty ↔ ∃ d, t.get ty = .ok d := by
  constructor
  · rintro ⟨hpos, hle⟩
    have hi : (ty - 1).toNat < t.defs.length := by omega
    exact ⟨t.defs[(ty - 1).toNat], get_eq_ok.mpr ⟨(ty - 1).toNat, by omega, List.getElem?_eq_getElem hi⟩⟩
  · rintro ⟨d, hd⟩
    obtain ⟨i, rfl, hi⟩ := get_eq_ok.mp hd
    have hlt := (List.getElem?_eq_some_iff.mp hi).1
    exact ⟨by omega, by omega⟩

theorem Knows.mono (h : t.Knows ty) (hle : t.defs.length ≤ u.defs.length) : u.Knows ty := by
  obtain ⟨hpos, hle'⟩ := h
  exact ⟨hpos, by omega⟩

/-- The same of a type that may be absent. -/
theorem Knows.some (h : t.Knows ty) : ∀ x ∈ Option.some ty, t.Knows x := fun _ hx => Option.some.inj hx ▸ h

/-- The types that a type is made of. -/
inductive Part (t : TypeTable) : TypeDef → TypeId → Prop where
  | target {target : TypeId} {mutable : Bool} {region : Option String} : Part t (.ref target mutable region) target
  | element {element : TypeId} : Part t (.array element) element
  | field {name : String} {region : Option String} {copy : Bool} {fields : OrderedMap String TypeId} {part : TypeId}
      (h : t.structs.get? name = some fields) (hpart : part ∈ fields.values) : Part t (.struct name region copy) part
  | payload {name : String} {region : Option String} {copy : Bool} {arms : OrderedMap String (List TypeId)}
      {part : TypeId} (h : t.enums.get? name = some arms) (hpart : part ∈ arms.values.flatten) :
      Part t (.enum name region copy) part

/-- An aggregate has a layout. -/
def LaidOut (t : TypeTable) : TypeDef → Prop
  | .struct name _ _ => ∃ fields, t.structs.get? name = some fields
  | .enum name _ _ => ∃ arms, t.enums.get? name = some arms
  | _ => True

/-- Aggregates have layouts, layouts are of known types, and a type is made of earlier ones. -/
structure Founded (t : TypeTable) : Prop where
  layout : ∀ ty d, t.get ty = .ok d → t.LaidOut d
  below : ∀ (ty : Int) d (part : Int), t.get ty = .ok d → t.Part d part → 0 < part ∧ part < ty
  structs : ∀ name fields, t.structs.get? name = some fields → ∀ part ∈ fields.values, t.Knows part
  enums : ∀ name arms, t.enums.get? name = some arms → ∀ part ∈ arms.values.flatten, t.Knows part

theorem founded_empty : ({} : TypeTable).Founded := by
  refine ⟨fun ty d h => ?_, fun ty d part h => ?_, fun name fields h => ?_, fun name arms h => ?_⟩
  · obtain ⟨i, _, hi⟩ := get_eq_ok.mp h
    cases hi
  · obtain ⟨i, _, hi⟩ := get_eq_ok.mp h
    cases hi
  · cases h
  · cases h

theorem Founded.part_known (h : t.Founded) (hd : t.get ty = .ok d) (hpart : t.Part d part) : t.Knows part := by
  obtain ⟨hpos, hlt⟩ := h.below ty d part hd hpart
  have hle := (knows_iff.mpr ⟨d, hd⟩).2
  exact ⟨hpos, by omega⟩

theorem isCopy_neverFails {ty : Option TypeId} (hty : ∀ x ∈ ty, t.Knows x) : NeverFails (t.isCopy ty) := by
  cases ty with
  | none => exact .ok _
  | some ty =>
    obtain ⟨d, hd⟩ := knows_iff.mp (hty ty rfl)
    exact (FailsOnly.of_eq_ok hd).map _

section

variable (h : t.Founded)

include h

theorem Founded.carriesRefsFrom {n : Nat} {seen : List String} (hty : t.Knows ty) (hn : ty ≤ (n : Int)) :
    NeverFails (t.carriesRefsFrom n seen ty) := by
  induction n generalizing seen ty with
  | zero =>
    have hpos := hty.1
    omega
  | succ n ih =>
    obtain ⟨d, hd⟩ := knows_iff.mp hty
    have hparts : ∀ {seen part}, t.Part d part → NeverFails (t.carriesRefsFrom n seen part) := by
      intro seen part hpart
      have hlt := (h.below ty d part hd hpart).2
      exact ih (h.part_known hd hpart) (by omega)
    have hlayout := h.layout ty d hd
    rw [TypeTable.carriesRefsFrom, hd]
    cases d with
    | scalar | unit | unknown | ref => exact .ok _
    | array element => exact hparts .element
    | struct name region copy =>
      obtain ⟨fields, hfields⟩ := hlayout
      have hget : t.structFields name = .ok fields := by rw [structFields, hfields]; rfl
      refine FailsOnly.ite (fun _ => .ok _) fun _ => FailsOnly.ite (fun _ => .ok _) fun _ => ?_
      exact (FailsOnly.of_eq_ok hget).bind fun m hm => .anyM fun part hpart => by
        obtain rfl := Except.ok.inj (hget.symm.trans hm)
        exact hparts (.field hfields hpart)
    | enum name region copy =>
      obtain ⟨arms, harms⟩ := hlayout
      have hget : t.enumArms name = .ok arms := by rw [enumArms, harms]; rfl
      refine FailsOnly.ite (fun _ => .ok _) fun _ => FailsOnly.ite (fun _ => .ok _) fun _ => ?_
      exact (FailsOnly.of_eq_ok hget).bind fun m hm => .anyM fun part hpart => by
        obtain rfl := Except.ok.inj (hget.symm.trans hm)
        exact hparts (.payload harms hpart)

theorem Founded.carriesRefs {ty : Option TypeId} (hty : ∀ x ∈ ty, t.Knows x) : NeverFails (t.carriesRefs ty) := by
  cases ty with
  | none => exact .ok _
  | some ty =>
    have hknown := hty ty rfl
    have hle := hknown.2
    refine h.carriesRefsFrom hknown (Int.le_trans hle (Int.ofNat_le.mpr ?_))
    unfold nestingBound
    exact Nat.le_trans (Nat.le_succ _) (Nat.le_mul_of_pos_right _ (Nat.succ_pos _))

theorem Founded.regionOfFrom {n : Nat} (hty : t.Knows ty) (hn : ty ≤ (n : Int)) :
    NeverFails (t.regionOfFrom n ty) := by
  induction n generalizing ty with
  | zero =>
    have hpos := hty.1
    omega
  | succ n ih =>
    obtain ⟨d, hd⟩ := knows_iff.mp hty
    rw [TypeTable.regionOfFrom, hd]
    cases d with
    | scalar | unit | unknown | ref | struct | enum => exact .ok _
    | array element =>
      have hlt := (h.below ty _ _ hd .element).2
      exact ih (h.part_known hd .element) (by omega)

theorem Founded.regionOf {ty : Option TypeId} (hty : ∀ x ∈ ty, t.Knows x) : NeverFails (t.regionOf ty) := by
  cases ty with
  | none => exact .ok _
  | some ty =>
    have hknown := hty ty rfl
    exact h.regionOfFrom hknown (Int.le_trans hknown.2 (Int.ofNat_le.mpr (Nat.le_succ _)))

theorem Founded.nestedRegionsFrom {n : Nat} (hty : t.Knows ty) (hn : ty ≤ (n : Int)) :
    NeverFails (t.nestedRegionsFrom n ty) := by
  induction n generalizing ty with
  | zero =>
    have hpos := hty.1
    omega
  | succ n ih =>
    obtain ⟨d, hd⟩ := knows_iff.mp hty
    rw [TypeTable.nestedRegionsFrom, hd]
    cases d with
    | scalar | unit | unknown | struct | enum => exact .ok _
    | array element =>
      have hlt := (h.below ty _ _ hd .element).2
      exact ih (h.part_known hd .element) (by omega)
    | ref target mutable region =>
      have hlt := (h.below ty _ _ hd .target).2
      have hknown := h.part_known hd .target
      refine FailsOnly.bind (.ok _) fun e he => ?_
      obtain rfl := Except.ok.inj he
      refine FailsOnly.bind (h.regionOf hknown.some) fun outer _ => ?_
      exact (ih hknown (by omega)).bind fun _ _ => .ok _

theorem Founded.nestedRegions {ty : Option TypeId} (hty : ∀ x ∈ ty, t.Knows x) : NeverFails (t.nestedRegions ty) := by
  cases ty with
  | none => exact .ok _
  | some ty =>
    have hknown := hty ty rfl
    exact h.nestedRegionsFrom hknown (Int.le_trans hknown.2 (Int.ofNat_le.mpr (Nat.le_succ _)))

theorem Founded.regionsIn {ty : Option TypeId} (hty : ∀ x ∈ ty, t.Knows x) : NeverFails (t.regionsIn ty) := by
  cases ty with
  | none => exact .ok _
  | some ty => exact (h.regionOf hty).bind fun _ _ => (h.nestedRegions hty).bind fun _ _ => .ok _

theorem Founded.describeFrom {n : Nat} (hty : t.Knows ty) (hn : ty ≤ (n : Int)) :
    NeverFails (t.describeFrom n ty) := by
  induction n generalizing ty with
  | zero =>
    have hpos := hty.1
    omega
  | succ n ih =>
    obtain ⟨d, hd⟩ := knows_iff.mp hty
    rw [TypeTable.describeFrom, hd]
    cases d with
    | scalar | unit | unknown | struct | enum => exact .ok _
    | array element =>
      have hlt := (h.below ty _ _ hd .element).2
      exact (ih (h.part_known hd .element) (by omega)).bind fun _ _ => .ok _
    | ref target mutable region =>
      have hlt := (h.below ty _ _ hd .target).2
      exact (ih (h.part_known hd .target) (by omega)).bind fun _ _ => .ok _

theorem Founded.describe (hty : t.Knows ty) : NeverFails (t.describe (some ty)) :=
  h.describeFrom hty (Int.le_trans hty.2 (Int.ofNat_le.mpr (Nat.le_succ _)))

theorem Founded.fieldType (hty : t.Knows ty) (name : String) : NeverFails (t.fieldType ty name) := by
  obtain ⟨d, hd⟩ := knows_iff.mp hty
  have hlayout := h.layout ty d hd
  rw [TypeTable.fieldType, hd]
  cases d with
  | scalar | unit | unknown | ref | array | enum => exact .ok _
  | struct name region copy =>
    obtain ⟨fields, hfields⟩ := hlayout
    have hget : t.structFields name = .ok fields := by rw [structFields, hfields]; rfl
    exact (FailsOnly.of_eq_ok hget).bind fun _ _ => .ok _

theorem Founded.payloadType (hty : t.Knows ty) (variant name : String) :
    NeverFails (t.payloadType ty variant name) := by
  obtain ⟨d, hd⟩ := knows_iff.mp hty
  have hlayout := h.layout ty d hd
  rw [TypeTable.payloadType, hd]
  cases d with
  | scalar | unit | unknown | ref | array | struct => exact .ok _
  | enum name region copy =>
    obtain ⟨arms, harms⟩ := hlayout
    have hget : t.enumArms name = .ok arms := by rw [enumArms, harms]; rfl
    exact (FailsOnly.of_eq_ok hget).bind fun _ _ => .ok _

theorem Founded.step? (hty : t.Knows ty) (pending : Option String) (proj : Projection) :
    NeverFails (t.step? ty pending proj) := by
  obtain ⟨d, hd⟩ := knows_iff.mp hty
  cases proj with
  | field name =>
    cases pending with
    | none => exact h.fieldType hty name
    | some variant => exact h.payloadType hty variant name
  | element _ | anyElement | deref => exact FailsOnly.map (.of_eq_ok hd) _
  | downcast variant => exact .ok _

/-- What lies one step further in is known. -/
theorem Founded.known_of_step {next : TypeId} {pending : Option String} {proj : Projection}
    (hstep : t.step? ty pending proj = .ok (some next)) (hty : t.Knows ty) : t.Knows next := by
  have hpart : ∀ {name}, t.HasPart name next → t.Knows next := by
    rintro name (⟨fields, hget, hmem⟩ | ⟨arms, hget, hmem⟩)
    · exact h.structs name fields hget next hmem
    · exact h.enums name arms hget next hmem
  cases proj with
  | field name =>
    cases pending with
    | none =>
      obtain ⟨_, _, _, _, hmem⟩ := hasPart_of_fieldType hstep
      exact hpart hmem
    | some variant =>
      obtain ⟨_, _, _, _, hmem⟩ := hasPart_of_payloadType hstep
      exact hpart hmem
  | element _ | anyElement => exact h.part_known (get_of_elementType hstep) .element
  | deref =>
    obtain ⟨_, _, hget⟩ := get_of_pointee hstep
    exact h.part_known hget .target
  | downcast variant =>
    obtain rfl : ty = next := by simpa [TypeTable.step?] using hstep
    exact hty

/-- A path from a known type leads to a known one, or breaks off where it is ill-typed. -/
theorem Founded.walk {place : Place} {loc : Span} {pending : Option String} {path : List Projection}
    (hty : t.Knows ty) :
    FailsOnly Fault.IsBreach (t.walk place loc ty pending path) ∧
      ∀ next, t.walk place loc ty pending path = .ok next → t.Knows next := by
  induction path generalizing ty pending with
  | nil =>
    cases pending with
    | none => exact ⟨.ok _, fun next hn => Except.ok.inj hn ▸ hty⟩
    | some variant => exact ⟨.breach, fun next hn => by cases hn⟩
  | cons proj path ih =>
    refine ⟨?_, fun next hn => ?_⟩
    · rw [TypeTable.walk]
      refine FailsOnly.bind (.ofTypes (h.step? hty pending proj)) fun mid hmid => ?_
      cases mid with
      | none => exact FailsOnly.bind (.ofTypes (h.describe hty)) fun _ _ => .breach
      | some mid => exact (ih (h.known_of_step (Fault.ofTypes_eq_ok.mp hmid) hty)).1
    · obtain ⟨mid, hmid, hrest⟩ := walk_cons hn
      exact (ih (h.known_of_step hmid hty)).2 next hrest

end

end TypeTable

namespace Signature

/-- The types of the signature are in the table. -/
structure Known (s : Signature) (t : TypeTable) : Prop where
  params : ∀ ty ∈ s.params, t.Knows ty
  ret : ∀ ty ∈ s.ret, t.Knows ty

theorem Known.mono {s : Signature} {t u : TypeTable} (h : s.Known t) (hle : t.defs.length ≤ u.defs.length) :
    s.Known u :=
  ⟨fun ty hty => (h.params ty hty).mono hle, fun ty hty => (h.ret ty hty).mono hle⟩

variable {s : Signature} {t : TypeTable} (hs : s.Known t) (h : t.Founded)

include hs h

theorem carrying_neverFails : NeverFails (s.carrying t) :=
  FailsOnly.bind (.mapM fun ty hty => h.carriesRefs (hs.params ty hty).some) fun _ _ => .ok _

theorem paramRegion_neverFails (i : Nat) : NeverFails (s.paramRegion t i) :=
  h.regionOf fun x hx => hs.params x (List.mem_of_getElem? hx)

theorem elisionSource_neverFails : NeverFails (s.elisionSource t) := by
  refine FailsOnly.bind (carrying_neverFails hs h) fun found _ => ?_
  cases found with
  | nil => exact .ok _
  | cons i rest =>
    cases rest with
    | nil => exact .ok _
    | cons j rest =>
      refine FailsOnly.bind (paramRegion_neverFails hs h i) fun region _ => ?_
      exact FailsOnly.bind (.mapM fun k _ => paramRegion_neverFails hs h k) fun _ _ => .ok _

theorem returnRegion_neverFails : NeverFails (s.returnRegion t) := by
  refine FailsOnly.bind (h.regionOf hs.ret) fun region _ => FailsOnly.ite (fun _ => .ok _) fun _ => ?_
  refine FailsOnly.bind (h.carriesRefs hs.ret) fun carries _ => FailsOnly.ite (fun _ => ?_) fun _ => .ok _
  refine FailsOnly.bind (carrying_neverFails hs h) fun found _ => FailsOnly.ite (fun _ => .ok _) fun _ => ?_
  refine FailsOnly.bind (elisionSource_neverFails hs h) fun source _ => ?_
  cases source with
  | none => exact .ok _
  | some i => exact paramRegion_neverFails hs h i

/-- A signature of known types can only be rejected for what it declares. -/
theorem validate_failsOnly : FailsOnly Fault.IsBreach (s.validate t) := by
  refine FailsOnly.bind (.forM fun ty hty => ?_) fun _ _ => ?_
  · have hknown : ∀ x ∈ ty, t.Knows x := by
      intro x hx
      rcases List.mem_append.mp hty with hty | hty
      · obtain ⟨y, hy, rfl⟩ := List.mem_map.mp hty
        exact (hs.params y hy).some x hx
      · exact hs.ret x (List.mem_singleton.mp hty ▸ hx)
    refine FailsOnly.bind (.ofTypes (h.regionsIn hknown)) fun regions _ => ?_
    cases regions.find? (!s.declares ·) with
    | none => exact .ok _
    | some region => exact .breach
  · cases s.outlives.find? fun p => !(s.declares p.1 && s.declares p.2) with
    | some pair => exact .breach
    | none =>
      have hcarries : FailsOnly Fault.IsBreach (Fault.ofTypes (t.carriesRefs s.ret)) :=
        .ofTypes (h.carriesRefs hs.ret)
      refine FailsOnly.bind hcarries fun carries _ => FailsOnly.ite (fun _ => ?_) fun _ => .ok _
      refine FailsOnly.bind (.ofTypes (h.regionOf hs.ret)) fun region _ => FailsOnly.ite (fun _ => ?_) fun _ => .ok _
      refine FailsOnly.bind (.ofTypes (returnRegion_neverFails hs h)) fun named _ =>
        FailsOnly.ite (fun _ => ?_) fun _ => .ok _
      refine FailsOnly.bind (.ofTypes (elisionSource_neverFails hs h)) fun source _ =>
        FailsOnly.ite (fun _ => ?_) fun _ => .ok _
      exact .breach

end Signature

end Ownership
