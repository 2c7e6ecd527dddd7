import Mathlib.Data.List.Perm.Subperm
import Mathlib.Logic.Relation
import Ownership.Proofs.TypeTable.Requests

/-!
Reaching references. A type carries references if and only if steps through
arrays, fields and payloads lead from it to a reference or to an aggregate with
a region. Layouts may mention each other in circles: the look-up cuts a path at
the second aggregate of one name, and what lies behind it is met on a shorter
path. It comes to an end since between two aggregates it only goes through
arrays, of which none is met twice, and since no name is entered twice.
-/
namespace Ownership

open Outcome Relation

theorem OrderedMap.mem_values_of_get? {κ ν : Type} [DecidableEq κ] {m : OrderedMap κ ν} {k : κ} {v : ν}
    (h : m.get? k = some v) : v ∈ m.values :=
  List.mem_map.mpr ⟨(k, v), mem_entries_of_get? h, rfl⟩

/-- The ids that a type mentions itself, not through its layout. -/
def TypeDef.mentions : TypeDef → List TypeId
  | ref target _ _ => [target]
  | array element => [element]
  | _ => []

/-- The type is a reference or an aggregate with a region. -/
def TypeDef.bears : TypeDef → Bool
  | ref .. => true
  | struct _ region _ | enum _ region _ => region.isSome
  | _ => false

namespace TypeTable

/-- A type is the array of another one. -/
def HasElement (t : TypeTable) (ty element : TypeId) : Prop := t.get ty = .ok (.array element)

/-- The steps from a type to the types that its values are made of. -/
inductive StepsTo (t : TypeTable) : TypeId → TypeId → Prop where
  | element {ty element : TypeId} (h : t.HasElement ty element) : StepsTo t ty element
  | field {ty part : TypeId} {name : String} {region : Option String} {copy : Bool} {fields : OrderedMap String TypeId}
      (h : t.get ty = .ok (.struct name region copy)) (hfields : t.structs.get? name = some fields)
      (hpart : part ∈ fields.values) : StepsTo t ty part
  | payload {ty part : TypeId} {name : String} {region : Option String} {copy : Bool}
      {arms : OrderedMap String (List TypeId)} (h : t.get ty = .ok (.enum name region copy))
      (harms : t.enums.get? name = some arms) (hpart : part ∈ arms.values.flatten) : StepsTo t ty part

/-- A reference, or an aggregate with a region, is reached. -/
def ReachesRef (t : TypeTable) (ty : TypeId) : Prop :=
  ∃ x d, ReflTransGen t.StepsTo ty x ∧ t.get x = .ok d ∧ d.bears = true

/-- All ids that are mentioned are in the table. -/
structure Closed (t : TypeTable) : Prop where
  types : ∀ d ∈ t.defs, ∀ part ∈ d.mentions, t.Knows part
  structs : ∀ fields ∈ t.structs.values, ∀ part ∈ fields.values, t.Knows part
  enums : ∀ arms ∈ t.enums.values, ∀ part ∈ arms.values.flatten, t.Knows part

instance (t : TypeTable) (ty : TypeId) : Decidable (t.Knows ty) := inferInstanceAs (Decidable (_ ∧ _))

variable {t : TypeTable} {ty part : TypeId} {d : TypeDef}

theorem reachesRef_of_holds {k : Nat} (hlaid : ∀ ty d, t.get ty = .ok d → t.LaidOut d) (hsep : t.Separate)
    (h : t.Holds ty k) : t.ReachesRef ty := by
  induction h with
  | ref h => exact ⟨_, _, .refl, h, rfl⟩
  | struct h | enum h => exact ⟨_, _, .refl, h, rfl⟩
  | element h _ ih =>
    obtain ⟨x, d, hpath, hd, hbears⟩ := ih
    exact ⟨x, d, hpath.head (.element h), hd, hbears⟩
  | @part ty part name copy k h hpart _ ih =>
    obtain ⟨x, d, hpath, hd, hbears⟩ := ih
    refine ⟨x, d, hpath.head ?_, hd, hbears⟩
    rcases h with h | h
    · obtain ⟨fields, hfields⟩ := hlaid ty _ h
      rcases hpart with ⟨fields', hget, hmem⟩ | ⟨arms, harms, _⟩
      · exact .field h hget hmem
      · exact (hsep name fields arms hfields harms).elim
    · obtain ⟨arms, harms⟩ := hlaid ty _ h
      rcases hpart with ⟨fields, hfields, _⟩ | ⟨arms', hget, hmem⟩
      · exact (hsep name fields arms hfields harms).elim
      · exact .payload h hget hmem

theorem holds_of_bears (h : t.get ty = .ok d) (hbears : d.bears = true) : t.Holds ty 0 := by
  cases d with
  | ref => exact .ref h
  | struct name region copy =>
    obtain ⟨region, rfl⟩ := Option.isSome_iff_exists.mp hbears
    exact .struct h
  | enum name region copy =>
    obtain ⟨region, rfl⟩ := Option.isSome_iff_exists.mp hbears
    exact .enum h
  | scalar | unit | unknown | array => cases hbears

theorem Holds.of_stepsTo {k : Nat} (h : t.StepsTo ty part) (hk : t.Holds part k) : ∃ j, t.Holds ty j := by
  cases h with
  | element h => exact ⟨k + 1, .element h hk⟩
  | field h hfields hpart => exact hk.of_part (.inl h) (.inl ⟨_, hfields, hpart⟩)
  | payload h harms hpart => exact hk.of_part (.inr h) (.inr ⟨_, harms, hpart⟩)

theorem holds_of_reachesRef (h : t.ReachesRef ty) : ∃ k, t.Holds ty k := by
  obtain ⟨x, d, hpath, hd, hbears⟩ := h
  induction hpath using ReflTransGen.head_induction_on with
  | refl => exact ⟨0, holds_of_bears hd hbears⟩
  | head hstep _ ih =>
    obtain ⟨k, hk⟩ := ih
    exact hk.of_stepsTo hstep

/-- Where the look-up stands: at a type of the table, below aggregates of different names, and since the
last of them at the end of a chain of different arrays. -/
structure Descent (t : TypeTable) (seen : List String) (arrays : List TypeId) (ty : TypeId) : Prop where
  known : t.Knows ty
  entered : seen.Nodup
  named : seen ⊆ t.defs.map TypeDef.name
  passed : arrays.Nodup
  stored : ∀ a ∈ arrays, t.Knows a
  leads : ∀ a ∈ arrays, TransGen t.HasElement a ty

/-- How far down the look-up can still go. -/
def room (t : TypeTable) (seen : List String) (arrays : List TypeId) : Nat :=
  (t.defs.length - seen.length) * (t.defs.length + 1) + (t.defs.length - arrays.length)

theorem mem_defs_of_get (h : t.get ty = .ok d) : d ∈ t.defs := by
  obtain ⟨i, _, hi⟩ := get_eq_ok.mp h
  exact List.mem_of_getElem? hi

/-- There are no more different ids than types. -/
theorem length_le_of_known {ids : List Int} (hnodup : ids.Nodup) (h : ∀ a ∈ ids, t.Knows a) :
    ids.length ≤ t.defs.length := by
  have hsub : ids ⊆ (List.range t.defs.length).map fun i : Nat => (i : Int) + 1 := by
    intro a ha
    obtain ⟨hpos, hle⟩ := h a ha
    exact List.mem_map.mpr ⟨(a - 1).toNat, List.mem_range.mpr (by omega), by omega⟩
  simpa using (hnodup.subperm hsub).length_le

namespace Descent

variable {seen : List String} {arrays : List TypeId}

/-- An array is not met twice, so there is less room behind it. -/
theorem element (harrays : ∀ a, ¬TransGen t.HasElement a a) (hclosed : t.Closed) (h : t.Descent seen arrays ty)
    (hget : t.HasElement ty part) :
    t.Descent seen (ty :: arrays) part ∧ t.room seen (ty :: arrays) < t.room seen arrays := by
  have hnew : (ty :: arrays).Nodup := List.nodup_cons.mpr ⟨fun hmem => harrays ty (h.leads ty hmem), h.passed⟩
  have hstored : ∀ a ∈ ty :: arrays, t.Knows a := List.forall_mem_cons.mpr ⟨h.known, h.stored⟩
  have hlength := length_le_of_known hnew hstored
  refine ⟨⟨?_, h.entered, h.named, hnew, hstored, ?_⟩, ?_⟩
  · exact hclosed.types _ (mem_defs_of_get hget) part (by simp [TypeDef.mentions])
  · exact List.forall_mem_cons.mpr ⟨.single hget, fun a ha => (h.leads a ha).tail hget⟩
  · simp only [room, List.length_cons] at hlength ⊢
    omega

/-- A name is not entered twice, so there is less room below it. -/
theorem enter (h : t.Descent seen arrays ty) (hget : t.get ty = .ok d) (hname : d.name ∉ seen) (hpart : t.Knows part) :
    t.Descent (d.name :: seen) [] part ∧ t.room (d.name :: seen) [] < t.room seen arrays := by
  have hnew : (d.name :: seen).Nodup := List.nodup_cons.mpr ⟨hname, h.entered⟩
  have hnamed : d.name :: seen ⊆ t.defs.map TypeDef.name :=
    List.cons_subset.mpr ⟨List.mem_map_of_mem (mem_defs_of_get hget), h.named⟩
  refine ⟨⟨hpart, hnew, hnamed, List.nodup_nil, by simp, by simp⟩, ?_⟩
  have hlength := (hnew.subperm hnamed).length_le
  simp only [room, List.length_cons, List.length_map, List.length_nil] at hlength ⊢
  obtain ⟨k, hk⟩ : ∃ k, t.defs.length - seen.length = k + 1 := ⟨t.defs.length - seen.length - 1, by omega⟩
  have hrest : t.defs.length - (seen.length + 1) = k := by omega
  rw [hk, hrest, Nat.succ_mul]
  omega

/-- An aggregate is searched without a failure if its layout is there and its parts are. -/
theorem search_neverFails {α : Type} {layout : Except TypeFault α} {m : α} (hlayout : layout = .ok m)
    (region : Option String) (name : String) (parts : α → List TypeId) {search : TypeId → Except TypeFault Bool}
    (hparts : name ∉ seen → ∀ part ∈ parts m, NeverFails (search part)) :
    NeverFails (if region.isSome then pure true else if seen.contains name then pure false else
      layout >>= fun m => (parts m).anyM search) := by
  refine FailsOnly.ite (fun _ => .ok _) fun _ => FailsOnly.ite (fun _ => .ok _) fun hseen => ?_
  refine (FailsOnly.of_eq_ok hlayout).bind fun m' hm => .anyM fun part hmem => ?_
  obtain rfl := Except.ok.inj (hlayout.symm.trans hm)
  exact hparts (by simpa using hseen) part hmem

/-- The look-up comes to an answer while there is room. -/
theorem carriesRefsFrom (hlaid : ∀ ty d, t.get ty = .ok d → t.LaidOut d) (hclosed : t.Closed)
    (harrays : ∀ a, ¬TransGen t.HasElement a a) {n : Nat} (h : t.Descent seen arrays ty)
    (hn : t.room seen arrays < n) : NeverFails (t.carriesRefsFrom n seen ty) := by
  induction n generalizing seen arrays ty with
  | zero => exact absurd hn (Nat.not_lt_zero _)
  | succ n ih =>
    obtain ⟨d, hd⟩ := knows_iff.mp h.known
    have hlayout := hlaid ty d hd
    have hpart : ∀ part, d.name ∉ seen → t.Knows part → NeverFails (t.carriesRefsFrom n (d.name :: seen) part) := by
      intro part hname hknown
      obtain ⟨hnext, hless⟩ := h.enter hd hname hknown
      exact ih hnext (by omega)
    rw [TypeTable.carriesRefsFrom, hd]
    cases d with
    | scalar | unit | unknown | ref => exact .ok _
    | array element =>
      obtain ⟨hnext, hless⟩ := h.element harrays hclosed hd
      exact ih hnext (by omega)
    | struct name region copy =>
      obtain ⟨fields, hfields⟩ := hlayout
      have hget : t.structFields name = .ok fields := by rw [structFields, hfields]; rfl
      refine search_neverFails hget region name OrderedMap.values fun hname part hmem => hpart part hname ?_
      exact hclosed.structs fields (OrderedMap.mem_values_of_get? hfields) part hmem
    | enum name region copy =>
      obtain ⟨arms, harms⟩ := hlayout
      have hget : t.enumArms name = .ok arms := by rw [enumArms, harms]; rfl
      refine search_neverFails hget region name (fun arms => arms.values.flatten)
        fun hname part hmem => hpart part hname ?_
      exact hclosed.enums arms (OrderedMap.mem_values_of_get? harms) part hmem

end Descent

theorem carriesRefs_neverFails (hlaid : ∀ ty d, t.get ty = .ok d → t.LaidOut d) (hclosed : t.Closed)
    (harrays : ∀ a, ¬TransGen t.HasElement a a) (hty : t.Knows ty) : NeverFails (t.carriesRefs (some ty)) := by
  have hstart : t.Descent [] [] ty := ⟨hty, List.nodup_nil, List.nil_subset _, List.nodup_nil, by simp, by simp⟩
  refine hstart.carriesRefsFrom hlaid hclosed harrays ?_
  simp only [room, nestingBound, List.length_nil, Nat.sub_zero]
  generalize t.defs.length = n
  rw [Nat.succ_mul n (n + 2), Nat.mul_succ n (n + 1)]
  omega

/-- The types that requests have put into a table have layouts. -/
theorem laidOut_tableAfter (history : List Request) : ∀ ty d, (tableAfter history).get ty = .ok d →
    (tableAfter history).LaidOut d := by
  intro ty d hget
  have hrec := records_tableAfter history
  have hbacked := hrec.backed d (mem_defs_of_get hget)
  cases d with
  | scalar | unit | unknown | ref | array => trivial
  | struct | enum =>
    obtain ⟨hhas, _⟩ := hrec.separate.declared?_eq_some.mp ((hrec.declared _).trans hbacked)
    exact Option.isSome_iff_exists.mp hhas

/-- Whether a type carries references can be told for every table that requests have made, if all mentioned ids
are in it and no array is an element of itself, however the layouts refer to each other: it is whether
a reference or an aggregate with a region is reached. -/
theorem carriesRefs_iff_reaches {history : List Request} (ht : tableAfter history = t) (hclosed : t.Closed)
    (harrays : ∀ a, ¬TransGen t.HasElement a a) (hty : t.Knows ty) :
    ∃ b, t.carriesRefs (some ty) = .ok b ∧ (b = true ↔ t.ReachesRef ty) := by
  subst ht
  have hlaid := laidOut_tableAfter history
  have hsep := (records_tableAfter history).separate
  obtain ⟨b, hb⟩ := exists_ok (carriesRefs_neverFails hlaid hclosed harrays hty)
  refine ⟨b, hb, fun htrue => ?_, fun hreach => ?_⟩
  · subst htrue
    obtain ⟨k, hk⟩ := holds_of_carriesRefsFrom hb
    exact reachesRef_of_holds hlaid hsep hk
  · cases b with
    | true => rfl
    | false =>
      obtain ⟨k, hk⟩ := holds_of_reachesRef hreach
      exact absurd hk (not_holds_of_carriesRefs hsep hb)

/-- A struct and an enum that mention each other before they are both there. The reference lies in an array
behind the circle. -/
def tangle : List Request :=
  [.ref 1 false none, .array 4, .declare "Link" (.enum (.ofList [("End", []), ("More", [1, 3])])) false,
    .declare "Node" (.struct (.ofList [("next", 2)])) false]

/-- The reference is found behind the circle. -/
theorem carriesRefs_iff_reaches_tangle : (tableAfter tangle).Closed ∧
    (∀ a, ¬TransGen (tableAfter tangle).HasElement a a) ∧
    (tableAfter tangle).carriesRefs (some 1) = .ok true ∧ (tableAfter tangle).ReachesRef 1 := by
  have hclosed : (tableAfter tangle).Closed := ⟨by decide, by decide, by decide⟩
  have hlater : ∀ a b : Int, (tableAfter tangle).HasElement a b → a < b := by
    intro a b h
    obtain ⟨i, rfl, hi⟩ := get_eq_ok.mp h
    have hdefs : (tableAfter tangle).defs =
        [.struct "Node" none false, .enum "Link" none false, .array 4, .ref 1 false none] := by decide
    rw [hdefs] at hi
    rcases i with _ | _ | _ | _ | i <;> simp at hi
    subst hi
    decide
  have harrays : ∀ a, ¬TransGen (tableAfter tangle).HasElement a a := by
    have hlt : ∀ a b : Int, TransGen (tableAfter tangle).HasElement a b → a < b := by
      intro a b h
      induction h with
      | single h => exact hlater a _ h
      | tail _ h ih => exact Int.lt_trans ih (hlater _ _ h)
    exact fun a h => Int.lt_irrefl a (hlt a a h)
  have htrue : (tableAfter tangle).carriesRefs (some 1) = .ok true := eq_ok_of_toOption (by decide)
  have hknown : (tableAfter tangle).Knows 1 := by decide
  obtain ⟨b, hb, hreach⟩ := carriesRefs_iff_reaches rfl hclosed harrays hknown
  obtain rfl := Except.ok.inj (htrue.symm.trans hb)
  exact ⟨hclosed, harrays, htrue, hreach.mp rfl⟩

end TypeTable

end Ownership
