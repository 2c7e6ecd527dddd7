import Ownership.Place.Typing
import Ownership.Proofs.Outcome

/-!
Types that carry references. A type holds a reference when following arrays,
fields and payloads from it comes to a reference or to an aggregate with a
region. The look-up cuts recursion short at aggregates it has entered, and
still answers exactly this; in particular whatever a place of a reference-free
type leads to is free of references too.
-/
namespace Ownership

open Outcome

namespace TypeTable

variable {t : TypeTable}

/-- A field of the struct, or in a payload of the enum, of this name. -/
def HasPart (t : TypeTable) (name : String) (part : TypeId) : Prop :=
  (∃ fields, t.structs.get? name = some fields ∧ part ∈ fields.values) ∨
    ∃ arms, t.enums.get? name = some arms ∧ part ∈ arms.values.flatten

/-- No name is declared both as a struct and as an enum. -/
def Separate (t : TypeTable) : Prop :=
  ∀ name fields arms, t.structs.get? name = some fields → t.enums.get? name = some arms → False

/-- A type with a region carries references, whatever look-up bound is left. -/
theorem carriesRefsFrom_of_regionOf {n m : Nat} (hle : n ≤ m) {seen : List String} {ty : TypeId} {region : String}
    (h : t.regionOfFrom n ty = .ok (some region)) : t.carriesRefsFrom m seen ty = .ok true := by
  induction n generalizing m ty with
  | zero => cases h
  | succ n ih =>
    cases m with
    | zero => exact absurd hle (Nat.not_succ_le_zero n)
    | succ m =>
      simp only [regionOfFrom, bind_eq_ok] at h
      obtain ⟨d, hd, h⟩ := h
      rw [carriesRefsFrom, hd]
      cases d with
      | array element => exact ih (Nat.le_of_succ_le_succ hle) h
      | ref target mutable named => rfl
      | struct name named copy | enum name named copy =>
        obtain rfl : named = some region := Except.ok.inj h
        rfl
      | scalar | unit | unknown => cases h

theorem carriesRefs_of_regionOf {ty : TypeId} {region : String}
    (h : t.regionOf (some ty) = .ok (some region)) : t.carriesRefs (some ty) = .ok true := by
  refine carriesRefsFrom_of_regionOf ?_ h
  unfold chainBound nestingBound
  exact Nat.le_mul_of_pos_right _ (Nat.succ_pos _)

/-- A reference is met below the type, this many steps down. -/
inductive Holds (t : TypeTable) : TypeId → Nat → Prop where
  | ref {ty target : TypeId} {mutable : Bool} {region : Option String}
      (h : t.get ty = .ok (.ref target mutable region)) : Holds t ty 0
  | struct {ty : TypeId} {name region : String} {copy : Bool}
      (h : t.get ty = .ok (.struct name (some region) copy)) : Holds t ty 0
  | enum {ty : TypeId} {name region : String} {copy : Bool}
      (h : t.get ty = .ok (.enum name (some region) copy)) : Holds t ty 0
  | element {ty element : TypeId} {k : Nat} (h : t.get ty = .ok (.array element))
      (he : Holds t element k) : Holds t ty (k + 1)
  | part {ty part : TypeId} {name : String} {copy : Bool} {k : Nat}
      (h : t.get ty = .ok (.struct name none copy) ∨ t.get ty = .ok (.enum name none copy))
      (hpart : t.HasPart name part) (hk : Holds t part k) : Holds t ty (k + 1)

theorem anyM_eq_ok {α ε : Type} {f : α → Except ε Bool} {xs : List α} {b : Bool}
    (h : xs.anyM f = .ok b) : (b = true → ∃ x ∈ xs, f x = .ok true) ∧
      (b = false → ∀ x ∈ xs, f x = .ok false) := by
  induction xs with
  | nil =>
    simp only [List.anyM_nil, pure_eq, Except.ok.injEq] at h
    subst h
    simp
  | cons x xs ih =>
    simp only [List.anyM_cons, bind_eq_ok] at h
    obtain ⟨c, hc, h⟩ := h
    cases c with
    | true =>
      simp only [if_true, pure_eq, Except.ok.injEq] at h
      subst h
      exact ⟨fun _ => ⟨x, List.mem_cons_self, hc⟩, by simp⟩
    | false =>
      obtain ⟨htrue, hfalse⟩ := ih h
      refine ⟨fun hb => ?_, fun hb y hy => ?_⟩
      · obtain ⟨y, hy, he⟩ := htrue hb
        exact ⟨y, List.mem_cons_of_mem x hy, he⟩
      · rcases List.mem_cons.mp hy with rfl | hy
        · exact hc
        · exact hfalse hb y hy

theorem structFields_eq_ok {name : String} {m : OrderedMap String TypeId}
    (h : t.structFields name = .ok m) : t.structs.get? name = some m :=
  eq_some_of_elim_eq_ok h

theorem enumArms_eq_ok {name : String} {m : OrderedMap String (List TypeId)}
    (h : t.enumArms name = .ok m) : t.enums.get? name = some m :=
  eq_some_of_elim_eq_ok h

/-- What the look-up says of an aggregate without a region: nothing if it was entered before, and
otherwise what it says of its parts. -/
theorem carriesRefsFrom_aggregate {n : Nat} {seen : List String} {ty : TypeId} {name : String} {copy b : Bool}
    (hd : t.get ty = .ok (.struct name none copy) ∨ t.get ty = .ok (.enum name none copy))
    (h : t.carriesRefsFrom (n + 1) seen ty = .ok b) :
    (b = false ∧ name ∈ seen) ∨ ∃ parts : List TypeId, (∀ part ∈ parts, t.HasPart name part) ∧
      (t.Separate → ∀ part, t.HasPart name part → part ∈ parts) ∧
      parts.anyM (t.carriesRefsFrom n (name :: seen)) = .ok b := by
  rcases hd with hd | hd
  all_goals
    rw [carriesRefsFrom, hd] at h
    simp only [bind_eq_ok, Except.ok.injEq, exists_eq_left', Option.isSome_none, Bool.false_eq_true,
      if_false, pure_eq] at h
  · split at h
    · rename_i hseen
      exact .inl ⟨(Except.ok.inj h).symm, by simpa using hseen⟩
    · simp only [bind_eq_ok] at h
      obtain ⟨fields, hfields, h⟩ := h
      have hget := structFields_eq_ok hfields
      refine .inr ⟨fields.values, fun part hpart => .inl ⟨fields, hget, hpart⟩, fun hsep part hpart => ?_, h⟩
      rcases hpart with ⟨fields', hget', hpart⟩ | ⟨arms, harms, _⟩
      · obtain rfl := Option.some.inj (hget.symm.trans hget')
        exact hpart
      · exact (hsep name fields arms hget harms).elim
  · split at h
    · rename_i hseen
      exact .inl ⟨(Except.ok.inj h).symm, by simpa using hseen⟩
    · simp only [bind_eq_ok] at h
      obtain ⟨arms, harms, h⟩ := h
      have hget := enumArms_eq_ok harms
      refine .inr ⟨arms.values.flatten, fun part hpart => .inr ⟨arms, hget, hpart⟩,
        fun hsep part hpart => ?_, h⟩
      rcases hpart with ⟨fields, hfields, _⟩ | ⟨arms', hget', hpart⟩
      · exact (hsep name fields arms hfields hget).elim
      · obtain rfl := Option.some.inj (hget.symm.trans hget')
        exact hpart

theorem carriesRefsFrom_element {n : Nat} {seen : List String} {ty element : TypeId} {b : Bool}
    (hd : t.get ty = .ok (.array element)) (h : t.carriesRefsFrom (n + 1) seen ty = .ok b) :
    t.carriesRefsFrom n seen element = .ok b := by
  rw [carriesRefsFrom, hd] at h
  simpa only [bind_eq_ok, Except.ok.injEq, exists_eq_left'] using h

/-- A positive answer is right. -/
theorem holds_of_carriesRefsFrom {n : Nat} {seen : List String} {ty : TypeId}
    (h : t.carriesRefsFrom n seen ty = .ok true) : ∃ k, t.Holds ty k := by
  induction n generalizing seen ty with
  | zero => simp [carriesRefsFrom] at h
  | succ n ih =>
    cases hd : t.get ty with
    | error e => simp [carriesRefsFrom, hd, bind, Except.bind] at h
    | ok d =>
      have haggregate : ∀ {name copy}, d = .struct name none copy ∨ d = .enum name none copy →
          ∃ k, t.Holds ty k := by
        intro name copy hcase
        have hget : t.get ty = .ok (.struct name none copy) ∨ t.get ty = .ok (.enum name none copy) := by
          rcases hcase with rfl | rfl
          · exact .inl hd
          · exact .inr hd
        rcases carriesRefsFrom_aggregate hget h with ⟨hb, _⟩ | ⟨parts, hparts, _, hany⟩
        · cases hb
        · obtain ⟨part, hmem, hpart⟩ := (anyM_eq_ok hany).1 rfl
          obtain ⟨k, hk⟩ := ih hpart
          exact ⟨k + 1, .part hget (hparts part hmem) hk⟩
      cases d with
      | ref target mutable region => exact ⟨0, .ref hd⟩
      | array element =>
        obtain ⟨k, hk⟩ := ih (carriesRefsFrom_element hd h)
        exact ⟨k + 1, .element hd hk⟩
      | struct name region copy =>
        cases region with
        | some region => exact ⟨0, .struct hd⟩
        | none => exact haggregate (.inl rfl)
      | enum name region copy =>
        cases region with
        | some region => exact ⟨0, .enum hd⟩
        | none => exact haggregate (.inr rfl)
      | scalar | unit | unknown => simp [carriesRefsFrom, hd, bind, Except.bind, pure, Except.pure] at h

/-- A negative answer for a type that holds a reference is owed to an aggregate that was entered
before, and a reference lies closer below a part of that one. Parts of one aggregate may be blamed
again, each time with a closer reference. -/
theorem entered_of_carriesRefsFrom (hsep : t.Separate) {k : Nat} : ∀ {n : Nat} {seen : List String} {ty : TypeId},
    t.carriesRefsFrom n seen ty = .ok false → t.Holds ty k →
      ∃ name ∈ seen, ∃ part j, t.HasPart name part ∧ t.Holds part j ∧ j < k := by
  induction k using Nat.strongRecOn with
  | _ k ih =>
    intro n seen ty h hk
    cases n with
    | zero => simp [carriesRefsFrom] at h
    | succ n =>
      cases hk with
      | ref hd | struct hd | enum hd =>
        simp [carriesRefsFrom, hd, bind, Except.bind, pure, Except.pure] at h
      | @element _ _ k hd he =>
        obtain ⟨name, hname, part, j, hpart, hj, hlt⟩ :=
          ih k (Nat.lt_succ_self k) (carriesRefsFrom_element hd h) he
        exact ⟨name, hname, part, j, hpart, hj, Nat.lt_succ_of_lt hlt⟩
      | @part _ part name _ k hd hpart hk =>
        rcases carriesRefsFrom_aggregate hd h with ⟨_, hseen⟩ | ⟨parts, _, hall, hany⟩
        · exact ⟨name, hseen, part, k, hpart, hk, Nat.lt_succ_self k⟩
        · have hfalse := (anyM_eq_ok hany).2 rfl
          have hinner : ∀ j, j ≤ k → ∀ q, t.HasPart name q → t.Holds q j →
              ∃ name ∈ seen, ∃ part i, t.HasPart name part ∧ t.Holds part i ∧ i < j := by
            intro j
            induction j using Nat.strongRecOn with
            | _ j ihj =>
              intro hjk q hq hqj
              obtain ⟨name', hname', part', i, hpart', hi, hlt⟩ :=
                ih j (Nat.lt_succ_of_le hjk) (hfalse q (hall hsep q hq)) hqj
              rcases List.mem_cons.mp hname' with rfl | hseen
              · obtain ⟨name'', hname'', part'', i', hpart'', hi', hlt'⟩ :=
                  ihj i hlt (Nat.le_trans (Nat.le_of_lt hlt) hjk) part' hpart' hi
                exact ⟨name'', hname'', part'', i', hpart'', hi', Nat.lt_trans hlt' hlt⟩
              · exact ⟨name', hseen, part', i, hpart', hi, hlt⟩
          obtain ⟨name', hname', part', i, hpart', hi, hlt⟩ := hinner k (Nat.le_refl k) part hpart hk
          exact ⟨name', hname', part', i, hpart', hi, Nat.lt_succ_of_lt hlt⟩

theorem not_holds_of_carriesRefs (hsep : t.Separate) {ty : TypeId} {k : Nat}
    (h : t.carriesRefs (some ty) = .ok false) : ¬t.Holds ty k := by
  intro hk
  obtain ⟨name, hname, _⟩ := entered_of_carriesRefsFrom hsep h hk
  cases hname

theorem get_of_pointee {ty next : TypeId} (h : t.pointee ty = .ok (some next)) :
    ∃ mutable region, t.get ty = .ok (.ref next mutable region) := by
  simp only [pointee, map_eq_ok] at h
  obtain ⟨d, hd, h⟩ := h
  cases d with
  | ref target mutable region =>
    obtain rfl := Option.some.inj h
    exact ⟨mutable, region, hd⟩
  | scalar | unit | unknown | array | struct | enum => cases h

theorem get_of_elementType {ty next : TypeId} (h : t.elementType ty = .ok (some next)) :
    t.get ty = .ok (.array next) := by
  simp only [elementType, map_eq_ok] at h
  obtain ⟨d, hd, h⟩ := h
  cases d with
  | array element =>
    obtain rfl := Option.some.inj h
    exact hd
  | scalar | unit | unknown | ref | struct | enum => cases h

theorem hasPart_of_fieldType {ty next : TypeId} {field : String}
    (h : t.fieldType ty field = .ok (some next)) :
    ∃ name region copy, t.get ty = .ok (.struct name region copy) ∧ t.HasPart name next := by
  simp only [fieldType, bind_eq_ok] at h
  obtain ⟨d, hd, h⟩ := h
  cases d with
  | struct name region copy =>
    simp only [bind_eq_ok, pure_eq, Except.ok.injEq] at h
    obtain ⟨fields, hfields, hget⟩ := h
    refine ⟨name, region, copy, hd, .inl ⟨fields, structFields_eq_ok hfields, ?_⟩⟩
    exact List.mem_map.mpr ⟨(field, next), OrderedMap.mem_entries_of_get? hget, rfl⟩
  | scalar | unit | unknown | ref | array | enum => cases h

/-- A payload field that has a type is a slot of a variant of an enum. -/
theorem slot_of_payloadType {ty next : TypeId} {variant field : String}
    (h : t.payloadType ty variant field = .ok (some next)) :
    ∃ name region copy arms payload, t.get ty = .ok (.enum name region copy) ∧ t.enumArms name = .ok arms ∧
      arms.get? variant = some payload ∧ payloadSlot? payload field = some next := by
  simp only [payloadType, bind_eq_ok] at h
  obtain ⟨d, hd, h⟩ := h
  cases d with
  | enum name region copy =>
    simp only [bind_eq_ok, pure_eq, Except.ok.injEq] at h
    obtain ⟨arms, harms, hget⟩ := h
    obtain ⟨payload, hpayload, hslot⟩ := Option.bind_eq_some_iff.mp hget
    exact ⟨name, region, copy, arms, payload, hd, harms, hpayload, hslot⟩
  | scalar | unit | unknown | ref | array | struct => cases h

theorem hasPart_of_payloadType {ty next : TypeId} {variant field : String}
    (h : t.payloadType ty variant field = .ok (some next)) :
    ∃ name region copy, t.get ty = .ok (.enum name region copy) ∧ t.HasPart name next := by
  obtain ⟨name, region, copy, arms, payload, hd, harms, hpayload, hslot⟩ := slot_of_payloadType h
  refine ⟨name, region, copy, hd, .inr ⟨arms, enumArms_eq_ok harms, ?_⟩⟩
  refine List.mem_flatten.mpr ⟨payload, ?_, ?_⟩
  · exact List.mem_map.mpr ⟨(variant, payload), OrderedMap.mem_entries_of_get? hpayload, rfl⟩
  · unfold payloadSlot? at hslot
    split at hslot
    · exact List.mem_of_getElem? hslot
    · cases hslot

/-- A reference below a part is one below the whole. -/
theorem Holds.of_part {ty part : TypeId} {name : String} {region : Option String} {copy : Bool} {k : Nat}
    (h : t.get ty = .ok (.struct name region copy) ∨ t.get ty = .ok (.enum name region copy))
    (hpart : t.HasPart name part) (hk : t.Holds part k) : ∃ j, t.Holds ty j := by
  cases region with
  | none => exact ⟨k + 1, .part h hpart hk⟩
  | some region =>
    rcases h with h | h
    · exact ⟨0, .struct h⟩
    · exact ⟨0, .enum h⟩

theorem Holds.of_step {ty next : TypeId} {pending : Option String} {proj : Projection} {k : Nat}
    (h : t.step? ty pending proj = .ok (some next)) (hk : t.Holds next k) : ∃ j, t.Holds ty j := by
  cases proj with
  | field name =>
    cases pending with
    | none =>
      obtain ⟨_, _, _, hget, hpart⟩ := hasPart_of_fieldType h
      exact hk.of_part (.inl hget) hpart
    | some variant =>
      obtain ⟨_, _, _, hget, hpart⟩ := hasPart_of_payloadType h
      exact hk.of_part (.inr hget) hpart
  | element _ | anyElement => exact ⟨k + 1, .element (get_of_elementType h) hk⟩
  | deref =>
    obtain ⟨_, _, hget⟩ := get_of_pointee h
    exact ⟨0, .ref hget⟩
  | downcast variant =>
    obtain rfl : ty = next := by simpa [step?] using h
    exact ⟨k, hk⟩

/-- The first step of a typed path is typed. -/
theorem walk_cons {place : Place} {loc : Span} {ty next : TypeId} {pending : Option String}
    {proj : Projection} {path : List Projection}
    (h : t.walk place loc ty pending (proj :: path) = .ok next) :
    ∃ mid, t.step? ty pending proj = .ok (some mid) ∧
      t.walk place loc mid (pendingAfter pending proj) path = .ok next := by
  simp only [walk, bind_eq_ok] at h
  obtain ⟨mid, hmid, h⟩ := h
  cases mid with
  | none => simp at h
  | some mid => exact ⟨mid, Fault.ofTypes_eq_ok.mp hmid, h⟩

/-- A place that leads to references or goes through one starts at a binding that holds some. -/
theorem Holds.of_walk {place : Place} {loc : Span} {path : List Projection} {ty next : TypeId}
    {pending : Option String} (h : t.walk place loc ty pending path = .ok next)
    (hk : (∃ k, t.Holds next k) ∨ .deref ∈ path) : ∃ k, t.Holds ty k := by
  induction path generalizing ty pending with
  | nil =>
    cases pending with
    | none =>
      obtain rfl := Except.ok.inj h
      exact hk.resolve_right (by simp)
    | some variant => cases h
  | cons proj path ih =>
    obtain ⟨mid, hstep, hrest⟩ := walk_cons h
    by_cases hd : proj = .deref
    · subst hd
      obtain ⟨_, _, hget⟩ := get_of_pointee hstep
      exact ⟨0, .ref hget⟩
    · obtain ⟨k, hk⟩ := ih hrest (hk.imp_right fun hmem => (List.mem_cons.mp hmem).resolve_left (Ne.symm hd))
      exact hk.of_step hstep

end TypeTable

end Ownership
