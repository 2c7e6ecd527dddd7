import Ownership.Proofs.Memory.Execution
import Ownership.Proofs.TypeTable.Alike

/-!
Types in memory. A body is well typed when each stored value has the type of the
place it is stored in, up to regions and mutability. Running it keeps memory well
typed: pointers are only found where the type of the binding has a reference, and
they lead to storage of the type that the reference names.
-/
namespace Ownership

open Outcome

/-- The types of the payload of a variant. -/
def TypeTable.payload? (t : TypeTable) (ty : TypeId) (variant : String) : Option (List TypeId) :=
  match t.get ty with
  | .ok (.enum name _ _) => (t.enums.get? name).bind (·.get? variant)
  | _ => none

namespace Context

def placeFits (cx : Context) (place : Place) (ty : TypeId) : Bool :=
  match cx.function.typeOf cx.types place {} with
  | .ok found => cx.types.alike found ty
  | .error _ => false

mutual

/-- Whether the value of an expression may be stored where a type is expected. What is computed
holds no references, so there is nothing to check of it; a call is never accepted. -/
def fits (cx : Context) : Expr → TypeId → Bool
  | .int _ _, _ | .bool _ _, _ | .unit _, _ | .unary _ _ _, _ | .binary _ _ _ _, _ => true
  | .borrow subject _ _, ty =>
    match cx.types.get ty, Place.ofExpr? subject with
    | .ok (.ref target _ _), some place => cx.placeFits place target
    | _, _ => false
  | .construct found inits _, ty => cx.types.alike found ty && cx.initsFit found inits
  | .inject found variant args _, ty =>
    cx.types.alike found ty && (cx.types.payload? found variant).any (cx.argsFit args)
  | .call _ _ _, _ | .foreign, _ => false
  | e@(.var _ _ _), ty | e@(.field _ _ _), ty | e@(.index _ _ _), ty | e@(.deref _ _), ty
  | e@(.payload _ _ _ _), ty => (Place.ofExpr? e).any (cx.placeFits · ty)

def initsFit (cx : Context) (ty : TypeId) : List FieldInit → Bool
  | [] => true
  | .mk name e :: rest =>
    (match cx.types.fieldType ty name with
      | .ok (some field) => cx.fits e field
      | _ => false) && cx.initsFit ty rest

def argsFit (cx : Context) : List Expr → List TypeId → Bool
  | [], _ => true
  | e :: rest, ty :: types => cx.fits e ty && cx.argsFit rest types
  | _ :: _, [] => false

end

/-- Whether what a statement stores has the type of where it is stored. -/
def typed (cx : Context) : Stmt → Bool
  | .declare _ id (some e) _ => (cx.function.bindings.get? id).any fun b => cx.fits e b.ty
  | .assign target e _ =>
    (Place.ofExpr? target).any fun place =>
      match cx.function.typeOf cx.types place {} with
      | .ok ty => cx.fits e ty
      | .error _ => false
  | _ => true

/-- Whether every reachable statement is well typed. -/
def wellTyped (cx : Context) (g : Graph) : Bool :=
  g.allPoints.all fun p => (g.statementAt p).all cx.typed

end Context

section

variable (cx : Context) (outside : Nat → TypeId)

/-- The type of what storage belongs to. -/
def Root.HasType : Root → TypeId → Prop
  | .binding id, ty => ∃ b, cx.function.bindings.get? id = some b ∧ b.ty = ty
  | .outside n, ty => outside n = ty

/-- The type that is found at an address, with the variant selected there. -/
def Address.HasType (a : Address) (found : TypeId × Option String) : Prop :=
  ∃ ty, a.root.HasType cx outside ty ∧ cx.types.descend (ty, none) a.path = some found

/-- The pointer leads to storage of the type. -/
def Pointer.Meets (p : Pointer) (ty : TypeId) : Prop :=
  ∃ found, p.target.HasType cx outside (found, none) ∧ cx.types.Alike found ty

/-- Pointers stand only where the type has references, and lead to what these refer to. -/
def Contents.Fits (v : Contents) (ty : TypeId) : Prop :=
  ∀ steps p, v steps = some p → ∃ found target mutable region,
    cx.types.descend (ty, none) steps = some (found, none) ∧
    cx.types.get found = .ok (.ref target mutable region) ∧ p.Meets cx outside target

/-- The same of all that memory holds. -/
def Memory.WellTyped (m : Memory) : Prop :=
  ∀ a p, m.cells a = some p → ∃ found target mutable region, a.HasType cx outside (found, none) ∧
    cx.types.get found = .ok (.ref target mutable region) ∧ p.Meets cx outside target

end

variable {cx : Context} {outside : Nat → TypeId}

theorem Root.HasType.unique {r : Root} {ty ty' : TypeId} (h : r.HasType cx outside ty)
    (h' : r.HasType cx outside ty') : ty = ty' := by
  cases r with
  | binding id =>
    obtain ⟨b, hb, rfl⟩ := h
    obtain ⟨b', hb', rfl⟩ := h'
    obtain rfl := Option.some.inj (hb.symm.trans hb')
    rfl
  | outside n => exact Eq.trans (Eq.symm h) h'

theorem Address.HasType.unique {a : Address} {s s' : TypeId × Option String} (h : a.HasType cx outside s)
    (h' : a.HasType cx outside s') : s = s' := by
  obtain ⟨ty, hty, hs⟩ := h
  obtain ⟨ty', hty', hs'⟩ := h'
  obtain rfl := hty.unique hty'
  exact Option.some.inj (hs.symm.trans hs')

theorem Address.HasType.extend_iff {a : Address} {s s' : TypeId × Option String} {steps : List Step}
    (h : a.HasType cx outside s) :
    (a.extend steps).HasType cx outside s' ↔ cx.types.descend s steps = some s' := by
  obtain ⟨ty, hty, hs⟩ := h
  constructor
  · rintro ⟨ty', hty', hs'⟩
    obtain rfl := hty.unique hty'
    simpa [Address.extend, TypeTable.descend_append, hs] using hs'
  · intro hs'
    exact ⟨ty, hty, by simpa [Address.extend, TypeTable.descend_append, hs] using hs'⟩

theorem BindingId.hasType_address {id : BindingId} {b : Binding} (h : cx.function.bindings.get? id = some b) :
    id.address.HasType cx outside (b.ty, none) :=
  ⟨b.ty, ⟨b, h, rfl⟩, rfl⟩

theorem Pointer.Meets.alike {p : Pointer} {a b : TypeId} (h : p.Meets cx outside a)
    (hab : cx.types.Alike a b) : p.Meets cx outside b := by
  obtain ⟨found, hfound, hlike⟩ := h
  exact ⟨found, hfound, hlike.trans hab⟩

namespace Contents.Fits

theorem empty (ty : TypeId) : Contents.empty.Fits cx outside ty := by
  intro steps p hp
  cases hp

theorem alike {v : Contents} {a b : TypeId} (h : v.Fits cx outside a) (hab : cx.types.Alike a b) :
    v.Fits cx outside b := by
  intro steps p hp
  obtain ⟨found, target, _, _, hfound, hget, hmeets⟩ := h steps p hp
  obtain ⟨found', hfound', hlike⟩ := hab.descend hfound
  obtain ⟨target', mutable, region, hget', htarget⟩ := hlike.of_ref hget
  exact ⟨found', target', mutable, region, hfound', hget', hmeets.alike htarget⟩

/-- A value with a pointer in it has a type that holds references. -/
theorem holds {v : Contents} {ty : TypeId} (h : v.Fits cx outside ty) {steps : List Step} {p : Pointer}
    (hp : v steps = some p) : ∃ k, cx.types.Holds ty k := by
  obtain ⟨found, _, _, _, hfound, hget, _⟩ := h steps p hp
  exact TypeTable.holds_of_descend hfound ⟨0, .ref hget⟩

end Contents.Fits

namespace Memory.WellTyped

variable {m : Memory} (hm : m.WellTyped cx outside)

include hm

theorem read {a : Address} {ty : TypeId} (ha : a.HasType cx outside (ty, none)) :
    (m.read a).Fits cx outside ty := by
  intro steps p hp
  obtain ⟨found, target, mutable, region, hfound, hget, hmeets⟩ := hm _ p hp
  exact ⟨found, target, mutable, region, ha.extend_iff.mp hfound, hget, hmeets⟩

theorem write {a : Address} {ty : TypeId} (ha : a.HasType cx outside (ty, none)) {v : Contents}
    (hv : v.Fits cx outside ty) : (m.write a v).WellTyped cx outside := by
  intro b p hp
  rcases Memory.write_cells hp with ⟨steps, rfl, hnew⟩ | ⟨_, hp⟩
  · obtain ⟨found, target, mutable, region, hfound, hget, hmeets⟩ := hv steps p hnew
    exact ⟨found, target, mutable, region, ha.extend_iff.mpr hfound, hget, hmeets⟩
  · exact hm b p hp

theorem clear (id : BindingId) : (m.clear id).WellTyped cx outside :=
  fun b p hp => hm b p (Memory.clear_cells hp).2

/-- Following a path from storage of a type leads to storage of the type that the path leads to. -/
theorem resolves {a b : Address} {path : List Projection} (h : Resolves m a path b) :
    ∀ {found ty ty' : TypeId} {pending : Option String} {place : Place} {loc : Span},
      a.HasType cx outside (found, pending) → cx.types.Alike found ty →
      cx.types.walk place loc ty pending path = .ok ty' →
        ∃ found', b.HasType cx outside (found', none) ∧ cx.types.Alike found' ty' := by
  induction h with
  | nil a =>
    intro found ty ty' pending place loc ha hlike hwalk
    cases pending with
    | none =>
      obtain rfl := Except.ok.inj hwalk
      exact ⟨found, ha, hlike⟩
    | some variant => cases hwalk
  | step hs hp _ ih =>
    intro found ty ty' pending place loc ha hlike hwalk
    obtain ⟨mid, hmid, hrest⟩ := TypeTable.walk_cons hwalk
    obtain ⟨next, hnext, hlike'⟩ := hlike.symm.step hmid
    obtain ⟨hstep, hpending⟩ := TypeTable.step?_of_admits hs cx.types found pending
    refine ih (ha.extend_iff.mpr ?_) hlike'.symm (hpending ▸ hrest)
    exact TypeTable.descend_cons.mpr ⟨next, hstep.trans hnext, rfl⟩
  | deref hc _ ih =>
    intro found ty ty' pending place loc ha hlike hwalk
    obtain ⟨mid, hmid, hrest⟩ := TypeTable.walk_cons hwalk
    obtain ⟨found', target, mutable, region, hfound', hget, found'', hfound'', hlike''⟩ := hm _ _ hc
    obtain ⟨rfl, rfl⟩ := Prod.mk.inj (ha.unique hfound')
    obtain ⟨_, _, hget'⟩ := TypeTable.get_of_pointee hmid
    obtain ⟨mid', _, _, hmid', htarget⟩ := hlike.of_ref hget
    obtain ⟨rfl, _⟩ := TypeDef.ref.inj (Except.ok.inj (hget'.symm.trans hmid'))
    exact ih hfound'' (hlike''.trans htarget) hrest

/-- A place of a type denotes storage of that type. -/
theorem place {place : Place} {ty : TypeId} (hty : cx.PlaceType place ty) {a : Address}
    (h : Resolves m place.root.address place.path a) :
    ∃ found, a.HasType cx outside (found, none) ∧ cx.types.Alike found ty := by
  obtain ⟨b, loc, hget, hwalk⟩ := hty.walk
  exact hm.resolves h (BindingId.hasType_address hget) (.refl _) hwalk

end Memory.WellTyped

namespace Context

theorem placeType_of_placeFits {place : Place} {ty : TypeId} (h : cx.placeFits place ty = true) :
    ∃ found, cx.PlaceType place found ∧ cx.types.Alike found ty := by
  unfold placeFits at h
  split at h
  · rename_i found hfound
    exact ⟨found, ⟨_, hfound⟩, TypeTable.alike_of_alikeFrom h⟩
  · cases h

/-- A place expression that fits has a like type. -/
theorem placeType_of_fits {e : Expr} {place : Place} {ty : TypeId} (hp : Place.ofExpr? e = some place)
    (h : cx.fits e ty = true) : ∃ found, cx.PlaceType place found ∧ cx.types.Alike found ty := by
  cases e with
  | var | field | index | deref | payload =>
    rw [fits, hp] at h
    exact placeType_of_placeFits h
  | borrow | int | bool | unit | unary | binary | call | construct | inject | foreign => cases hp

theorem initsFit_get {ty : TypeId} {inits : List FieldInit} (h : cx.initsFit ty inits = true) {i : Nat}
    {f : FieldInit} (hf : inits[i]? = some f) :
    ∃ field, cx.types.fieldType ty f.name = .ok (some field) ∧ cx.fits f.value field = true := by
  induction inits generalizing i with
  | nil => cases hf
  | cons init rest ih =>
    obtain ⟨name, e⟩ := init
    simp only [initsFit, Bool.and_eq_true] at h
    cases i with
    | zero =>
      obtain rfl := Option.some.inj hf
      have hfits := h.1
      split at hfits
      · rename_i field hfield
        exact ⟨field, hfield, hfits⟩
      · cases hfits
    | succ i => exact ih h.2 hf

theorem argsFit_get {args : List Expr} {types : List TypeId} (h : cx.argsFit args types = true) {i : Nat}
    {e : Expr} (he : args[i]? = some e) : ∃ ty, types[i]? = some ty ∧ cx.fits e ty = true := by
  induction args generalizing types i with
  | nil => cases he
  | cons arg rest ih =>
    cases types with
    | nil => cases h
    | cons ty types =>
      simp only [argsFit, Bool.and_eq_true] at h
      cases i with
      | zero =>
        obtain rfl := Option.some.inj he
        exact ⟨ty, rfl, h.1⟩
      | succ i => exact ih h.2 he

end Context

/-- The type that a payload slot is found to have. -/
theorem TypeTable.payloadType_of_payload? {t : TypeTable} {ty slot : TypeId} {variant name : String}
    {payload : List TypeId} {i : Nat} (h : t.payload? ty variant = some payload)
    (hi : Numeral.read? name = some (.ofNat i)) (hslot : payload[i]? = some slot) :
    t.payloadType ty variant name = .ok (some slot) := by
  unfold payload? at h
  split at h
  · rename_i enum _ _ hget
    obtain ⟨arms, harms, hpayload⟩ := Option.bind_eq_some_iff.mp h
    simp [payloadType, hget, enumArms, harms, hpayload, payloadSlot?, hi, hslot, bind, Except.bind, pure,
      Except.pure]
  · cases h

namespace Contents.Fits

theorem fields {ty : TypeId} {inits : List FieldInit} {values : Nat → Contents}
    (h : ∀ i f, inits[i]? = some f → ∃ field, cx.types.fieldType ty f.name = .ok (some field) ∧
      (values i).Fits cx outside field) : (Contents.fields inits values).Fits cx outside ty := by
  intro steps p hp
  obtain ⟨i, init, rest, hinit, rfl, hvalue⟩ := Contents.fields_eq_some hp
  obtain ⟨field, hfield, hfits⟩ := h i init hinit
  obtain ⟨found, target, mutable, region, hfound, hrest⟩ := hfits rest p hvalue
  exact ⟨found, target, mutable, region, TypeTable.descend_cons.mpr ⟨field, hfield, hfound⟩, hrest⟩

theorem payload {ty : TypeId} {variant : String} {types : List TypeId} {args : List Expr}
    {values : Nat → Contents} (hpayload : cx.types.payload? ty variant = some types)
    (h : ∀ i e, args[i]? = some e → ∃ slot, types[i]? = some slot ∧ (values i).Fits cx outside slot) :
    (Contents.payload variant args.length values).Fits cx outside ty := by
  intro steps p hp
  obtain ⟨i, arg, name, rest, harg, hi, rfl, hvalue⟩ := Contents.payload_eq_some hp
  obtain ⟨slot, hslot, hfits⟩ := h i arg harg
  obtain ⟨found, target, mutable, region, hfound, hrest⟩ := hfits rest p hvalue
  have htype := TypeTable.payloadType_of_payload? hpayload hi hslot
  exact ⟨found, target, mutable, region, TypeTable.descend_cons.mpr ⟨ty, rfl,
    TypeTable.descend_cons.mpr ⟨slot, htype, hfound⟩⟩, hrest⟩

end Contents.Fits

/-- The value of a well-typed expression has its type. -/
theorem Evaluates.fits {m : Memory} (hm : m.WellTyped cx outside) {e : Expr} {v : Contents}
    (h : Evaluates m e v) : ∀ {ty : TypeId}, cx.fits e ty = true → v.Fits cx outside ty := by
  induction h with
  | place hp ha =>
    intro ty hfits
    obtain ⟨found, hfound, hlike⟩ := Context.placeType_of_fits hp hfits
    obtain ⟨found', hfound', hlike'⟩ := hm.place hfound ha
    exact (hm.read hfound').alike (hlike'.trans hlike)
  | borrow hp ha =>
    intro ty hfits
    unfold Context.fits at hfits
    split at hfits
    · rename_i target mutable region place hget hp'
      obtain rfl := Option.some.inj (hp.symm.trans hp')
      obtain ⟨found, hfound, hlike⟩ := Context.placeType_of_placeFits hfits
      obtain ⟨found', hfound', hlike'⟩ := hm.place hfound ha
      intro steps p hptr
      cases steps with
      | nil =>
        obtain rfl := Option.some.inj hptr
        exact ⟨ty, target, mutable, region, rfl, hget, found', hfound', hlike'.trans hlike⟩
      | cons _ _ => cases hptr
    · cases hfits
  | int | bool | unit | unary | binary => exact fun _ => .empty _
  | construct h ih =>
    intro ty hfits
    simp only [Context.fits, Bool.and_eq_true] at hfits
    refine Contents.Fits.alike (.fields fun i f hf => ?_) (TypeTable.alike_of_alikeFrom hfits.1)
    obtain ⟨field, hfield, hfit⟩ := Context.initsFit_get hfits.2 hf
    exact ⟨field, hfield, ih i f hf hfit⟩
  | inject h ih =>
    intro ty hfits
    simp only [Context.fits, Bool.and_eq_true, Option.any_eq_true] at hfits
    obtain ⟨hlike, types, htypes, hargs⟩ := hfits
    refine Contents.Fits.alike (.payload htypes fun i e he => ?_) (TypeTable.alike_of_alikeFrom hlike)
    obtain ⟨slot, hslot, hfit⟩ := Context.argsFit_get hargs he
    exact ⟨slot, hslot, ih i e he hfit⟩

/-- A well-typed statement keeps memory well typed. -/
theorem Executes.wellTyped {m m' : Memory} (hm : m.WellTyped cx outside) {s : Stmt} (h : Executes m s m')
    (hs : cx.typed s = true) : m'.WellTyped cx outside := by
  cases h with
  | storageDead id => exact hm.clear id
  | declare _ id => exact hm.clear id
  | @init _ id _ _ _ hv =>
    simp only [Context.typed, Option.any_eq_true] at hs
    obtain ⟨b, hb, hfits⟩ := hs
    exact hm.write (BindingId.hasType_address hb) (hv.fits hm hfits)
  | assign hv hp ha =>
    simp only [Context.typed, hp, Option.any_some] at hs
    split at hs
    · rename_i ty hty
      obtain ⟨found, hfound, hlike⟩ := hm.place ⟨_, hty⟩ ha
      exact hm.write hfound ((hv.fits hm hs).alike hlike.symm)
    · cases hs
  | eval => exact hm

end Ownership
