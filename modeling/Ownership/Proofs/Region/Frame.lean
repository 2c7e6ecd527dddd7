import Ownership.Proofs.Effect.Collected
import Ownership.Proofs.Region.Liveness
import Ownership.Proofs.Source.Reading
import Ownership.Region.Constraints

/-!
Who has a region variable. After the signature's regions and the local
variables have been declared, exactly the tracked bindings hold a variable of
their own, every other holder has a region of the signature, and no binding
whose type carries references is left out. So neither is the root of a place
that leads to references or goes through one. Parameters and the return slot
hold the regions that the signature gives them.
-/
namespace Ownership

open Outcome

namespace RegionFrame

variable {r s t : RegionFrame}

/-- Only regions of the signature are held, and all of them are known. -/
def Signed (r : RegionFrame) : Prop :=
  ∀ b v, r.holders.get? b = some v → ∃ name ∈ r.universals, v = .universal name

/-- Declaring went on: regions and holders are only added. -/
structure Grows (r s : RegionFrame) : Prop where
  universals : r.universals ⊆ s.universals
  holders : ∀ b, (r.holders.get? b).isSome → (s.holders.get? b).isSome
  signed : r.Signed → s.Signed

namespace Grows

theorem refl (r : RegionFrame) : r.Grows r := ⟨fun _ h => h, fun _ h => h, fun h => h⟩

theorem trans (h : r.Grows s) (k : s.Grows t) : r.Grows t :=
  ⟨fun _ hx => k.universals (h.universals hx), fun b hb => k.holders b (h.holders b hb),
    fun hs => k.signed (h.signed hs)⟩

end Grows

theorem grows_addUniversal (r : RegionFrame) (name : String) : r.Grows (r.addUniversal name) := by
  unfold addUniversal
  split
  · exact .refl r
  · refine ⟨fun _ h => List.mem_append_left _ h, fun _ h => h, fun hs b v hb => ?_⟩
    obtain ⟨other, hother, he⟩ := hs b v hb
    exact ⟨other, List.mem_append_left _ hother, he⟩

theorem grows_addUniversals (names : List String) (r : RegionFrame) : r.Grows (names.foldl addUniversal r) := by
  induction names generalizing r with
  | nil => exact .refl r
  | cons name names ih => exact (r.grows_addUniversal name).trans (ih _)

@[simp] theorem holders_addUniversal (r : RegionFrame) (name : String) :
    (r.addUniversal name).holders = r.holders := by
  unfold addUniversal
  split <;> rfl

@[simp] theorem implied_addUniversal (r : RegionFrame) (name : String) :
    (r.addUniversal name).implied = r.implied := by
  unfold addUniversal
  split <;> rfl

theorem implied_addUniversals (names : List String) (r : RegionFrame) :
    (names.foldl addUniversal r).implied = r.implied := by
  induction names generalizing r with
  | nil => rfl
  | cons name names ih => exact (ih _).trans (r.implied_addUniversal name)

theorem mem_addUniversal (r : RegionFrame) (name : String) : name ∈ (r.addUniversal name).universals := by
  unfold addUniversal
  split
  · rename_i h
    simpa using h
  · exact List.mem_append_right _ List.mem_cons_self

theorem mem_addUniversals {name : String} {names : List String} (h : name ∈ names) (r : RegionFrame) :
    name ∈ (names.foldl addUniversal r).universals := by
  induction names generalizing r with
  | nil => cases h
  | cons first rest ih =>
    rcases List.mem_cons.mp h with rfl | h
    · exact (grows_addUniversals rest _).universals (r.mem_addUniversal name)
    · exact ih h _

theorem isSome_hold (r : RegionFrame) (id : BindingId) (v : RegionVar) {b : BindingId}
    (h : (r.holders.get? b).isSome) : ((r.hold id v).holders.get? b).isSome := by
  by_cases hb : b = id
  · simp [hold, hb]
  · simpa [hold, OrderedMap.get?_insert_other _ _ hb] using h

theorem grows_hold (r : RegionFrame) (id : BindingId) {name : String} (hname : name ∈ r.universals) :
    r.Grows (r.hold id (.universal name)) := by
  refine ⟨fun _ h => h, fun b hb => r.isSome_hold id _ hb, fun hs b v hb => ?_⟩
  by_cases hid : b = id
  · simp only [hold, hid, OrderedMap.get?_insert_self, Option.some.injEq] at hb
    exact ⟨name, hname, hb.symm⟩
  · rw [hold, OrderedMap.get?_insert_other _ _ hid] at hb
    exact hs b v hb

theorem grows_imply (r : RegionFrame) (outer : String) (nested : List String) :
    r.Grows (r.imply outer nested) :=
  ⟨fun _ h => h, fun _ h => h, fun h => h⟩

end RegionFrame

namespace Context

variable {cx : Context} {r s : RegionFrame}

/-- The look-up answers for the parameter, and if it carries references then it has a region. -/
def Declared (cx : Context) (r : RegionFrame) (p : Param) : Prop :=
  ∃ c, cx.types.carriesRefs (some p.ty) = .ok c ∧ (c = true → (r.holders.get? p.id).isSome ∧
    ∃ region ∈ r.universals, cx.paramRegion p = .ok region)

theorem Declared.mono {p : Param} (h : cx.Declared r p) (hg : r.Grows s) : cx.Declared s p := by
  obtain ⟨c, hc, hd⟩ := h
  refine ⟨c, hc, fun htrue => ?_⟩
  obtain ⟨hheld, region, hmem, hregion⟩ := hd htrue
  exact ⟨hg.holders p.id hheld, region, hg.universals hmem, hregion⟩

/-- A parameter that carries references gets its region and what its type implies; another one
changes nothing. -/
theorem declareParam_cases {p : Param} (h : cx.declareParam r p = .ok s) :
    cx.types.carriesRefs (some p.ty) = .ok false ∧ s = r ∨
      cx.types.carriesRefs (some p.ty) = .ok true ∧ ∃ region nested, cx.paramRegion p = .ok region ∧
        cx.types.nestedRegions (some p.ty) = .ok nested ∧
        s = ((r.addUniversal region).hold p.id (.universal region)).imply region nested := by
  simp only [declareParam, bind_eq_ok] at h
  obtain ⟨c, hc, h⟩ := h
  cases c with
  | false => exact .inl ⟨Fault.ofTypes_eq_ok.mp hc, (Except.ok.inj h).symm⟩
  | true =>
    simp only [if_true, bind_eq_ok, pure_eq, Except.ok.injEq] at h
    obtain ⟨region, hregion, nested, hnested, rfl⟩ := h
    exact .inr ⟨Fault.ofTypes_eq_ok.mp hc, region, nested, hregion, Fault.ofTypes_eq_ok.mp hnested, rfl⟩

theorem declareParam_spec {p : Param} (h : cx.declareParam r p = .ok s) : r.Grows s ∧ cx.Declared s p := by
  rcases declareParam_cases h with ⟨hc, rfl⟩ | ⟨hc, region, nested, hregion, _, rfl⟩
  · exact ⟨.refl s, false, hc, by simp⟩
  · have hmem := r.mem_addUniversal region
    refine ⟨(r.grows_addUniversal region).trans ((RegionFrame.grows_hold _ p.id hmem).trans
      (RegionFrame.grows_imply _ region nested)), true, hc, fun _ => ?_⟩
    exact ⟨by simp [RegionFrame.imply, RegionFrame.hold], region, hmem, hregion⟩

theorem declareParams_spec {ps : List Param} (h : ps.foldlM cx.declareParam r = .ok s) :
    r.Grows s ∧ ∀ p ∈ ps, cx.Declared s p := by
  induction ps generalizing r with
  | nil =>
    obtain rfl := Except.ok.inj h
    exact ⟨.refl r, by simp⟩
  | cons p ps ih =>
    simp only [List.foldlM_cons, bind_eq_ok] at h
    obtain ⟨r₁, hp, hrest⟩ := h
    obtain ⟨hgrows, hdeclared⟩ := declareParam_spec hp
    obtain ⟨hgrows', hall⟩ := ih hrest
    refine ⟨hgrows.trans hgrows', fun q hq => ?_⟩
    rcases List.mem_cons.mp hq with rfl | hq
    · exact hdeclared.mono hgrows'
    · exact hall q hq

/-- The region that a result takes from a parameter without a name is that parameter's. -/
theorem anonymousReturn_mem {signature : Signature} {region : String}
    (hps : ∀ p ∈ cx.function.params, cx.Declared r p) (h : cx.anonymousReturn signature = .ok region) :
    region ∈ r.universals := by
  simp only [anonymousReturn, bind_eq_ok] at h
  obtain ⟨i, _, h⟩ := h
  split at h
  · simp at h
  split at h
  · simp at h
  rename_i p hp
  simp only [bind_eq_ok] at h
  obtain ⟨carries, hcarries, named, hnamed, h⟩ := h
  split at h
  · rename_i hcond
    simp only [pure_eq, Except.ok.injEq] at h
    simp only [Bool.and_eq_true] at hcond
    obtain ⟨rfl, hnone⟩ := hcond
    obtain ⟨c, hc, hd⟩ := hps p (List.mem_of_getElem? hp)
    obtain rfl := Except.ok.inj (hc.symm.trans (Fault.ofTypes_eq_ok.mp hcarries))
    obtain ⟨_, found, hmem, hfound⟩ := hd rfl
    simp only [paramRegion, hnamed, Option.isNone_iff_eq_none.mp hnone] at hfound
    obtain rfl := Except.ok.inj hfound
    exact h ▸ hmem
  · simp at h

/-- The region of the result: a named one, or that of the parameter without a named one that it is
taken from. -/
def ReturnsIn (cx : Context) (signature : Signature) (region : String) : Prop :=
  signature.returnRegion cx.types = .ok (some region) ∨
    signature.returnRegion cx.types = .ok none ∧ cx.anonymousReturn signature = .ok region

theorem ReturnsIn.unique {signature : Signature} {a b : String} (ha : cx.ReturnsIn signature a)
    (hb : cx.ReturnsIn signature b) : a = b := by
  rcases ha with ha | ⟨ha, ha'⟩ <;> rcases hb with hb | ⟨hb, hb'⟩
  · simpa using ha.symm.trans hb
  · simpa using ha.symm.trans hb
  · simpa using ha.symm.trans hb
  · exact Except.ok.inj (ha'.symm.trans hb')

/-- A return slot that carries references gets its region, which a name adds; another one changes
nothing. -/
theorem declareReturn_cases {signature : Signature} (h : cx.declareReturn signature r = .ok s) :
    (s = r ∧ ∀ b, cx.function.bindings.get? returnSlot = some b → cx.types.carriesRefs (some b.ty) = .ok false) ∨
      ∃ region r', cx.ReturnsIn signature region ∧ s = r'.hold returnSlot (.universal region) ∧
        (r' = r.addUniversal region ∨ r' = r ∧ cx.anonymousReturn signature = .ok region) ∧
        ∀ b, cx.function.bindings.get? returnSlot = some b → cx.types.carriesRefs (some b.ty) = .ok true := by
  unfold declareReturn at h
  split at h
  · rename_i hnone
    exact .inl ⟨(Except.ok.inj h).symm, fun b hb => by simp [hnone] at hb⟩
  · rename_i slot hslot
    simp only [bind_eq_ok] at h
    obtain ⟨c, hc, h⟩ := h
    have hcarries : ∀ b, cx.function.bindings.get? returnSlot = some b →
        cx.types.carriesRefs (some b.ty) = .ok c := by
      intro b hb
      obtain rfl := Option.some.inj (hslot.symm.trans hb)
      exact Fault.ofTypes_eq_ok.mp hc
    cases c with
    | false => exact .inl ⟨(Except.ok.inj h).symm, hcarries⟩
    | true =>
      simp only [if_true, bind_eq_ok] at h
      obtain ⟨named, hnamed, h⟩ := h
      have hnamed := Fault.ofTypes_eq_ok.mp hnamed
      cases named with
      | some region =>
        exact .inr ⟨region, _, .inl hnamed, (Except.ok.inj h).symm, .inl rfl, hcarries⟩
      | none =>
        simp only [bind_eq_ok, pure_eq, Except.ok.injEq] at h
        obtain ⟨region, hregion, rfl⟩ := h
        exact .inr ⟨region, r, .inr ⟨hnamed, hregion⟩, rfl, .inr ⟨rfl, hregion⟩, hcarries⟩

theorem declareReturn_spec {signature : Signature} (hps : ∀ p ∈ cx.function.params, cx.Declared r p)
    (h : cx.declareReturn signature r = .ok s) : r.Grows s ∧
      ∀ b, cx.function.bindings.get? returnSlot = some b → ∃ c,
        cx.types.carriesRefs (some b.ty) = .ok c ∧ (c = true → (s.holders.get? returnSlot).isSome) := by
  rcases declareReturn_cases h with ⟨rfl, hcarries⟩ | ⟨region, r', _, rfl, hknown, hcarries⟩
  · exact ⟨.refl s, fun b hb => ⟨false, hcarries b hb, by simp⟩⟩
  · refine ⟨?_, fun b hb => ⟨true, hcarries b hb, by simp [RegionFrame.hold]⟩⟩
    rcases hknown with rfl | ⟨rfl, hregion⟩
    · exact (r.grows_addUniversal region).trans
        (RegionFrame.grows_hold _ returnSlot (r.mem_addUniversal region))
    · exact r'.grows_hold returnSlot (anonymousReturn_mem hps hregion)

theorem declareUniversals_spec {signature : Signature} (h : cx.declareUniversals signature = .ok s) :
    s.Signed ∧ staticRegion ∈ s.universals ∧ (∀ p ∈ cx.function.params, cx.Declared s p) ∧
      ∀ b, cx.function.bindings.get? returnSlot = some b → ∃ c,
        cx.types.carriesRefs (some b.ty) = .ok c ∧ (c = true → (s.holders.get? returnSlot).isSome) := by
  simp only [declareUniversals, bind_eq_ok] at h
  obtain ⟨r, hparams, hreturn⟩ := h
  obtain ⟨hgrows, hdeclared⟩ := declareParams_spec hparams
  obtain ⟨hgrows', hslot⟩ := declareReturn_spec hdeclared hreturn
  have hstart := ((RegionFrame.grows_addUniversals cx.function.regionParams _).trans hgrows).trans hgrows'
  refine ⟨hstart.signed ?_, hstart.universals (RegionFrame.mem_addUniversal {} staticRegion),
    fun p hp => (hdeclared p hp).mono hgrows', hslot⟩
  exact (RegionFrame.grows_addUniversal {} staticRegion).signed fun b v hb => by cases hb

theorem regionParams_subset {signature : Signature} (h : cx.declareUniversals signature = .ok s) :
    cx.function.regionParams ⊆ s.universals := by
  simp only [declareUniversals, bind_eq_ok] at h
  obtain ⟨r, hparams, hreturn⟩ := h
  obtain ⟨hgrows, hdeclared⟩ := declareParams_spec hparams
  obtain ⟨hgrows', _⟩ := declareReturn_spec hdeclared hreturn
  exact fun name hname => (hgrows.trans hgrows').universals (RegionFrame.mem_addUniversals hname _)

/-- Tracking looks at every local binding and takes those that carry references. -/
theorem trackedLocals_spec {tracked : List BindingId} (h : cx.trackedLocals = .ok tracked) :
    (∀ b ∈ tracked, ∃ bd, (b, bd) ∈ cx.function.bindings.entries ∧ bd.kind = .localVar) ∧
      ∀ b bd, cx.function.bindings.get? b = some bd → bd.kind = .localVar →
        ∃ c, cx.types.carriesRefs (some bd.ty) = .ok c ∧ (c = true → b ∈ tracked) := by
  simp only [trackedLocals, bind_eq_ok, pure_eq, Except.ok.injEq] at h
  obtain ⟨entries, hentries, rfl⟩ := h
  obtain ⟨hsub, hall⟩ := filterM_eq_ok hentries
  refine ⟨fun b hb => ?_, fun b bd hbd hkind => ?_⟩
  · obtain ⟨⟨b', bd⟩, hmem, rfl⟩ := List.mem_map.mp hb
    obtain ⟨hentry, hkept⟩ := hsub _ hmem
    refine ⟨bd, hentry, ?_⟩
    by_cases hkind : bd.kind = .localVar
    · exact hkind
    · simp [hkind] at hkept
  · obtain ⟨c, hc, hin⟩ := hall _ (OrderedMap.mem_entries_of_get? hbd)
    simp only [hkind, if_true] at hc
    exact ⟨c, Fault.ofTypes_eq_ok.mp hc, fun htrue => List.mem_map.mpr ⟨_, hin htrue, rfl⟩⟩

theorem foldl_hold_get? (vars : List (BindingId × RegionVar)) (r : RegionFrame) (b : BindingId) :
    (∃ v, (b, v) ∈ vars ∧ (vars.foldl (fun r (id, v) => r.hold id v) r).holders.get? b = some v) ∨
      (∀ v, (b, v) ∉ vars) ∧
        (vars.foldl (fun r (id, v) => r.hold id v) r).holders.get? b = r.holders.get? b := by
  induction vars generalizing r with
  | nil => exact .inr ⟨by simp, rfl⟩
  | cons x vars ih =>
    obtain ⟨id, w⟩ := x
    rcases ih (r.hold id w) with ⟨v, hv, he⟩ | ⟨hnot, he⟩
    · exact .inl ⟨v, List.mem_cons_of_mem _ hv, he⟩
    · by_cases hb : b = id
      · subst hb
        exact .inl ⟨w, List.mem_cons_self, by simpa [RegionFrame.hold] using he⟩
      · refine .inr ⟨fun v hv => ?_, ?_⟩
        · rcases List.mem_cons.mp hv with hv | hv
          · exact hb (Prod.mk.inj hv).1
          · exact hnot v hv
        · simpa [RegionFrame.hold, OrderedMap.get?_insert_other _ _ hb] using he

theorem mem_localVars {tracked : List BindingId} {b : BindingId} {v : RegionVar} :
    (b, v) ∈ cx.localVars tracked ↔
      b ∈ tracked ∧ ∃ bd, cx.function.bindings.get? b = some bd ∧ v = .binding b bd.name := by
  simp only [localVars, List.mem_map, mem_sortBy, List.mem_filterMap, Option.map_eq_some_iff]
  constructor
  · rintro ⟨_, ⟨id, hid, bd, hbd, rfl⟩, he⟩
    obtain ⟨rfl, rfl⟩ := Prod.mk.inj he
    exact ⟨hid, bd, hbd, rfl⟩
  · rintro ⟨hb, bd, hbd, rfl⟩
    exact ⟨(b, bd.name), ⟨b, hb, bd, hbd, rfl⟩, rfl⟩

theorem declareLocals_get? (tracked : List BindingId) (r : RegionFrame) (b : BindingId) :
    (∃ bd, b ∈ tracked ∧ cx.function.bindings.get? b = some bd ∧
      (cx.declareLocals tracked r).holders.get? b = some (.binding b bd.name)) ∨
    ((∀ bd, b ∈ tracked → cx.function.bindings.get? b ≠ some bd) ∧
      (cx.declareLocals tracked r).holders.get? b = r.holders.get? b) := by
  rcases foldl_hold_get? (cx.localVars tracked) r b with ⟨v, hv, he⟩ | ⟨hnot, he⟩
  · obtain ⟨hb, bd, hbd, rfl⟩ := mem_localVars.mp hv
    exact .inl ⟨bd, hb, hbd, he⟩
  · exact .inr ⟨fun bd hb hbd => hnot _ (mem_localVars.mpr ⟨hb, bd, hbd, rfl⟩), he⟩

theorem declareLocals_universals (tracked : List BindingId) (r : RegionFrame) :
    (cx.declareLocals tracked r).universals = r.universals := by
  unfold declareLocals
  generalize cx.localVars tracked = vars
  induction vars generalizing r with
  | nil => rfl
  | cons x vars ih => exact ih _

theorem declareLocals_implied (tracked : List BindingId) (r : RegionFrame) :
    (cx.declareLocals tracked r).implied = r.implied := by
  unfold declareLocals
  generalize cx.localVars tracked = vars
  induction vars generalizing r with
  | nil => rfl
  | cons x vars ih => exact ih _

section

variable {signature : Signature} {tracked : List BindingId} {b : BindingId}
  (hr : cx.declareUniversals signature = .ok r) (ht : cx.trackedLocals = .ok tracked)

include ht in
theorem tracked_holder (hb : b ∈ tracked) :
    ∃ name, (cx.declareLocals tracked r).holders.get? b = some (.binding b name) := by
  rcases cx.declareLocals_get? tracked r b with ⟨bd, _, _, he⟩ | ⟨hnot, _⟩
  · exact ⟨bd.name, he⟩
  · obtain ⟨bd, hentry, _⟩ := (trackedLocals_spec ht).1 b hb
    exact absurd (OrderedMap.get?_eq_some_of_mem hentry) (hnot bd hb)

include ht in
theorem kind_of_tracked (hb : b ∈ tracked) {bd : Binding}
    (hbd : cx.function.bindings.get? b = some bd) : bd.kind = .localVar := by
  obtain ⟨bd', hentry, hkind⟩ := (trackedLocals_spec ht).1 b hb
  obtain rfl := Option.some.inj (hbd.symm.trans (OrderedMap.get?_eq_some_of_mem hentry))
  exact hkind

include hr in
theorem holder_cases {v : RegionVar} (hv : (cx.declareLocals tracked r).holders.get? b = some v) :
    (∃ name, v = .binding b name ∧ b ∈ tracked) ∨ ∃ name ∈ r.universals, v = .universal name := by
  rcases cx.declareLocals_get? tracked r b with ⟨bd, hb, _, he⟩ | ⟨_, he⟩
  · exact .inl ⟨bd.name, Option.some.inj (hv.symm.trans he), hb⟩
  · exact .inr ((declareUniversals_spec hr).1 b v (he ▸ hv))

include hr ht in
/-- The look-up answers for every binding, and one that carries references has a variable. -/
theorem exists_holder (hbound : cx.function.WellBound) {bd : Binding}
    (hbd : cx.function.bindings.get? b = some bd) :
    ∃ c, cx.types.carriesRefs (some bd.ty) = .ok c ∧
      (c = true → ∃ v, (cx.declareLocals tracked r).holders.get? b = some v) := by
  have hkept : (r.holders.get? b).isSome → ∃ v, (cx.declareLocals tracked r).holders.get? b = some v := by
    intro hsome
    rcases cx.declareLocals_get? tracked r b with ⟨_, _, _, he⟩ | ⟨_, he⟩
    · exact ⟨_, he⟩
    · exact Option.isSome_iff_exists.mp (he ▸ hsome)
  obtain ⟨_, _, hparams, hslot⟩ := declareUniversals_spec hr
  rcases hbound.kinds b bd hbd with hkind | ⟨p, hp, rfl, hty⟩ | rfl
  · obtain ⟨c, hc, hin⟩ := (trackedLocals_spec ht).2 b bd hbd hkind
    refine ⟨c, hc, fun htrue => ?_⟩
    obtain ⟨name, he⟩ := tracked_holder (r := r) ht (hin htrue)
    exact ⟨_, he⟩
  · obtain ⟨c, hc, hd⟩ := hparams p hp
    exact ⟨c, hty ▸ hc, fun htrue => hkept (hd htrue).1⟩
  · obtain ⟨c, hc, hd⟩ := hslot bd hbd
    exact ⟨c, hc, fun htrue => hkept (hd htrue)⟩

/-- The binding that such a place starts at carries references, if the look-up answers for it. -/
theorem carriesRefs_root (hsep : cx.types.Separate) {place : Place} {ty : TypeId}
    (h : cx.PlaceType place ty)
    (hk : cx.types.carriesRefs (some ty) = .ok true ∨ place.throughDeref = true) :
    ∃ b, cx.function.bindings.get? place.root = some b ∧
      ∀ c, cx.types.carriesRefs (some b.ty) = .ok c → c = true := by
  obtain ⟨b, loc, hget, hwalk⟩ := h.walk
  refine ⟨b, hget, fun c hc => ?_⟩
  obtain ⟨k, hk⟩ := TypeTable.Holds.of_walk hwalk
    (hk.imp TypeTable.holds_of_carriesRefsFrom (by simpa [Place.throughDeref] using ·))
  cases c with
  | true => rfl
  | false => exact absurd hk (TypeTable.not_holds_of_carriesRefs hsep hc)

include hr ht in
/-- The root of a place that leads to references or goes through one has a variable. -/
theorem exists_holder_root (hsep : cx.types.Separate) (hbound : cx.function.WellBound) {place : Place}
    {ty : TypeId} (h : cx.PlaceType place ty)
    (hk : cx.types.carriesRefs (some ty) = .ok true ∨ place.throughDeref = true) :
    ∃ v, (cx.declareLocals tracked r).holders.get? place.root = some v := by
  obtain ⟨bd, hbd, hcarries⟩ := carriesRefs_root hsep h hk
  obtain ⟨c, hc, hheld⟩ := exists_holder hr ht hbound hbd
  exact hheld (hcarries c hc)

end

/-- The region that the signature gives to a parameter or to the return slot. -/
inductive HasRegion (cx : Context) : BindingId → String → Prop where
  | param {p : Param} {region : String} (hp : p ∈ cx.function.params)
      (hc : cx.types.carriesRefs (some p.ty) = .ok true) (hr : cx.paramRegion p = .ok region) :
      HasRegion cx p.id region
  | result {b : Binding} {region : String} (hb : cx.function.bindings.get? returnSlot = some b)
      (hc : cx.types.carriesRefs (some b.ty) = .ok true) (hr : cx.ReturnsIn cx.ownSignature region) :
      HasRegion cx returnSlot region

/-- What lies behind the references of a parameter outlives the parameter's region. -/
def Implies (cx : Context) (longer shorter : String) : Prop :=
  ∃ p ∈ cx.function.params, cx.types.carriesRefs (some p.ty) = .ok true ∧ cx.paramRegion p = .ok shorter ∧
    ∃ nested, cx.types.nestedRegions (some p.ty) = .ok nested ∧ longer ∈ nested

theorem declareParam_other {p : Param} (h : cx.declareParam r p = .ok s) {b : BindingId} (hb : b ≠ p.id) :
    s.holders.get? b = r.holders.get? b := by
  rcases declareParam_cases h with ⟨_, rfl⟩ | ⟨_, region, nested, _, _, rfl⟩
  · rfl
  · simp [RegionFrame.imply, RegionFrame.hold, OrderedMap.get?_insert_other _ _ hb]

theorem declareParams_other {ps : List Param} (h : ps.foldlM cx.declareParam r = .ok s) {b : BindingId}
    (hb : b ∉ ps.map Param.id) : s.holders.get? b = r.holders.get? b := by
  refine foldlM_invariant (fun t => t.holders.get? b = r.holders.get? b) (fun t p t' hp ht hstep => ?_) rfl h
  have hne : b ≠ p.id := fun he => hb (List.mem_map.mpr ⟨p, hp, he.symm⟩)
  rw [declareParam_other hstep hne, ht]

/-- A parameter keeps the region it was declared with, as no other parameter has its id. -/
theorem declareParams_holder {ps : List Param} (h : ps.foldlM cx.declareParam r = .ok s)
    (hn : (ps.map Param.id).Nodup) {p : Param} (hp : p ∈ ps)
    (hc : cx.types.carriesRefs (some p.ty) = .ok true) {region : String} (hr : cx.paramRegion p = .ok region) :
    s.holders.get? p.id = some (.universal region) := by
  induction ps generalizing r with
  | nil => cases hp
  | cons q ps ih =>
    simp only [List.foldlM_cons, bind_eq_ok] at h
    obtain ⟨r₁, hq, hrest⟩ := h
    obtain ⟨hnot, hn⟩ := List.nodup_cons.mp hn
    rcases List.mem_cons.mp hp with rfl | hp
    · rw [declareParams_other hrest hnot]
      rcases declareParam_cases hq with ⟨hf, _⟩ | ⟨_, found, nested, hfound, _, rfl⟩
      · cases hc.symm.trans hf
      · obtain rfl := Except.ok.inj (hr.symm.trans hfound)
        simp [RegionFrame.imply, RegionFrame.hold]
    · exact ih hrest hn hp

theorem declareReturn_other {signature : Signature} (h : cx.declareReturn signature r = .ok s) {b : BindingId}
    (hb : b ≠ returnSlot) : s.holders.get? b = r.holders.get? b := by
  rcases declareReturn_cases h with ⟨rfl, _⟩ | ⟨region, r', _, rfl, rfl | ⟨rfl, _⟩, _⟩
  · rfl
  · simp [RegionFrame.hold, OrderedMap.get?_insert_other _ _ hb]
  · simp [RegionFrame.hold, OrderedMap.get?_insert_other _ _ hb]

theorem declareReturn_implied {signature : Signature} (h : cx.declareReturn signature r = .ok s) :
    s.implied = r.implied := by
  rcases declareReturn_cases h with ⟨rfl, _⟩ | ⟨region, r', _, rfl, rfl | ⟨rfl, _⟩, _⟩
  · rfl
  · exact r.implied_addUniversal region
  · rfl

/-- A parameter adds what its type implies, but for a region and itself. -/
theorem declareParam_implied {p : Param} (h : cx.declareParam r p = .ok s) {longer shorter : String} :
    (longer, shorter) ∈ s.implied ↔ (longer, shorter) ∈ r.implied ∨ longer ≠ shorter ∧
      cx.types.carriesRefs (some p.ty) = .ok true ∧ cx.paramRegion p = .ok shorter ∧
      ∃ nested, cx.types.nestedRegions (some p.ty) = .ok nested ∧ longer ∈ nested := by
  rcases declareParam_cases h with ⟨hc, rfl⟩ | ⟨hc, region, nested, hregion, hnested, rfl⟩
  · simp [hc]
  · have hnew : (longer, shorter) ∈ (nested.filter (· ≠ region)).map (fun n => (n, region)) ↔
        longer ≠ shorter ∧ region = shorter ∧ longer ∈ nested := by
      simp only [List.mem_map, List.mem_filter, decide_eq_true_eq, Prod.mk.injEq]
      constructor
      · rintro ⟨n, ⟨hn, hne⟩, rfl, rfl⟩
        exact ⟨hne, rfl, hn⟩
      · rintro ⟨hne, rfl, hn⟩
        exact ⟨longer, ⟨hn, hne⟩, rfl, rfl⟩
    simp only [RegionFrame.imply, RegionFrame.hold, RegionFrame.implied_addUniversal, List.mem_append, hnew, hc,
      hregion, hnested, Except.ok.injEq, true_and, exists_eq_left']

theorem declareParams_implied {ps : List Param} (h : ps.foldlM cx.declareParam r = .ok s)
    {longer shorter : String} : (longer, shorter) ∈ s.implied ↔ (longer, shorter) ∈ r.implied ∨
      longer ≠ shorter ∧ ∃ p ∈ ps, cx.types.carriesRefs (some p.ty) = .ok true ∧ cx.paramRegion p = .ok shorter ∧
        ∃ nested, cx.types.nestedRegions (some p.ty) = .ok nested ∧ longer ∈ nested := by
  induction ps generalizing r with
  | nil =>
    obtain rfl := Except.ok.inj h
    simp
  | cons p ps ih =>
    simp only [List.foldlM_cons, bind_eq_ok] at h
    obtain ⟨r₁, hp, hrest⟩ := h
    simp only [ih hrest, declareParam_implied hp, List.mem_cons, exists_eq_or_imp, and_or_left, or_assoc]

/-- The pairs that are added to the declared ones are those that the types of the parameters imply. -/
theorem mem_implied_iff {signature : Signature} (hr : cx.declareUniversals signature = .ok r)
    {longer shorter : String} : (longer, shorter) ∈ r.implied ↔ longer ≠ shorter ∧ cx.Implies longer shorter := by
  simp only [declareUniversals, bind_eq_ok] at hr
  obtain ⟨r₁, hparams, hreturn⟩ := hr
  rw [declareReturn_implied hreturn, declareParams_implied hparams, RegionFrame.implied_addUniversals, Implies]
  simp

section

variable {tracked : List BindingId} {b : BindingId} {region : String}
  (hr : cx.declareUniversals cx.ownSignature = .ok r) (ht : cx.trackedLocals = .ok tracked)

include hr in
theorem hasRegion_declared (hbound : cx.function.WellBound) (h : cx.HasRegion b region) :
    r.holders.get? b = some (.universal region) := by
  simp only [declareUniversals, bind_eq_ok] at hr
  obtain ⟨r₁, hparams, hreturn⟩ := hr
  cases h with
  | @param p _ hp hc hregion =>
    have hheld := declareParams_holder hparams hbound.distinct hp hc hregion
    rw [declareReturn_other hreturn (hbound.bound p hp).1, hheld]
  | @result slot _ hb hc hregion =>
    rcases declareReturn_cases hreturn with ⟨_, hnone⟩ | ⟨found, r', hfound, rfl, _, _⟩
    · cases hc.symm.trans (hnone slot hb)
    · simp [RegionFrame.hold, hfound.unique hregion]

include hr ht in
/-- A parameter or the return slot holds the region that the signature gives it. -/
theorem hasRegion_holder (hbound : cx.function.WellBound) (h : cx.HasRegion b region) :
    (cx.declareLocals tracked r).holders.get? b = some (.universal region) := by
  have hlocal : ∀ bd, b ∈ tracked → cx.function.bindings.get? b ≠ some bd := by
    intro bd hb hbd
    have hkind := kind_of_tracked ht hb hbd
    cases h with
    | @param p _ hp _ _ =>
      obtain rfl := Option.some.inj ((hbound.bound p hp).2.symm.trans hbd)
      cases hkind
    | result _ _ _ => exact hbound.slot bd hbd hkind
  rcases cx.declareLocals_get? tracked r b with ⟨bd, hb, hbd, _⟩ | ⟨_, he⟩
  · exact absurd hbd (hlocal bd hb)
  · rw [he, hasRegion_declared hr hbound h]

include hr in
theorem hasRegion_mem (hbound : cx.function.WellBound) (h : cx.HasRegion b region) : region ∈ r.universals := by
  obtain ⟨name, hname, he⟩ := (declareUniversals_spec hr).1 _ _ (hasRegion_declared hr hbound h)
  exact RegionVar.universal.inj he ▸ hname

include hr in
/-- A region that the type of a parameter names is declared, and is the parameter's. -/
theorem hasRegion_of_regionOf {p : Param} (hp : p ∈ cx.function.params)
    (h : cx.types.regionOf (some p.ty) = .ok (some region)) :
    cx.HasRegion p.id region ∧ (region = staticRegion ∨ region ∈ cx.function.regionParams) := by
  have hcarries := TypeTable.carriesRefs_of_regionOf h
  obtain ⟨c, hc, hdeclared⟩ := (declareUniversals_spec hr).2.2.1 p hp
  obtain rfl := Except.ok.inj (hcarries.symm.trans hc)
  obtain ⟨_, found, _, hfound⟩ := hdeclared rfl
  have hregion := hfound
  simp only [paramRegion, Fault.ofTypes_eq_ok.mpr h, bind_eq_ok, Except.ok.injEq, exists_eq_left'] at hregion
  split at hregion
  · rename_i hin
    obtain rfl := Except.ok.inj hregion
    exact ⟨.param hp hcarries hfound, by simpa using hin⟩
  · cases hregion

end

end Context

end Ownership
