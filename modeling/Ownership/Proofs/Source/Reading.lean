import Ownership.Proofs.Outcome
import Ownership.Proofs.Source.Resolving
import Ownership.Source.Reader
import Ownership.Verdict

/-!
Contexts that come from program text: the text is read, its functions get their
return slots, and one of them is checked against the signatures of all. Reading
keeps struct and enum names apart, and every binding of a function is a local
one, one of its parameters, or its return slot.
-/
namespace Ownership

open Outcome

/-- The context in which checking a program text looks at one of its functions. -/
def Context.IsRead (cx : Context) : Prop :=
  ∃ text file program signatures, readProgram text file = .ok program ∧
    program.signatures = .ok signatures ∧
    ∃ f ∈ program.prepare.functions, cx = program.prepare.context signatures f

/-- The context of a function of a program text, by the function's name. -/
def Context.ofText? (text name : String) : Option Context := do
  let program ← (readProgram text none).toOption
  let signatures ← program.signatures.toOption
  let f ← program.prepare.function? name
  return program.prepare.context signatures f

/-- The same, where there is such a function. -/
def Context.ofText (text name : String) : Context :=
  (Context.ofText? text name).getD ⟨default, default, default⟩

theorem Context.isRead_ofText {text name : String} (h : (Context.ofText? text name).isSome = true) :
    (Context.ofText text name).IsRead := by
  obtain ⟨cx, hcx⟩ := Option.isSome_iff_exists.mp h
  rw [ofText, hcx]
  simp only [ofText?, Option.bind_eq_bind, Option.bind_eq_some_iff] at hcx
  obtain ⟨program, hp, signatures, hs, f, hf, he⟩ := hcx
  exact ⟨text, none, program, signatures, eq_ok_of_toOption hp, eq_ok_of_toOption hs, f,
    List.mem_of_find?_eq_some hf, by simpa using he.symm⟩

/-- One evaluation of the text for all that is to be checked of it. -/
theorem Context.ofText_of_any {text name : String} {t : Context → Bool}
    (h : (Context.ofText? text name).any t = true) :
    (Context.ofText text name).IsRead ∧ t (Context.ofText text name) = true := by
  simp only [Option.any_eq_true] at h
  obtain ⟨cx, hcx, htest⟩ := h
  refine ⟨isRead_ofText (Option.isSome_iff_exists.mpr ⟨cx, hcx⟩), ?_⟩
  rw [ofText, hcx]
  exact htest

namespace ReadContext

variable {cx : ReadContext}

theorem typedNames_sameLayouts : ∀ (xs : List Surface.TypedName) {t u : TypeTable}
    {out : List (String × TypeId × Span)}, cx.typedNames xs t = .ok (out, u) → t.SameLayouts u
  | [], t, u, out, h => by
    simp only [typedNames, Except.ok.injEq, Prod.mk.injEq] at h
    exact h.2 ▸ .refl t
  | x :: rest, t, u, out, h => by
    simp only [typedNames, bind_eq_ok, pure_eq, Except.ok.injEq, Prod.mk.injEq] at h
    obtain ⟨⟨_, v⟩, hv, ⟨_, w⟩, hw, _, rfl⟩ := h
    exact (type_sameLayouts x.ty hv).trans (typedNames_sameLayouts rest hw)

theorem optionalResult_sameLayouts {ty : Option Surface.Ty} {t u : TypeTable} {out : Option TypeId}
    (h : cx.optionalResult ty t = .ok (out, u)) : t.SameLayouts u := by
  cases ty with
  | none =>
    obtain ⟨_, rfl⟩ := Prod.mk.inj (Except.ok.inj h)
    exact .refl t
  | some ty =>
    simp only [optionalResult, map_eq_ok] at h
    obtain ⟨⟨_, v⟩, hv, h⟩ := h
    obtain ⟨_, rfl⟩ := Prod.mk.inj h
    exact type_sameLayouts ty hv

theorem fields_sameLayouts {struct : String} : ∀ (xs : List Surface.TypedName)
    {m m' : OrderedMap String TypeId} {t u : TypeTable}, cx.fields struct xs m t = .ok (m', u) →
      t.SameLayouts u
  | [], m, m', t, u, h => by
    simp only [fields, Except.ok.injEq, Prod.mk.injEq] at h
    exact h.2 ▸ .refl t
  | x :: rest, m, m', t, u, h => by
    unfold fields at h
    split at h
    · cases h
    · simp only [bind_eq_ok] at h
      obtain ⟨⟨_, v⟩, hv, h⟩ := h
      exact (type_sameLayouts x.ty hv).trans (fields_sameLayouts rest h)

theorem payload_sameLayouts : ∀ (tys : List Surface.Ty) {t u : TypeTable} {out : List TypeId},
    cx.payload tys t = .ok (out, u) → t.SameLayouts u
  | [], t, u, out, h => by
    simp only [payload, Except.ok.injEq, Prod.mk.injEq] at h
    exact h.2 ▸ .refl t
  | ty :: rest, t, u, out, h => by
    simp only [payload, bind_eq_ok, pure_eq, Except.ok.injEq, Prod.mk.injEq] at h
    obtain ⟨⟨_, v⟩, hv, ⟨_, w⟩, hw, _, rfl⟩ := h
    exact (type_sameLayouts ty hv).trans (payload_sameLayouts rest hw)

theorem variants_sameLayouts : ∀ (xs : List Surface.VariantDecl) {m m' : OrderedMap String (List TypeId)}
    {t u : TypeTable}, cx.variants xs m t = .ok (m', u) → t.SameLayouts u
  | [], m, m', t, u, h => by
    simp only [variants, Except.ok.injEq, Prod.mk.injEq] at h
    exact h.2 ▸ .refl t
  | x :: rest, m, m', t, u, h => by
    simp only [variants, bind_eq_ok] at h
    obtain ⟨⟨_, v⟩, hv, h⟩ := h
    exact (payload_sameLayouts x.payload hv).trans (variants_sameLayouts rest h)

theorem signature_sameLayouts {d d' : Declarations} {h : Surface.Header}
    {out : Signature × List (String × TypeId × Span)} (hs : cx.signature d h = .ok (out, d')) :
    d.types.SameLayouts d'.types := by
  simp only [signature, bind_eq_ok] at hs
  obtain ⟨⟨_, t⟩, ht, ⟨_, u⟩, hu, hs⟩ := hs
  split at hs
  · cases hs
  · obtain ⟨_, rfl⟩ := Prod.mk.inj (Except.ok.inj hs)
    exact (typedNames_sameLayouts h.params ht).trans (optionalResult_sameLayouts hu)

/-- An item that is read leaves struct and enum names apart. -/
theorem item_separate {d d' : Declarations} {x : Surface.Item} (hsep : d.types.Separate)
    (h : cx.item d x = .ok d') : d'.types.Separate := by
  cases x with
  | struct copy name xs r =>
    simp only [item, bind_eq_ok, pure_eq, Except.ok.injEq] at h
    obtain ⟨⟨m, t⟩, ht, ⟨_, u⟩, hu, rfl⟩ := h
    exact TypeTable.separate_declare ((fields_sameLayouts xs ht).separate hsep) (ofTypes_eq_ok.mp hu)
  | enum copy name xs r =>
    simp only [item, bind_eq_ok, pure_eq, Except.ok.injEq] at h
    obtain ⟨⟨m, t⟩, ht, ⟨_, u⟩, hu, rfl⟩ := h
    exact TypeTable.separate_declare ((variants_sameLayouts xs ht).separate hsep) (ofTypes_eq_ok.mp hu)
  | function | external =>
    simp only [item, bind_eq_ok, pure_eq, Except.ok.injEq] at h
    obtain ⟨⟨_, e⟩, he, rfl⟩ := h
    exact (signature_sameLayouts he).separate hsep

theorem declareParams_spec (ps : List (String × TypeId × Span)) (s : BodyState) :
    (declareParams ps s).2.types = s.types ∧
      ∀ id b, (declareParams ps s).2.bindings.get? id = some b → s.bindings.get? id = some b ∨
        ∃ p ∈ (declareParams ps s).1, p.id = id ∧ p.ty = b.ty := by
  induction ps generalizing s with
  | nil => exact ⟨rfl, fun id b hb => .inl hb⟩
  | cons p ps ih =>
    obtain ⟨name, ty, loc⟩ := p
    obtain ⟨htypes, hbindings⟩ := ih (s.declare name ty .param loc).2
    refine ⟨htypes, fun id b hb => ?_⟩
    rcases hbindings id b hb with hb | ⟨q, hq, he⟩
    · by_cases hid : id = s.next
      · refine .inr ⟨⟨name, s.next, ty, loc⟩, List.mem_cons_self, hid.symm, ?_⟩
        simp only [BodyState.declare, hid, OrderedMap.get?_insert_self, Option.some.injEq] at hb
        rw [← hb]
      · exact .inl (by simpa [BodyState.declare, OrderedMap.get?_insert_other _ _ hid] using hb)
    · exact .inr ⟨q, List.mem_cons_of_mem _ hq, he⟩

/-- Parameters get new ids, one after the other, and a binding each. -/
structure ParamsBound (ps : List Param) (s s' : BodyState) : Prop where
  next : s.next ≤ s'.next
  ids : ∀ p ∈ ps, s.next ≤ p.id ∧ p.id < s'.next
  distinct : (ps.map Param.id).Nodup
  bound : ∀ p ∈ ps, s'.bindings.get? p.id = some p.binding
  kept : ∀ id, id < s.next → s'.bindings.get? id = s.bindings.get? id

theorem declareParams_bound (ps : List (String × TypeId × Span)) (s : BodyState) :
    ParamsBound (declareParams ps s).1 s (declareParams ps s).2 := by
  induction ps generalizing s with
  | nil => exact ⟨Int.le_refl _, by simp [declareParams], by simp [declareParams], by simp [declareParams],
      fun _ _ => rfl⟩
  | cons p ps ih =>
    obtain ⟨name, ty, loc⟩ := p
    have h := ih (s.declare name ty .param loc).2
    have hstep : s.next < (s.declare name ty .param loc).2.next := Int.lt_succ s.next
    simp only [declareParams]
    generalize declareParams ps (s.declare name ty .param loc).2 = r at h
    have hlt : s.next < r.2.next := Int.lt_of_lt_of_le hstep h.next
    refine ⟨Int.le_of_lt hlt, ?_, ?_, ?_, ?_⟩
    · intro q hq
      rcases List.mem_cons.mp hq with rfl | hq
      · exact ⟨Int.le_refl _, hlt⟩
      · obtain ⟨hge, hbelow⟩ := h.ids q hq
        exact ⟨Int.le_trans (Int.le_of_lt hstep) hge, hbelow⟩
    · refine List.nodup_cons.mpr ⟨fun hmem => ?_, h.distinct⟩
      obtain ⟨q, hq, hid⟩ := List.mem_map.mp hmem
      exact Int.ne_of_gt (Int.lt_of_lt_of_le hstep (h.ids q hq).1) hid
    · intro q hq
      rcases List.mem_cons.mp hq with rfl | hq
      · exact (h.kept _ hstep).trans (OrderedMap.get?_insert_self ..)
      · exact h.bound q hq
    · intro id hid
      exact (h.kept id (Int.lt_trans hid hstep)).trans (OrderedMap.get?_insert_other _ _ (Int.ne_of_lt hid))

end ReadContext

/-- Every binding is local, a parameter with the parameter's type, or the
return slot. Parameters have bindings of their own, and the return slot is not a local one. -/
structure Function.WellBound (f : Function) : Prop where
  kinds : ∀ id b, f.bindings.get? id = some b →
    b.kind = .localVar ∨ (∃ p ∈ f.params, p.id = id ∧ p.ty = b.ty) ∨ id = returnSlot
  distinct : (f.params.map Param.id).Nodup
  bound : ∀ p ∈ f.params, p.id ≠ returnSlot ∧ f.bindings.get? p.id = some p.binding
  slot : ∀ b, f.bindings.get? returnSlot = some b → b.kind ≠ .localVar

namespace ReadContext

variable {cx : ReadContext}

theorem function_spec {p : PendingFunction} {t u : TypeTable} {f : Function}
    (h : cx.function p t = .ok (f, u)) : t.SameLayouts u ∧ f.WellBound := by
  simp only [function, bind_eq_ok, pure_eq, Except.ok.injEq, Prod.mk.injEq] at h
  obtain ⟨⟨body, s⟩, hs, rfl, rfl⟩ := h
  obtain ⟨htypes, hparams⟩ := declareParams_spec p.params { types := t }
  have hbound := declareParams_bound p.params { types := t }
  have hext := block_declares p.body hs
  have hlayouts := hext.layouts
  rw [htypes] at hlayouts
  refine ⟨hlayouts, fun id b hb => ?_, hbound.distinct, fun q hq => ?_,
    fun b hb => ?_⟩
  · rcases hext.bindings id b hb with hb | hlocal
    · rcases hparams id b hb with hb | hp
      · cases hb
      · exact .inr (.inl hp)
    · exact .inl hlocal
  · obtain ⟨hge, hlt⟩ := hbound.ids q hq
    exact ⟨(Int.ne_of_lt hge).symm, (hext.kept q.id hlt).trans (hbound.bound q hq)⟩
  · have hstart : returnSlot < ({ types := t } : BodyState).next := Int.lt_succ returnSlot
    rw [hext.kept returnSlot (Int.lt_of_lt_of_le hstart hbound.next), hbound.kept returnSlot hstart] at hb
    cases hb

theorem functions_spec : ∀ (ps : List PendingFunction) {t u : TypeTable} {fs : List Function},
    cx.functions ps t = .ok (fs, u) → t.SameLayouts u ∧ ∀ f ∈ fs, f.WellBound
  | [], t, u, fs, h => by
    simp only [functions, Except.ok.injEq, Prod.mk.injEq] at h
    obtain ⟨rfl, rfl⟩ := h
    exact ⟨.refl t, by simp⟩
  | p :: rest, t, u, fs, h => by
    simp only [functions, bind_eq_ok, pure_eq, Except.ok.injEq, Prod.mk.injEq] at h
    obtain ⟨⟨f, v⟩, hv, ⟨fs', w⟩, hw, rfl, rfl⟩ := h
    obtain ⟨hsame, hbound⟩ := function_spec hv
    obtain ⟨hsame', hall⟩ := functions_spec rest hw
    refine ⟨hsame.trans hsame', fun g hg => ?_⟩
    rcases List.mem_cons.mp hg with rfl | hg
    · exact hbound
    · exact hall g hg

end ReadContext

theorem readProgram_spec {text : String} {file : Option String} {program : Program}
    (h : readProgram text file = .ok program) :
    program.types.Separate ∧ ∀ f ∈ program.functions, f.WellBound := by
  simp only [readProgram, bind_eq_ok, pure_eq, Except.ok.injEq] at h
  obtain ⟨items, _, d, hd, ⟨fs, types⟩, hf, rfl⟩ := h
  have hstart : ({} : Declarations).types.Separate := by
    intro name fields arms hs
    cases hs
  have hsep := foldlM_invariant (fun d : Declarations => d.types.Separate)
    (fun d x d' _ hd hx => ReadContext.item_separate hd hx) hstart hd
  obtain ⟨hsame, hbound⟩ := ReadContext.functions_spec d.functions hf
  exact ⟨hsame.separate hsep, hbound⟩

theorem Function.WellBound.withReturnSlot {f : Function} (h : f.WellBound) (unit : TypeId) :
    (f.withReturnSlot unit).WellBound := by
  unfold Function.withReturnSlot OrderedMap.insertNew
  split
  · exact h
  · refine ⟨fun id b hb => ?_, h.distinct, fun p hp => ?_,
      fun b hb => ?_⟩
    · by_cases hid : id = returnSlot
      · exact .inr (.inr hid)
      · exact h.kinds id b (by rwa [OrderedMap.get?_insert_other _ _ hid] at hb)
    · obtain ⟨hne, hget⟩ := h.bound p hp
      exact ⟨hne, (OrderedMap.get?_insert_other _ _ hne).trans hget⟩
    · rw [OrderedMap.get?_insert_self] at hb
      rw [← Option.some.inj hb]
      nofun

namespace Context

variable {cx : Context}

theorem IsRead.separate (h : cx.IsRead) : cx.types.Separate := by
  obtain ⟨text, file, program, signatures, hread, _, f, _, rfl⟩ := h
  have hsame : program.types.SameLayouts program.prepare.types :=
    program.types.sameLayouts_of_intern rfl
  exact hsame.separate (readProgram_spec hread).1

theorem IsRead.wellBound (h : cx.IsRead) : cx.function.WellBound := by
  obtain ⟨text, file, program, signatures, hread, _, f, hf, rfl⟩ := h
  obtain ⟨f₀, hf₀, rfl⟩ := List.mem_map.mp hf
  exact ((readProgram_spec hread).2 f₀ hf₀).withReturnSlot _

end Context

end Ownership
