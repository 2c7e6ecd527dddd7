import Ownership.Proofs.TypeTable.Interning

/-!
Requests to a type table. A table is made by asking it for types, one after the
other; some requests also declare a struct or an enum. What a request asks for
can be told from the requests before it alone, without looking at the table: the
duplication of a struct or an enum is fixed where its name is declared first.
The table answers with an id that stands for just this type from then on. Only
for a scalar it goes by the name, so of two requests for a scalar that differ in
duplication the first one decides for both.
-/
namespace Ownership

open Outcome

theorem OrderedMap.contains_insert {κ ν : Type} [DecidableEq κ] (m : OrderedMap κ ν) (k j : κ) (v : ν) :
    (m.insert k v).contains j = (decide (j = k) || m.contains j) := by
  by_cases h : j = k
  · rw [h, contains_insert_self, decide_eq_true rfl, Bool.true_or]
  · rw [contains, get?_insert_other m v h, decide_eq_false h, Bool.false_or, contains]

/-- What a type table can be asked for. -/
inductive Request where
  | scalar (name : String) (copy : Bool)
  | unit
  | unknown
  | ref (target : TypeId) (mutable : Bool) (region : Option String)
  | array (element : TypeId)
  | declare (name : String) (layout : Layout) (copy : Bool)
  | aggregate (kind : Kind) (name : String) (region : Option String)

namespace Request

/-- The answer to a request, with the table that it leaves. -/
def serve (t : TypeTable) : Request → Except TypeFault (TypeId × TypeTable)
  | scalar name copy => .ok (t.scalar name copy)
  | unit => .ok t.unit
  | unknown => .ok t.unknown
  | ref target mutable region => .ok (t.ref target mutable region)
  | array element => .ok (t.array element)
  | declare name layout copy => t.declare name layout copy
  | aggregate kind name region => t.aggregate kind name region

/-- The same in place, where a request that fails halfway would leave behind what it has done. -/
abbrev Action := EStateM TypeFault TypeTable

def interned (d : TypeDef) : Action TypeId := modifyGet (·.intern d)

def instanceOf (kind : Kind) (name : String) (region : Option String) : Action TypeId := do
  let t ← get
  if t.has kind name then interned (kind.type name region (t.copies.contains name))
  else throw (kind.unknown name)

/-- A declaration registers the layout, then the duplication, and last makes the instance. -/
def perform : Request → Action TypeId
  | scalar name copy => interned (.scalar name copy)
  | unit => interned .unit
  | unknown => interned .unknown
  | ref target mutable region => interned (.ref target mutable region)
  | array element => interned (.array element)
  | declare name layout copy => do
    let t ← get
    if t.isDeclared name then throw (.alreadyDeclared name)
    set (t.register name layout)
    modify (·.markCopy name copy)
    instanceOf layout.kind name none
  | aggregate kind name region => instanceOf kind name region

/-- An answer as it is seen in place; a failure leaves the table as it was. -/
def inPlace (t : TypeTable) : Except TypeFault (TypeId × TypeTable) → EStateM.Result TypeFault TypeTable TypeId
  | .ok (id, u) => .ok id u
  | .error f => .error f t

theorem instanceOf_eq (t : TypeTable) (kind : Kind) (name : String) (region : Option String) :
    (instanceOf kind name region).run t = inPlace t (t.aggregate kind name region) := by
  unfold TypeTable.aggregate
  cases h : t.has kind name with
  | true => simp [instanceOf, interned, inPlace, h]
  | false =>
    simp only [instanceOf, EStateM.run_bind, EStateM.run_get, h]
    rfl

end Request

namespace TypeTable

variable {t u : TypeTable} {name : String}

@[simp] theorem has_markCopy (t : TypeTable) (name : String) (copy : Bool) (k : Kind) :
    (t.markCopy name copy).has k = t.has k := by
  cases copy <;> cases k <;> rfl

/-- Registering a layout declares one more name, of the kind of the layout. -/
theorem has_register (t : TypeTable) (name : String) (layout : Layout) (k : Kind) (n : String) :
    (t.register name layout).has k n = (decide (k = layout.kind ∧ n = name) || t.has k n) := by
  cases layout <;> cases k <;> simp [register, has, hasStruct, hasEnum, Layout.kind, OrderedMap.contains_insert]

theorem mem_copies_markCopy {n : String} {copy : Bool} :
    n ∈ (t.markCopy name copy).copies ↔ copy = true ∧ n = name ∨ n ∈ t.copies := by
  cases copy <;> simp [markCopy]

@[simp] theorem copies_register (t : TypeTable) (name : String) (layout : Layout) :
    (t.register name layout).copies = t.copies := by
  cases layout <;> rfl

@[simp] theorem defs_register (t : TypeTable) (name : String) (layout : Layout) :
    (t.register name layout).defs = t.defs := by
  cases layout <;> rfl

@[simp] theorem defs_markCopy (t : TypeTable) (name : String) (copy : Bool) :
    (t.markCopy name copy).defs = t.defs := by
  cases copy <;> rfl

end TypeTable

namespace Request

/-- The table with the layout that a request declares. -/
def register (t : TypeTable) : Request → TypeTable
  | declare name layout copy => (t.register name layout).markCopy name copy
  | _ => t

/-- A name that is new gets its instance, so a declaration only fails before it has changed anything. -/
theorem serve_declare {t : TypeTable} {name : String} (hnew : t.isDeclared name = false) (layout : Layout)
    (copy : Bool) {u : TypeTable} (hu : (declare name layout copy).register t = u) :
    (declare name layout copy).serve t = .ok (u.intern (layout.kind.type name none (u.copies.contains name))) := by
  subst hu
  have hhas : ((declare name layout copy).register t).has layout.kind name = true := by
    simp [register, TypeTable.has_register]
  rw [serve, TypeTable.declare, hnew, if_neg Bool.false_ne_true, TypeTable.aggregate]
  exact if_pos hhas

/-- A request that fails leaves nothing behind. -/
theorem perform_eq (t : TypeTable) (q : Request) : q.perform.run t = inPlace t (q.serve t) := by
  cases q with
  | scalar | unit | unknown | ref | array => rfl
  | aggregate kind name region => exact instanceOf_eq t kind name region
  | declare name layout copy =>
    cases h : t.isDeclared name with
    | true =>
      simp only [perform, EStateM.run_bind, EStateM.run_get, h, serve, TypeTable.declare]
      rfl
    | false =>
      have hrun : (declare name layout copy).perform.run t =
          (instanceOf layout.kind name none).run ((declare name layout copy).register t) := by
        simp [perform, register, h]
      have hserve : (declare name layout copy).serve t =
          ((declare name layout copy).register t).aggregate layout.kind name none := by
        simp [serve, TypeTable.declare, register, h]
      rw [hrun, instanceOf_eq, ← hserve, serve_declare h layout copy rfl]
      rfl

end Request

/-- The table after a history of requests, the latest first, some of which may have failed. -/
def tableAfter : List Request → TypeTable
  | [] => {}
  | q :: past =>
    match q.perform.run (tableAfter past) with
    | .ok _ t | .error _ t => t

namespace Request

/-- What a request declares a name as, and whether instances are duplicated. -/
def declares? (name : String) : Request → Option (Kind × Bool)
  | declare n layout copy => if n = name then some (layout.kind, copy) else none
  | _ => none

/-- Whether the scalar of a name is to be duplicated, if the request asks for it. -/
def duplicates? (name : String) : Request → Option Bool
  | scalar n copy => if n = name then some copy else none
  | _ => none

end Request

/-- What is found in the earliest request that has it. -/
def earliest? {α : Type} (find : Request → Option α) : List Request → Option α
  | [] => none
  | q :: past => (earliest? find past).or (find q)

/-- What a name was declared as; the first declaration counts. -/
def declaration? (name : String) (history : List Request) : Option (Kind × Bool) :=
  earliest? (Request.declares? name) history

/-- The type that is stored for one that a history asks for. A scalar is duplicated as in the first request for
its name. -/
def TypeDef.granted (history : List Request) : TypeDef → TypeDef
  | scalar name copy => scalar name ((earliest? (Request.duplicates? name) history).getD copy)
  | d => d

/-- The type that a request asks for after a history. None if the request is to be refused, since it
declares a name again or asks for an instance of something else than what the name was declared as. -/
def Request.describes (past : List Request) : Request → Option TypeDef
  | scalar name copy => some (.scalar name copy)
  | unit => some .unit
  | unknown => some .unknown
  | ref target mutable region => some (.ref target mutable region)
  | array element => some (.array element)
  | declare name layout copy =>
    if (declaration? name past).isSome then none else some (layout.kind.type name none copy)
  | aggregate kind name region =>
    (declaration? name past).bind fun d => if d.1 = kind then some (kind.type name region d.2) else none

/-- Some request of the history asked for the type and was answered with the id. -/
inductive Answered : List Request → TypeId → TypeDef → Prop where
  | now {past : List Request} {q : Request} {id : TypeId} {d : TypeDef} {t : TypeTable}
      (hd : q.describes past = some d) (h : q.perform.run (tableAfter past) = .ok id t) : Answered (q :: past) id d
  | before {past : List Request} {q : Request} {id : TypeId} {d : TypeDef} (h : Answered past id d) :
      Answered (q :: past) id d

namespace TypeTable

variable {t u : TypeTable} {name : String} {id : TypeId} {d e : TypeDef}

/-- What a name is declared as, and whether instances are duplicated. -/
def declared? (t : TypeTable) (name : String) : Option (Kind × Bool) :=
  if t.has .struct name then some (.struct, t.copies.contains name)
  else if t.has .enum name then some (.enum, t.copies.contains name)
  else none

theorem isSome_declared? (t : TypeTable) (name : String) : (t.declared? name).isSome = t.isDeclared name := by
  have hsplit : t.isDeclared name = (t.has .struct name || t.has .enum name) := rfl
  rw [hsplit, declared?]
  cases t.has .struct name <;> cases t.has .enum name <;> rfl

theorem Separate.has_unique (h : t.Separate) {k k' : Kind} (hk : t.has k name = true) (hk' : t.has k' name = true) :
    k = k' := by
  have hnot : ¬(t.has .struct name = true ∧ t.has .enum name = true) := by
    rintro ⟨hs, he⟩
    obtain ⟨fields, hfields⟩ := Option.isSome_iff_exists.mp hs
    obtain ⟨arms, harms⟩ := Option.isSome_iff_exists.mp he
    exact h name fields arms hfields harms
  cases k <;> cases k' <;> simp_all

theorem Separate.declared?_eq_some (h : t.Separate) {k : Kind} {copy : Bool} :
    t.declared? name = some (k, copy) ↔ t.has k name = true ∧ t.copies.contains name = copy := by
  have hunique : t.has .struct name = true → t.has .enum name = true → Kind.struct = .enum := h.has_unique
  unfold declared?
  cases k <;> cases hs : t.has .struct name <;> cases he : t.has .enum name <;> simp_all

theorem declared?_congr (hhas : ∀ k, u.has k name = t.has k name)
    (hcopy : u.copies.contains name = t.copies.contains name) : u.declared? name = t.declared? name := by
  simp only [declared?, hhas, hcopy]

/-- A declaration changes nothing for other names. -/
theorem declared?_declare_other {n : String} (hn : n ≠ name) (layout : Layout) (copy : Bool) :
    ((t.register name layout).markCopy name copy).declared? n = t.declared? n := by
  refine declared?_congr (fun k => ?_) ?_
  · simp [has_register, hn]
  · simp [mem_copies_markCopy, hn]

/-- Interning finds a type of the same key, or stores the type as the last one. -/
theorem intern_cases (hi : t.intern d = (id, u)) :
    (u = t ∧ ∃ e ∈ t.defs, t.get id = .ok e ∧ e.key = d.key) ∨
      ((∀ e ∈ t.defs, e.key ≠ d.key) ∧ u = { t with defs := t.defs ++ [d] } ∧ u.get id = .ok d) := by
  unfold intern at hi
  split at hi
  · rename_i i hfind
    obtain ⟨rfl, rfl⟩ := Prod.mk.inj hi
    obtain ⟨hlt, hkey, _⟩ := List.findIdx?_eq_some_iff_getElem.mp hfind
    exact .inl ⟨rfl, t.defs[i], List.getElem_mem hlt, get_eq_ok.mpr ⟨i, rfl, List.getElem?_eq_getElem hlt⟩,
      of_decide_eq_true hkey⟩
  · rename_i hfind
    obtain ⟨rfl, rfl⟩ := Prod.mk.inj hi
    refine .inr ⟨fun e he hkey => ?_, rfl, get_eq_ok.mpr ⟨t.defs.length, rfl, by simp⟩⟩
    have hnot := List.findIdx?_eq_none_iff.mp hfind e he
    simp [hkey] at hnot

theorem get_of_intern (hi : t.intern d = (id, u)) {ty : TypeId} (h : t.get ty = .ok e) : u.get ty = .ok e := by
  rcases intern_cases hi with ⟨rfl, _⟩ | ⟨_, rfl, _⟩
  · exact h
  · obtain ⟨i, rfl, hi⟩ := get_eq_ok.mp h
    exact get_eq_ok.mpr ⟨i, rfl, by rw [List.getElem?_append_left (List.getElem?_eq_some_iff.mp hi).1, hi]⟩

end TypeTable

section

variable {past : List Request} {q : Request} {t u : TypeTable} {name : String} {id : TypeId} {d e : TypeDef}

theorem declaration?_or (name : String) (q : Request) (past : List Request) :
    declaration? name (q :: past) = (declaration? name past).or (q.declares? name) := rfl

theorem declaration?_cons {c : Kind × Bool} (h : declaration? name past = some c) :
    declaration? name (q :: past) = some c := by
  simp [declaration?_or, h]

theorem describes_aggregate {kind : Kind} {region : Option String} :
    (Request.aggregate kind name region).describes past = some d ↔
      ∃ copy, declaration? name past = some (kind, copy) ∧ d = kind.type name region copy := by
  constructor
  · intro h
    obtain ⟨⟨kind', copy⟩, hdecl, hd⟩ := Option.bind_eq_some_iff.mp h
    obtain ⟨rfl, hd⟩ := Option.ite_none_right_eq_some.mp hd
    exact ⟨copy, hdecl, (Option.some.inj hd).symm⟩
  · rintro ⟨copy, hdecl, rfl⟩
    exact Option.bind_eq_some_iff.mpr ⟨_, hdecl, if_pos rfl⟩

theorem describes_declare {layout : Layout} {copy : Bool} :
    (Request.declare name layout copy).describes past = some d ↔
      declaration? name past = none ∧ d = layout.kind.type name none copy := by
  cases h : declaration? name past <;> simp [Request.describes, h, eq_comm]

/-- The history accounts for a stored type, in particular for its duplication. -/
def Backed (past : List Request) : TypeDef → Prop
  | .scalar name copy => Request.scalar name copy ∈ past
  | .struct name _ copy => declaration? name past = some (.struct, copy)
  | .enum name _ copy => declaration? name past = some (.enum, copy)
  | _ => True

theorem backed_type {kind : Kind} {region : Option String} {copy : Bool} :
    Backed past (kind.type name region copy) ↔ declaration? name past = some (kind, copy) := by
  cases kind <;> exact Iff.rfl

theorem Backed.cons (h : Backed past d) : Backed (q :: past) d := by
  cases d with
  | scalar => exact List.mem_cons_of_mem q h
  | struct | enum => exact declaration?_cons h
  | unit | unknown | ref | array => trivial

/-- A type that is asked for is accounted for by the request. -/
theorem backed_of_describes (h : q.describes past = some d) : Backed (q :: past) d := by
  cases q with
  | scalar name copy =>
    obtain rfl := Option.some.inj h
    exact List.mem_cons_self
  | unit | unknown | ref | array =>
    obtain rfl := Option.some.inj h
    trivial
  | declare name layout copy =>
    obtain ⟨hnew, rfl⟩ := describes_declare.mp h
    simp [backed_type, declaration?_or, hnew, Request.declares?]
  | aggregate kind name region =>
    obtain ⟨copy, hdecl, rfl⟩ := describes_aggregate.mp h
    exact backed_type.mpr (declaration?_cons hdecl)

/-- Types of one key are the same, except that a scalar may have been asked for with both duplications. -/
theorem Backed.eq_or_flipped (he : Backed past e) (hd : Backed past d) (hkey : e.key = d.key) :
    e = d ∨ ∃ name copy, d = .scalar name copy ∧ e = .scalar name (!copy) := by
  cases d <;> cases e <;> simp only [TypeDef.key, reduceCtorEq] at hkey
  case scalar.scalar name copy name' copy' =>
    obtain ⟨rfl, _⟩ := TypeDef.scalar.inj hkey
    by_cases hcopy : copy' = copy
    · exact .inl (by rw [hcopy])
    · exact .inr ⟨name', copy, rfl, by rw [Bool.eq_not.mpr hcopy]⟩
  case struct.struct name region copy name' region' copy' =>
    obtain ⟨rfl, rfl, _⟩ := TypeDef.struct.inj hkey
    obtain ⟨_, rfl⟩ := Prod.mk.inj (Option.some.inj (he.symm.trans hd))
    exact .inl rfl
  case enum.enum name region copy name' region' copy' =>
    obtain ⟨rfl, rfl, _⟩ := TypeDef.enum.inj hkey
    obtain ⟨_, rfl⟩ := Prod.mk.inj (Option.some.inj (he.symm.trans hd))
    exact .inl rfl
  all_goals exact .inl (by simp_all)

/-- The table is what a history has made of it. -/
structure Records (past : List Request) (t : TypeTable) : Prop where
  declared : ∀ name, t.declared? name = declaration? name past
  separate : t.Separate
  copies : ∀ name ∈ t.copies, t.isDeclared name = true
  distinct : (t.defs.map TypeDef.key).Nodup
  backed : ∀ d ∈ t.defs, Backed past d

theorem records_empty : Records [] {} :=
  ⟨fun _ => rfl, fun _ _ _ h => (by cases h), by simp, List.nodup_nil, by simp⟩

namespace Records

variable (h : Records past t)

include h

theorem isDeclared (name : String) : t.isDeclared name = (declaration? name past).isSome := by
  rw [← h.declared, TypeTable.isSome_declared?]

/-- A request that declares no new name is recorded by the table as it is. -/
theorem cons (hq : ∀ name, (q.declares? name).isSome → (declaration? name past).isSome) : Records (q :: past) t := by
  refine ⟨fun name => ?_, h.separate, h.copies, h.distinct, fun d hd => (h.backed d hd).cons⟩
  rw [h.declared, declaration?_or]
  cases hdecl : declaration? name past with
  | some d => rfl
  | none =>
    cases hnew : q.declares? name with
    | none => rfl
    | some d =>
      have hsome := hq name (by rw [hnew]; rfl)
      rw [hdecl] at hsome
      cases hsome

theorem intern (hd : Backed past d) (hi : t.intern d = (id, u)) : Records past u := by
  rcases TypeTable.intern_cases hi with ⟨rfl, _⟩ | ⟨hnew, rfl, _⟩
  · exact h
  · refine ⟨fun name => h.declared name, h.separate, h.copies, ?_, fun e he => ?_⟩
    · rw [List.map_append]
      refine List.nodup_append.mpr ⟨h.distinct, by simp, ?_⟩
      rintro key hkey _ hlast rfl
      obtain ⟨e, he, rfl⟩ := List.mem_map.mp hkey
      exact hnew e he (by simpa using hlast)
    · rcases List.mem_append.mp he with he | he
      · exact h.backed e he
      · exact List.mem_singleton.mp he ▸ hd

theorem fresh (hnew : declaration? name past = none) : t.isDeclared name = false ∧ name ∉ t.copies := by
  have hnot : t.isDeclared name = false := by rw [h.isDeclared, hnew]; rfl
  refine ⟨hnot, fun hmem => ?_⟩
  rw [h.copies name hmem] at hnot
  cases hnot

theorem contains_copies (hnew : declaration? name past = none) (layout : Layout) (copy : Bool) :
    ((Request.declare name layout copy).register t).copies.contains name = copy := by
  obtain ⟨_, hcopy⟩ := h.fresh hnew
  cases copy <;> simp [Request.register, TypeTable.markCopy, hcopy]

/-- Registering what a request declares records it. -/
theorem register (hd : q.describes past = some d) : Records (q :: past) (q.register t) := by
  cases q with
  | scalar | unit | unknown | ref | array | aggregate => exact h.cons fun _ hsome => by cases hsome
  | declare name layout copy =>
    obtain ⟨hnew, rfl⟩ := describes_declare.mp hd
    obtain ⟨hfresh, _⟩ := h.fresh hnew
    have hcopies := h.contains_copies hnew layout copy
    have hsep : ((t.register name layout).markCopy name copy).Separate :=
      (TypeTable.sameLayouts_markCopy _ name copy).separate (h.separate.register hfresh layout)
    have hdefs : ((t.register name layout).markCopy name copy).defs = t.defs := by simp
    have hself : ((t.register name layout).markCopy name copy).declared? name = some (layout.kind, copy) :=
      hsep.declared?_eq_some.mpr ⟨by simp [TypeTable.has_register], hcopies⟩
    refine ⟨fun n => ?_, hsep, fun n hmem => ?_, hdefs ▸ h.distinct, fun d hd => (h.backed d (hdefs ▸ hd)).cons⟩
    · rw [declaration?_or]
      by_cases hn : n = name
      · rw [hn, hnew, Option.none_or, Request.declares?, if_pos rfl]
        exact hself
      · rw [Request.declares?, if_neg (Ne.symm hn), Option.or_none, ← h.declared]
        exact TypeTable.declared?_declare_other hn layout copy
    · rw [← TypeTable.isSome_declared?]
      by_cases hn : n = name
      · rw [hn, Request.register, hself, Option.isSome_some]
      · rw [Request.register, TypeTable.declared?_declare_other hn, TypeTable.isSome_declared?]
        exact h.copies n (by simpa [Request.register, TypeTable.mem_copies_markCopy, hn] using hmem)

/-- A request that describes a type is answered by interning this type. -/
theorem serve_eq_ok (hd : q.describes past = some d) : q.serve t = .ok ((q.register t).intern d) := by
  cases q with
  | scalar | unit | unknown | ref | array =>
    obtain rfl := Option.some.inj hd
    rfl
  | aggregate kind name region =>
    obtain ⟨copy, hdecl, rfl⟩ := describes_aggregate.mp hd
    obtain ⟨hhas, rfl⟩ := h.separate.declared?_eq_some.mp ((h.declared name).trans hdecl)
    simp [Request.serve, TypeTable.aggregate, hhas, Request.register]
  | declare name layout copy =>
    obtain ⟨hnew, rfl⟩ := describes_declare.mp hd
    rw [Request.serve_declare (h.fresh hnew).1 layout copy rfl, h.contains_copies hnew layout copy]

/-- A request that describes no type fails. -/
theorem serve_eq_error (hd : q.describes past = none) : ∃ f, q.serve t = .error f := by
  cases q with
  | scalar | unit | unknown | ref | array => cases hd
  | aggregate kind name region =>
    cases hhas : t.has kind name with
    | false => exact ⟨kind.unknown name, by simp [Request.serve, TypeTable.aggregate, hhas]⟩
    | true =>
      have hdecl := (h.declared name).symm.trans (h.separate.declared?_eq_some.mpr ⟨hhas, rfl⟩)
      rw [describes_aggregate.mpr ⟨_, hdecl, rfl⟩] at hd
      cases hd
  | declare name layout copy =>
    refine ⟨.alreadyDeclared name, ?_⟩
    cases hdecl : declaration? name past with
    | none =>
      rw [describes_declare.mpr ⟨hdecl, rfl⟩] at hd
      cases hd
    | some c =>
      have hdeclared : t.isDeclared name = true := by rw [h.isDeclared, hdecl]; rfl
      simp [Request.serve, TypeTable.declare, hdeclared]

theorem id_unique {a b : TypeId} (ha : t.get a = .ok d) (hb : t.get b = .ok e) (hkey : d.key = e.key) : a = b := by
  obtain ⟨i, rfl, hi⟩ := TypeTable.get_eq_ok.mp ha
  obtain ⟨j, rfl, hj⟩ := TypeTable.get_eq_ok.mp hb
  have hlt : i < (t.defs.map TypeDef.key).length := by
    rw [List.length_map]
    exact (List.getElem?_eq_some_iff.mp hi).1
  have hij : i = j := (List.getElem?_inj hlt h.distinct).mp (by simp [hi, hj, hkey])
  rw [hij]

end Records

theorem tableAfter_of_ok (h : q.serve (tableAfter past) = .ok (id, t)) : tableAfter (q :: past) = t := by
  simp [tableAfter, Request.perform_eq, h, Request.inPlace]

theorem tableAfter_of_error {f : TypeFault} (h : q.serve (tableAfter past) = .error f) :
    tableAfter (q :: past) = tableAfter past := by
  simp [tableAfter, Request.perform_eq, h, Request.inPlace]

/-- Where a declaration is refused, the name was declared before. -/
theorem declared_of_refused (hd : q.describes past = none) (hq : (q.declares? name).isSome = true) :
    (declaration? name past).isSome = true := by
  rw [Option.isSome_iff_ne_none]
  intro hnone
  cases q with
  | scalar | unit | unknown | ref | array | aggregate => cases hq
  | declare n layout copy =>
    by_cases hn : n = name
    · simp [Request.describes, hn, hnone] at hd
    · simp [Request.declares?, hn] at hq

theorem records_tableAfter (past : List Request) : Records past (tableAfter past) := by
  induction past with
  | nil => exact records_empty
  | cons q past ih =>
    cases hd : q.describes past with
    | none =>
      obtain ⟨f, hf⟩ := ih.serve_eq_error hd
      rw [tableAfter_of_error hf]
      exact ih.cons fun name hq => declared_of_refused hd hq
    | some d =>
      rw [tableAfter_of_ok (ih.serve_eq_ok hd)]
      exact (ih.register hd).intern (backed_of_describes hd) rfl

theorem get_register (q : Request) (t : TypeTable) (ty : TypeId) : (q.register t).get ty = t.get ty := by
  have hdefs : (q.register t).defs = t.defs := by cases q <;> simp [Request.register]
  unfold TypeTable.get
  rw [hdefs]

/-- A request keeps the types that are there. -/
theorem get_cons (q : Request) {ty : TypeId} (h : (tableAfter past).get ty = .ok e) :
    (tableAfter (q :: past)).get ty = .ok e := by
  have hrec := records_tableAfter past
  cases hd : q.describes past with
  | none =>
    obtain ⟨f, hf⟩ := hrec.serve_eq_error hd
    rwa [tableAfter_of_error hf]
  | some d =>
    rw [tableAfter_of_ok (hrec.serve_eq_ok hd)]
    exact TypeTable.get_of_intern rfl ((get_register q _ ty).trans h)

theorem get_append (later : List Request) {ty : TypeId} (h : (tableAfter past).get ty = .ok e) :
    (tableAfter (later ++ past)).get ty = .ok e := by
  induction later with
  | nil => exact h
  | cons q later ih => exact get_cons q ih

/-- A request that describes a type is answered with the id that interning gives. -/
theorem answered_of_describes (hd : q.describes past = some d)
    (hid : ((q.register (tableAfter past)).intern d).1 = id) : Answered (q :: past) id d := by
  subst hid
  refine .now (t := ((q.register (tableAfter past)).intern d).2) hd ?_
  rw [Request.perform_eq, (records_tableAfter past).serve_eq_ok hd]
  rfl

/-- An id stands for the type that was asked for, or else for the same scalar with the other duplication,
which was asked for, too. -/
theorem get_of_answered (h : Answered past id d) : (tableAfter past).get id = .ok d ∨
    ∃ name copy, d = .scalar name copy ∧ (tableAfter past).get id = .ok (.scalar name (!copy)) := by
  induction h with
  | @now past q id d t hd hrun =>
    have hserve := (records_tableAfter past).serve_eq_ok hd
    rw [Request.perform_eq, hserve] at hrun
    obtain ⟨rfl, rfl⟩ := EStateM.Result.ok.inj hrun
    have htable := tableAfter_of_ok hserve
    rw [htable]
    rcases TypeTable.intern_cases (t := q.register (tableAfter past)) (d := d) rfl with
      ⟨hsame, e, he, hget, hkey⟩ | ⟨_, _, hget⟩
    · have hrec := (records_tableAfter past).register hd
      rw [hsame, hget]
      rcases (hrec.backed e he).eq_or_flipped (backed_of_describes hd) hkey with rfl | ⟨name, copy, rfl, rfl⟩
      · exact .inl rfl
      · exact .inr ⟨name, copy, rfl, rfl⟩
    · exact .inl hget
  | before _ ih =>
    rcases ih with hget | ⟨name, copy, rfl, hget⟩
    · exact .inl (get_cons _ hget)
    · exact .inr ⟨name, copy, rfl, get_cons _ hget⟩

theorem backed_of_answered (h : Answered past id d) : Backed past d := by
  induction h with
  | now hd _ => exact backed_of_describes hd
  | before _ ih => exact ih.cons

/-- Ids tell types apart by their keys. -/
theorem answered_id_iff {id' : TypeId} {d' : TypeDef} (h : Answered past id d) (h' : Answered past id' d') :
    id' = id ↔ d'.key = d.key := by
  have hkey : ∀ {id d}, Answered past id d → ∃ e, (tableAfter past).get id = .ok e ∧ e.key = d.key := by
    intro id d h
    rcases get_of_answered h with hget | ⟨name, copy, rfl, hget⟩
    · exact ⟨d, hget, rfl⟩
    · exact ⟨_, hget, rfl⟩
  obtain ⟨e, he, hekey⟩ := hkey h
  obtain ⟨e', he', hekey'⟩ := hkey h'
  constructor
  · rintro rfl
    obtain rfl := Except.ok.inj (he.symm.trans he')
    rw [← hekey, hekey']
  · intro heq
    exact (records_tableAfter past).id_unique he' he (by rw [hekey, hekey', heq])

theorem duplicates?_isSome {copy : Bool} (h : Request.scalar name copy ∈ past) :
    (earliest? (Request.duplicates? name) past).isSome = true := by
  induction past with
  | nil => cases h
  | cons q past ih =>
    rw [earliest?, Option.isSome_or, Bool.or_eq_true]
    rcases List.mem_cons.mp h with rfl | h
    · exact .inr (by simp [Request.duplicates?])
    · exact .inl (ih h)

/-- The first request for a scalar is answered with an id that stands for just this scalar. Had the
other duplication been stored, it would have been asked for before. -/
theorem get_of_earliest {copy : Bool} (h : earliest? (Request.duplicates? name) past = some copy) :
    ∃ id, Answered past id (.scalar name copy) ∧ (tableAfter past).get id = .ok (.scalar name copy) := by
  induction past with
  | nil => cases h
  | cons q past ih =>
    rcases Option.or_eq_some_iff.mp h with h | ⟨hnone, h⟩
    · obtain ⟨id, hid, hget⟩ := ih h
      exact ⟨id, hid.before, get_cons q hget⟩
    · cases q with
      | scalar n c =>
        simp only [Request.duplicates?, Option.ite_none_right_eq_some, Option.some.injEq] at h
        obtain ⟨rfl, rfl⟩ := h
        have hid : Answered (.scalar n c :: past) _ (.scalar n c) := answered_of_describes rfl rfl
        refine ⟨_, hid, (get_of_answered hid).resolve_right ?_⟩
        rintro ⟨name, copy, heq, hget⟩
        obtain ⟨rfl, rfl⟩ := TypeDef.scalar.inj heq
        obtain ⟨i, _, hi⟩ := TypeTable.get_eq_ok.mp hget
        have hmem : Request.scalar n (!c) ∈ Request.scalar n c :: past :=
          (records_tableAfter _).backed _ (List.mem_of_getElem? hi)
        have hpast := duplicates?_isSome ((List.mem_cons.mp hmem).resolve_left (by simp))
        rw [hnone] at hpast
        cases hpast
      | unit | unknown | ref | array | declare | aggregate => cases h

/-- An id stands for the type that was asked for, with the duplication of a scalar as it was asked for first. -/
theorem get_granted (h : Answered past id d) : (tableAfter past).get id = .ok (d.granted past) := by
  cases d with
  | scalar name copy =>
    obtain ⟨first, hfirst⟩ := Option.isSome_iff_exists.mp (duplicates?_isSome (backed_of_answered h))
    obtain ⟨id', h', hget⟩ := get_of_earliest hfirst
    obtain rfl : id = id' := (answered_id_iff h' h).mpr rfl
    rw [hget, TypeDef.granted, hfirst, Option.getD_some]
  | unit | unknown | ref | array | struct | enum =>
    refine (get_of_answered h).resolve_right ?_
    rintro ⟨_, _, heq, _⟩
    cases heq

/-- Requests share an id if they are for the same type or for scalars of the same name. -/
theorem shares_id_iff {id' : TypeId} {d' : TypeDef} (h : Answered past id d) (h' : Answered past id' d') :
    id' = id ↔ d' = d ∨ ∃ name copy, d = .scalar name copy ∧ d' = .scalar name (!copy) := by
  rw [answered_id_iff h h']
  constructor
  · exact (backed_of_answered h').eq_or_flipped (backed_of_answered h)
  · rintro (rfl | ⟨name, copy, rfl, rfl⟩)
    · rfl
    · rfl

/-- A request fails if it describes no type. -/
theorem describes_eq_none_iff : q.describes past = none ↔ ∃ f t, q.perform.run (tableAfter past) = .error f t := by
  rw [Request.perform_eq]
  cases hd : q.describes past with
  | some d => simp [(records_tableAfter past).serve_eq_ok hd, Request.inPlace]
  | none =>
    obtain ⟨f, hf⟩ := (records_tableAfter past).serve_eq_error hd
    simp [hf, Request.inPlace]

/-- Nothing comes of a request that fails. -/
theorem eq_of_error {f : TypeFault} (h : q.perform.run u = .error f t) : t = u := by
  rw [Request.perform_eq] at h
  cases hs : q.serve u <;> simp [hs, Request.inPlace] at h
  exact h.2.symm

end

/-- Type tables are faithful, but for the duplication of scalars. An id that a request was answered with stands
for the type that the request describes, whatever is requested later, where a scalar is duplicated as
in the first request for its name. Two requests have the same id if and only if they describe the same type, or
two scalars that only differ in duplication. A request fails if and only if it describes no type, and
then changes nothing. -/
theorem answers_faithful {history : List Request} {id : TypeId} {d : TypeDef} (h : Answered history id d) :
    (∀ later, (tableAfter (later ++ history)).get id = .ok (d.granted history)) ∧
    (∀ id' d', Answered history id' d' →
      (id' = id ↔ d' = d ∨ ∃ name copy, d = .scalar name copy ∧ d' = .scalar name (!copy))) ∧
    ∀ past (q : Request), (q.describes past = none ↔ ∃ f t, q.perform.run (tableAfter past) = .error f t) ∧
      ∀ f t, q.perform.run (tableAfter past) = .error f t → t = tableAfter past :=
  ⟨fun later => get_append later (get_granted h), fun _ _ => shares_id_iff h,
    fun _ _ => ⟨describes_eq_none_iff, fun _ _ => eq_of_error⟩⟩

/-- A struct is asked for too early, then declared as duplicated, declared again as an enum, and asked for with a
region. -/
def declarePair : List Request :=
  [.aggregate .struct "Pair" (some "'a"), .declare "Pair" (.enum {}) false,
    .declare "Pair" (.struct (.ofList [("left", 1), ("right", 2)])) true, .aggregate .struct "Pair" none,
    .ref 1 true none, .scalar "Int" true]

/-- The instance with the region is duplicated as it was declared, and no other id is given for it. -/
theorem answers_faithful_declarePair :
    Answered declarePair 4 (.struct "Pair" (some "'a") true) ∧
      (∀ later, (tableAfter (later ++ declarePair)).get 4 = .ok (.struct "Pair" (some "'a") true)) ∧
      ∀ id, Answered declarePair id (.struct "Pair" (some "'a") true) → id = 4 := by
  have hlast : Answered declarePair 4 (.struct "Pair" (some "'a") true) :=
    answered_of_describes (by decide) (by decide)
  obtain ⟨hstays, hshare, _⟩ := answers_faithful hlast
  exact ⟨hlast, hstays, fun id hid => (hshare id _ hid).mpr (.inl rfl)⟩

/-- A scalar is asked for with both duplications. -/
def requestTwice : List Request := [.scalar "Byte" false, .scalar "Byte" true]

/-- The second request is for a type that is not duplicated, and is answered with the id of one that is. -/
theorem scalar_duplicated_requestTwice :
    Answered requestTwice 1 (.scalar "Byte" false) ∧ Answered requestTwice 1 (.scalar "Byte" true) ∧
      (tableAfter requestTwice).get 1 = .ok (.scalar "Byte" true) :=
  ⟨answered_of_describes (by decide) (by decide), .before (answered_of_describes (by decide) (by decide)),
    TypeTable.get_eq_ok.mpr ⟨0, rfl, by decide⟩⟩

end Ownership
