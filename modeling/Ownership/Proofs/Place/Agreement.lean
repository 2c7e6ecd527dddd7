import Ownership.Proofs.Source.Resolving

/-!
Two ways to type a place. The reader goes down an expression and types each part
on its way back; the checker flattens the expression to a place first and walks
along its path, where a payload step takes two steps of the path. Both come to
the same type, and where a step does not fit, both stop there and blame the same
type for it.
-/
namespace Ownership

open Outcome

/-- The expression takes fields, elements, referents and payload fields of a variable in the table. -/
inductive Expr.IsPath (bindings : OrderedMap BindingId Binding) : Expr → Prop where
  | var {name : String} {id : BindingId} {loc : Span} {b : Binding} (h : bindings.get? id = some b) :
      IsPath bindings (.var name id loc)
  | field {subject : Expr} {name : String} {loc : Span} (h : IsPath bindings subject) :
      IsPath bindings (.field subject name loc)
  | index {subject position : Expr} {loc : Span} (h : IsPath bindings subject) :
      IsPath bindings (.index subject position loc)
  | deref {subject : Expr} {loc : Span} (h : IsPath bindings subject) : IsPath bindings (.deref subject loc)
  | payload {subject : Expr} {variant field : String} {loc : Span} (h : IsPath bindings subject) :
      IsPath bindings (.payload subject variant field loc)

namespace TypeTable

variable {t : TypeTable}

/-- A walk along a path that leaves no variant selected can be taken up at its end. -/
theorem walk_append {place : Place} {loc : Span} {ps : List Projection} (qs : List Projection) {ty : TypeId}
    {pending : Option String} (h : ps.foldl pendingAfter pending = none) :
    t.walk place loc ty pending (ps ++ qs) =
      t.walk place loc ty pending ps >>= fun mid => t.walk place loc mid none qs := by
  induction ps generalizing ty pending with
  | nil =>
    obtain rfl : pending = none := h
    rfl
  | cons p ps ih =>
    rw [List.cons_append, walk, walk]
    cases Fault.ofTypes (t.step? ty pending p) with
    | error f => rfl
    | ok next =>
      cases next with
      | some next => exact ih h
      | none => cases Fault.ofTypes (t.describe (some ty)) <;> rfl

end TypeTable

/-- The reader and the checker come to the same type, or both find a type without the part that the place
goes on to, or both ask for a type that the table does not have. -/
inductive TypedAlike (t : TypeTable) (place : Place) (loc : Span) :
    Read (TypeId × TypeTable) → Except Fault TypeId → Prop where
  | ok (ty : TypeId) : TypedAlike t place loc (.ok (ty, t)) (.ok ty)
  | illTyped (owner : String) (span : Span) (step : Projection) :
      TypedAlike t place loc (.error ⟨.illTyped owner, span⟩) (.error (.breach (.illTypedStep place owner step) loc))
  | types (f : TypeFault) (span : Span) : TypedAlike t place loc (.error ⟨.types f, span⟩) (.error (.types f))

namespace TypedAlike

variable {t : TypeTable} {place : Place} {loc : Span} {x : Read (TypeId × TypeTable)} {y : Except Fault TypeId}

theorem bind (h : TypedAlike t place loc x y) {f : TypeId × TypeTable → Read (TypeId × TypeTable)}
    {g : TypeId → Except Fault TypeId} (hnext : ∀ ty, TypedAlike t place loc (f (ty, t)) (g ty)) :
    TypedAlike t place loc (x >>= f) (y >>= g) := by
  cases h with
  | ok ty => exact hnext ty
  | illTyped owner span step => exact .illTyped owner span step
  | types f span => exact .types f span

theorem eq_ok_iff (h : TypedAlike t place loc x y) {ty : TypeId} {u : TypeTable} :
    x = .ok (ty, u) ↔ u = t ∧ y = .ok ty := by
  cases h <;> simp [and_comm, eq_comm]

theorem error_iff (h : TypedAlike t place loc x y) : (∃ e, x = .error e) ↔ ∃ f, y = .error f := by
  cases h <;> simp

theorem illTyped_iff (h : TypedAlike t place loc x y) {owner : String} :
    (∃ span, x = .error ⟨.illTyped owner, span⟩) ↔
      ∃ step, y = .error (.breach (.illTypedStep place owner step) loc) := by
  cases h <;> simp

/-- One step more: the reader looks the part up, and the checker takes the last step of its path. -/
theorem last (cx : ReadContext) (r : Surface.Range) (ty : TypeId) (pending : Option String) (p : Projection)
    (h : TypeTable.pendingAfter pending p = none) :
    TypedAlike t place loc (cx.partType r t ty (t.step? ty pending p)) (t.walk place loc ty pending [p]) := by
  rw [ReadContext.partType, TypeTable.walk]
  cases t.step? ty pending p with
  | error f => exact .types f _
  | ok next =>
    cases next with
    | some next =>
      have hend : t.walk place loc next (TypeTable.pendingAfter pending p) [] = .ok next := by rw [h]; rfl
      show TypedAlike t place loc (.ok (next, t)) (t.walk place loc next (TypeTable.pendingAfter pending p) [])
      rw [hend]
      exact .ok next
    | none =>
      cases t.describe (some ty) with
      | error f => exact .types f _
      | ok owner => exact .illTyped owner _ p

end TypedAlike

/-- An index is one step, to a literal position or to any, and leads to the type of the elements. -/
theorem Place.ofExpr?_index (subject position : Expr) (loc : Span) : ∃ step,
    ofExpr? (.index subject position loc) = (ofExpr? subject).map (·.push step) ∧
      ∀ (t : TypeTable) ty, t.step? ty none step = t.elementType ty ∧ TypeTable.pendingAfter none step = none := by
  cases position with
  | int i _ => exact ⟨.element i, rfl, fun _ _ => ⟨rfl, rfl⟩⟩
  | _ => exact ⟨.anyElement, rfl, fun _ _ => ⟨rfl, rfl⟩⟩

/-- The place of an expression starts at a binding of the table, its path leaves no variant selected, and the
walk along it agrees with the reader, whatever place is named in errors. -/
structure Flattened (cx : ReadContext) (bindings : OrderedMap BindingId Binding) (r : Surface.Range) (t : TypeTable)
    (loc : Span) (e : Expr) (place : Place) : Prop where
  ofExpr : Place.ofExpr? e = some place
  settled : place.path.foldl TypeTable.pendingAfter none = none
  root : ∃ b, bindings.get? place.root = some b ∧ ∀ whole,
    TypedAlike t whole loc (cx.typeOf bindings r e t) (t.walk whole loc b.ty none place.path)

namespace Flattened

variable {cx : ReadContext} {bindings : OrderedMap BindingId Binding} {r : Surface.Range} {t : TypeTable} {loc : Span}
  {e subject : Expr} {place : Place}

/-- An expression that looks up a part of another one goes on with the steps for it. -/
theorem extend (h : Flattened cx bindings r t loc subject place) (steps : List Projection)
    (part : TypeId → TypeTable → Except TypeFault (Option TypeId))
    (hplace : Place.ofExpr? e = some { place with path := place.path ++ steps })
    (hread : cx.typeOf bindings r e t =
      cx.typeOf bindings r subject t >>= fun x => cx.partType r x.2 x.1 (part x.1 x.2))
    (hsettled : steps.foldl TypeTable.pendingAfter none = none)
    (hsteps : ∀ whole ty, TypedAlike t whole loc (cx.partType r t ty (part ty t)) (t.walk whole loc ty none steps)) :
    Flattened cx bindings r t loc e { place with path := place.path ++ steps } := by
  obtain ⟨b, hroot, hagree⟩ := h.root
  refine ⟨hplace, by rw [List.foldl_append, h.settled, hsettled], b, hroot, fun whole => ?_⟩
  rw [hread, TypeTable.walk_append steps h.settled]
  exact (hagree whole).bind fun ty => hsteps whole ty

end Flattened

theorem Expr.IsPath.flattened {bindings : OrderedMap BindingId Binding} {e : Expr} (he : e.IsPath bindings)
    (cx : ReadContext) (r : Surface.Range) (t : TypeTable) (loc : Span) :
    ∃ place, Flattened cx bindings r t loc e place := by
  induction he with
  | @var name id l b h =>
    refine ⟨{ root := id, name := name }, rfl, rfl, b, h, fun whole => ?_⟩
    rw [ReadContext.typeOf, h]
    exact .ok b.ty
  | @field subject name l _ ih =>
    obtain ⟨place, ih⟩ := ih
    refine ⟨_, ih.extend [.field name] (fun ty t => t.fieldType ty name) ?_ rfl rfl
      fun _ ty => .last cx r ty none (.field name) rfl⟩
    rw [Place.ofExpr?, ih.ofExpr]
    rfl
  | @index subject position l _ ih =>
    obtain ⟨place, ih⟩ := ih
    obtain ⟨step, hplace, hstep⟩ := Place.ofExpr?_index subject position l
    refine ⟨_, ih.extend [step] (fun ty t => t.elementType ty) ?_ rfl (hstep t 0).2 fun whole ty => ?_⟩
    · rw [hplace, ih.ofExpr]
      rfl
    · rw [← (hstep t ty).1]
      exact .last cx r ty none step (hstep t ty).2
  | @deref subject l _ ih =>
    obtain ⟨place, ih⟩ := ih
    refine ⟨_, ih.extend [.deref] (fun ty t => t.pointee ty) ?_ rfl rfl
      fun _ ty => .last cx r ty none .deref rfl⟩
    rw [Place.ofExpr?, ih.ofExpr]
    rfl
  | @payload subject variant name l _ ih =>
    obtain ⟨place, ih⟩ := ih
    refine ⟨_, ih.extend [.downcast variant, .field name] (fun ty t => t.payloadType ty variant name) ?_ rfl rfl
      fun whole ty => ?_⟩
    · rw [Place.ofExpr?, ih.ofExpr]
      simp [Place.push]
    · exact .last cx r ty (some variant) (.field name) rfl

/-- The reader and the checker type places alike. For every expression that takes parts of a variable in the
table, the reader comes to a type, without changing the type table, if and only if the checker comes to this
type for the place of the expression. One fails if and only if the other does, and if it is for a
type that has no such part, both name the same type. -/
theorem typeOf_agrees (cx : ReadContext) (r : Surface.Range) (f : Function) (types : TypeTable) (loc : Span) {e : Expr}
    (he : e.IsPath f.bindings) : ∃ place, Place.ofExpr? e = some place ∧
      (∀ ty u, cx.typeOf f.bindings r e types = .ok (ty, u) ↔ u = types ∧ f.typeOf types place loc = .ok ty) ∧
      ((∃ error, cx.typeOf f.bindings r e types = .error error) ↔ ∃ fault, f.typeOf types place loc = .error fault) ∧
      ∀ owner, (∃ span, cx.typeOf f.bindings r e types = .error ⟨.illTyped owner, span⟩) ↔
        ∃ step, f.typeOf types place loc = .error (.breach (.illTypedStep place owner step) loc) := by
  obtain ⟨place, hplace, _, b, hroot, hagree⟩ := he.flattened cx r types loc
  have hchecker : f.typeOf types place loc = types.walk place loc b.ty none place.path := by
    simp [Function.typeOf, Function.binding, hroot, bind, Except.bind]
  refine ⟨place, hplace, ?_⟩
  rw [hchecker]
  exact ⟨fun _ _ => (hagree place).eq_ok_iff, (hagree place).error_iff, fun _ => (hagree place).illTyped_iff⟩

/-- A reference to a box with an array of optional numbers. -/
def boxTypes : TypeTable where
  defs := [.scalar "Int" true, .enum "Option" none false, .array 2, .struct "Box" none false, .ref 4 false none]
  structs := .ofList [("Box", .ofList [("items", 3)])]
  enums := .ofList [("Option", .ofList [("Some", [1]), ("None", [])])]

def boxReader : Function :=
  { (default : Function) with bindings := .ofList [(1, { id := 1, name := "p", ty := 5 })] }

/-- The number in the first item, with a step of each kind. -/
def firstNumber : Expr :=
  .payload (.index (.field (.deref (.var "p" 1 {}) {}) "items" {}) (.int 0 {}) {}) "Some" "0" {}

/-- Both find the number, and both find that it has no fields. -/
theorem typeOf_agrees_firstNumber : firstNumber.IsPath boxReader.bindings ∧
    (∃ place, Place.ofExpr? firstNumber = some place ∧ boxReader.typeOf boxTypes place {} = .ok 1) ∧
    ∃ place step, Place.ofExpr? (.field firstNumber "len" {}) = some place ∧
      boxReader.typeOf boxTypes place {} = .error (.breach (.illTypedStep place "Int" step) {}) := by
  have hpath : firstNumber.IsPath boxReader.bindings := .payload (.index (.field (.deref (.var rfl))))
  obtain ⟨place, hplace, hok, _⟩ := typeOf_agrees default default boxReader boxTypes {} hpath
  have hread : ReadContext.typeOf default boxReader.bindings default firstNumber boxTypes = .ok (1, boxTypes) := rfl
  obtain ⟨beyond, hbeyond, _, _, hill⟩ := typeOf_agrees default default boxReader boxTypes {} hpath.field
  have hfails : ∃ span, ReadContext.typeOf default boxReader.bindings default (.field firstNumber "len" {}) boxTypes =
      .error ⟨.illTyped "Int", span⟩ := ⟨_, rfl⟩
  obtain ⟨step, hstep⟩ := (hill "Int").mp hfails
  exact ⟨hpath, ⟨place, hplace, ((hok 1 boxTypes).mp hread).2⟩, beyond, step, hbeyond, hstep⟩

end Ownership
