import Ownership.Proofs.Graph.Paths
import Ownership.Proofs.Place.Storage

/-!
Running a function on a concrete memory. Memory maps addresses to pointers and
leaves out all other data: positions that the text does not fix and the outcomes
of branches are arbitrary anyway. A place denotes the address that its steps
lead to, where a dereference goes on at the target of the pointer stored there.
A value is what it holds by way of pointers. Uses by value copy them, borrows
make new ones, stores replace all that the overwritten storage holds.
-/
namespace Ownership

/-- What storage belongs to: a binding, or something outside the function. -/
inductive Root where
  | binding (id : BindingId)
  | outside (n : Nat)
  deriving DecidableEq, Repr

structure Address where
  root : Root
  path : List Step := []
  deriving DecidableEq, Repr

namespace Address

def extend (a : Address) (steps : List Step) : Address := { a with path := a.path ++ steps }

@[simp] theorem extend_root (a : Address) (steps : List Step) : (a.extend steps).root = a.root := rfl

@[simp] theorem extend_nil (a : Address) : a.extend [] = a := by simp [extend]

@[simp] theorem extend_extend (a : Address) (xs ys : List Step) :
    (a.extend xs).extend ys = a.extend (xs ++ ys) := by simp [extend]

/-- What is left of a path after an initial part. -/
def rest? : List Step → List Step → Option (List Step)
  | [], ys => some ys
  | _ :: _, [] => none
  | x :: xs, y :: ys => if x = y then rest? xs ys else none

theorem rest?_eq_some {xs ys zs : List Step} : rest? xs ys = some zs ↔ ys = xs ++ zs := by
  induction xs generalizing ys with
  | nil => simp [rest?]
  | cons x xs ih =>
    cases ys with
    | nil => simp [rest?]
    | cons y ys =>
      by_cases h : x = y
      · simp [rest?, h, ih]
      · simp [rest?, h, Ne.symm h]

/-- The steps from one address to another one inside it. -/
def stepsTo? (a b : Address) : Option (List Step) := if b.root = a.root then rest? a.path b.path else none

theorem stepsTo?_eq_some {a b : Address} {steps : List Step} :
    a.stepsTo? b = some steps ↔ b = a.extend steps := by
  obtain ⟨root, path⟩ := a
  obtain ⟨root', path'⟩ := b
  by_cases h : root' = root
  · simp [stepsTo?, h, rest?_eq_some, extend]
  · simp [stepsTo?, h, extend]

end Address

/-- A pointer, with the number of times that the storage of its target's binding had ended when it
was made. -/
structure Pointer where
  target : Address
  birth : Nat := 0
  deriving DecidableEq, Repr

/-- The pointers that a value holds, by the steps that lead to them. -/
abbrev Contents := List Step → Option Pointer

namespace Contents

def empty : Contents := fun _ => none

def pointer (p : Pointer) : Contents
  | [] => some p
  | _ :: _ => none

/-- What an aggregate holds, from what the values of its fields hold. -/
def fields (inits : List FieldInit) (values : Nat → Contents) : Contents
  | .field name :: rest => (inits.findIdx? (·.name = name)).bind fun i => values i rest
  | _ => none

/-- What a variant holds, from what the values of its payload hold. -/
def payload (variant : String) (size : Nat) (values : Nat → Contents) : Contents
  | .downcast v :: .field name :: rest =>
    if v = variant then
      match Numeral.read? name with
      | some (.ofNat i) => if i < size then values i rest else none
      | _ => none
    else none
  | _ => none

theorem fields_eq_some {inits : List FieldInit} {values : Nat → Contents} {steps : List Step} {p : Pointer}
    (h : fields inits values steps = some p) :
    ∃ i init rest, inits[i]? = some init ∧ steps = .field init.name :: rest ∧ values i rest = some p := by
  unfold fields at h
  split at h
  · rename_i name rest
    obtain ⟨i, hi, hp⟩ := Option.bind_eq_some_iff.mp h
    obtain ⟨hlt, hname, _⟩ := List.findIdx?_eq_some_iff_getElem.mp hi
    exact ⟨i, inits[i], rest, List.getElem?_eq_getElem hlt, by rw [of_decide_eq_true hname], hp⟩
  · cases h

theorem payload_eq_some {variant : String} {args : List Expr} {values : Nat → Contents} {steps : List Step}
    {p : Pointer} (h : payload variant args.length values steps = some p) :
    ∃ i arg name rest, args[i]? = some arg ∧ Numeral.read? name = some (.ofNat i) ∧
      steps = .downcast variant :: .field name :: rest ∧ values i rest = some p := by
  unfold payload at h
  split at h
  · rename_i v name rest
    split at h
    · rename_i hv
      split at h
      · rename_i i hi
        split at h
        · rename_i hlt
          exact ⟨i, args[i], name, rest, List.getElem?_eq_getElem hlt, hi, by rw [hv], h⟩
        · cases h
      · cases h
    · cases h
  · cases h

end Contents

/-- The pointers in memory, and how often the storage of each binding has ended. -/
structure Memory where
  cells : Address → Option Pointer
  ended : BindingId → Nat

namespace Memory

def read (m : Memory) (a : Address) : Contents := fun steps => m.cells (a.extend steps)

/-- Replaces all that the storage at an address holds. -/
def write (m : Memory) (a : Address) (v : Contents) : Memory :=
  { m with cells := fun b => (a.stepsTo? b).elim (m.cells b) v }

/-- A new pointer to an address. -/
def pointTo (m : Memory) (a : Address) : Pointer where
  target := a
  birth := match a.root with
    | .binding id => m.ended id
    | .outside _ => 0

/-- Leaves the storage of a binding without a value. -/
def clear (m : Memory) (id : BindingId) : Memory := m.write ⟨.binding id, []⟩ .empty

/-- Ends the storage of a binding. -/
def finish (m : Memory) (id : BindingId) : Memory :=
  { m.clear id with ended := fun b => if b = id then m.ended b + 1 else m.ended b }

/-- The storage that the pointer points at has ended since the pointer was made. -/
def Dangling (m : Memory) (p : Pointer) : Prop :=
  ∃ id, p.target.root = .binding id ∧ p.birth < m.ended id

/-- A pointer in memory after a write is part of what was written, or was there before. -/
theorem write_cells {m : Memory} {a b : Address} {v : Contents} {p : Pointer}
    (h : (m.write a v).cells b = some p) :
    (∃ steps, b = a.extend steps ∧ v steps = some p) ∨
      (∀ steps, b ≠ a.extend steps) ∧ m.cells b = some p := by
  cases hs : a.stepsTo? b with
  | some steps =>
    exact .inl ⟨steps, Address.stepsTo?_eq_some.mp hs, by simpa [write, hs] using h⟩
  | none =>
    refine .inr ⟨fun steps he => ?_, by simpa [write, hs] using h⟩
    rw [Address.stepsTo?_eq_some.mpr he] at hs
    cases hs

theorem clear_cells {m : Memory} {id : BindingId} {b : Address} {p : Pointer}
    (h : (m.clear id).cells b = some p) : b.root ≠ .binding id ∧ m.cells b = some p := by
  rcases write_cells h with ⟨steps, _, hnone⟩ | ⟨hne, hp⟩
  · cases hnone
  · refine ⟨fun he => hne b.path ?_, hp⟩
    rw [← he]
    rfl

end Memory

/-- The storage of a whole binding. -/
def BindingId.address (id : BindingId) : Address := ⟨.binding id, []⟩

/-- Following a path from an address leads to another one. -/
inductive Resolves (m : Memory) : Address → List Projection → Address → Prop where
  | nil (a : Address) : Resolves m a [] a
  | step {a b : Address} {p : Projection} {s : Step} {rest : List Projection} (hs : p.Admits s)
      (hp : p ≠ .deref) (h : Resolves m (a.extend [s]) rest b) : Resolves m a (p :: rest) b
  | deref {a b : Address} {ptr : Pointer} {rest : List Projection} (hc : m.cells a = some ptr)
      (h : Resolves m ptr.target rest b) : Resolves m a (.deref :: rest) b

/-- Following a path from an address goes through a pointer. -/
inductive Crosses (m : Memory) : Address → List Projection → Pointer → Prop where
  | here {a : Address} {ptr : Pointer} {rest : List Projection} (hc : m.cells a = some ptr) :
      Crosses m a (.deref :: rest) ptr
  | step {a : Address} {ptr : Pointer} {p : Projection} {s : Step} {rest : List Projection}
      (hs : p.Admits s) (hp : p ≠ .deref) (h : Crosses m (a.extend [s]) rest ptr) :
      Crosses m a (p :: rest) ptr
  | deref {a : Address} {ptr ptr' : Pointer} {rest : List Projection} (hc : m.cells a = some ptr)
      (h : Crosses m ptr.target rest ptr') : Crosses m a (.deref :: rest) ptr'

/-- What the value of an expression without calls can hold. -/
inductive Evaluates (m : Memory) : Expr → Contents → Prop where
  | place {e : Expr} {place : Place} {a : Address} (hp : Place.ofExpr? e = some place)
      (h : Resolves m place.root.address place.path a) : Evaluates m e (m.read a)
  | borrow {subject : Expr} {mutable : Bool} {loc : Span} {place : Place} {a : Address}
      (hp : Place.ofExpr? subject = some place) (h : Resolves m place.root.address place.path a) :
      Evaluates m (.borrow subject mutable loc) (.pointer (m.pointTo a))
  | int (value : Int) (loc : Span) : Evaluates m (.int value loc) .empty
  | bool (value : Bool) (loc : Span) : Evaluates m (.bool value loc) .empty
  | unit (loc : Span) : Evaluates m (.unit loc) .empty
  | unary (op : UnaryOp) (e : Expr) (loc : Span) : Evaluates m (.unary op e loc) .empty
  | binary (op : BinaryOp) (left right : Expr) (loc : Span) : Evaluates m (.binary op left right loc) .empty
  | construct {ty : TypeId} {inits : List FieldInit} {loc : Span} {values : Nat → Contents}
      (h : ∀ i f, inits[i]? = some f → Evaluates m f.value (values i)) :
      Evaluates m (.construct ty inits loc) (.fields inits values)
  | inject {ty : TypeId} {variant : String} {args : List Expr} {loc : Span} {values : Nat → Contents}
      (h : ∀ i e, args[i]? = some e → Evaluates m e (values i)) :
      Evaluates m (.inject ty variant args loc) (.payload variant args.length values)

/-- What a statement does to memory. -/
inductive Executes (m : Memory) : Stmt → Memory → Prop where
  | storageDead (id : BindingId) (name : String) (loc : Span) :
      Executes m (.storageDead id name loc) (m.finish id)
  | declare (name : String) (id : BindingId) (loc : Span) :
      Executes m (.declare name id none loc) (m.clear id)
  | init {name : String} {id : BindingId} {e : Expr} {loc : Span} {v : Contents} (hv : Evaluates m e v) :
      Executes m (.declare name id (some e) loc) (m.write id.address v)
  | assign {target e : Expr} {loc : Span} {place : Place} {a : Address} {v : Contents}
      (hv : Evaluates m e v) (hp : Place.ofExpr? target = some place)
      (h : Resolves m place.root.address place.path a) :
      Executes m (.assign target e loc) (m.write a v)
  | eval (e : Expr) (loc : Span) : Executes m (.eval e loc) m

/-- What a point does to memory; the end of a block only chooses where to go on. -/
def Graph.Runs (g : Graph) (p : Point) (m m' : Memory) : Prop :=
  match g.statementAt p with
  | some s => Executes m s m'
  | none => m' = m

/-- Some path from the entry reaches a point with this memory. -/
def MemoryAt (g : Graph) (start : Memory → Prop) : Point → Memory → Prop :=
  g.Reaches start fun p _ m m' => g.Runs p m m'

end Ownership
