import Ownership.Expr

/-!
Places: a root binding and a path of projections. Every analysis asks the same
question of two places, namely whether they may share storage, and which one
then contains the other. The name of the root is kept for messages only.
-/
namespace Ownership

inductive Projection where
  | field (name : String)
  | element (position : Int)
  | anyElement
  | deref
  | downcast (variant : String)
  deriving DecidableEq, Repr

namespace Projection

def render : Projection → String
  | field name => "." ++ name
  | element i => "[" ++ toString i ++ "]"
  | anyElement => "[_]"
  | deref => "*"
  | downcast variant => " as " ++ variant

/-- The two steps select different storage, whatever an unknown position is. -/
def apart : Projection → Projection → Bool
  | field a, field b => a ≠ b
  | downcast a, downcast b => a ≠ b
  | element i, element j => i ≠ j
  | _, _ => false

/-- The text of a place one step further in. -/
def extend (text : String) : Projection → String
  | deref => "(*" ++ text ++ ")"
  | downcast variant => "(" ++ text ++ " as " ++ variant ++ ")"
  | p => text ++ p.render

@[simp] theorem apart_self (p : Projection) : p.apart p = false := by
  cases p <;> simp [apart]

theorem apart_comm (p q : Projection) : p.apart q = q.apart p := by
  cases p <;> cases q <;> simp [apart, eq_comm]

end Projection

structure Place where
  root : BindingId
  path : List Projection := []
  name : String := ""
  deriving DecidableEq, Repr, Inhabited

/-- How the storage of a first place lies to that of a second. -/
inductive Overlap where
  | disjoint
  | equal
  | contains
  | within
  deriving DecidableEq, Repr

def Overlap.swap : Overlap → Overlap
  | disjoint => disjoint
  | equal => equal
  | contains => within
  | within => contains

namespace Place

/-- The same root and path, whatever the root is called. -/
def same (a b : Place) : Bool := a.root = b.root && a.path = b.path

def push (p : Place) (step : Projection) : Place := { p with path := p.path ++ [step] }

/-- The bare root, then every longer part of the place, and last the place itself. -/
def prefixes (p : Place) : List Place :=
  (List.range (p.path.length + 1)).map fun n => { p with path := p.path.take n }

def parent (p : Place) : Option Place :=
  if p.path.isEmpty then none else some { p with path := p.path.dropLast }

def isRoot (p : Place) : Bool := p.path.isEmpty

/-- The storage is reached through a reference. -/
def throughDeref (p : Place) : Bool := p.path.contains .deref

/-- No step has an unknown position, so the place is one location. -/
def isExact (p : Place) : Bool := !p.path.contains .anyElement

def render (p : Place) : String :=
  p.path.foldl Projection.extend (if p.name = "" then "_" ++ toString p.root else p.name)

/-- Steps that might select the same storage count as equal. -/
def comparePaths : List Projection → List Projection → Overlap
  | [], [] => .equal
  | [], _ :: _ => .contains
  | _ :: _, [] => .within
  | p :: ps, q :: qs => if p.apart q then .disjoint else comparePaths ps qs

def compare (a b : Place) : Overlap :=
  if a.root = b.root then comparePaths a.path b.path else .disjoint

def conflicts (a b : Place) : Bool := a.compare b ≠ .disjoint

/-- Overwriting `target` keeps the storage of `loaned`: it lies behind a reference in it. -/
def overwriteSpares (target loaned : Place) : Bool :=
  target.compare loaned = .contains && (loaned.path.drop target.path.length).contains .deref

/-- The place that an expression denotes, if it denotes one. -/
def ofExpr? : Expr → Option Place
  | .var name id _ => some { root := id, name := name }
  | .field subject name _ => (ofExpr? subject).map (·.push (.field name))
  | .index subject (.int i _) _ => (ofExpr? subject).map (·.push (.element i))
  | .index subject _ _ => (ofExpr? subject).map (·.push .anyElement)
  | .deref subject _ => (ofExpr? subject).map (·.push .deref)
  | .payload subject variant field _ =>
    (ofExpr? subject).map fun p => (p.push (.downcast variant)).push (.field field)
  | _ => none

@[simp] theorem same_refl (p : Place) : p.same p = true := by simp [same]

theorem comparePaths_swap (ps qs : List Projection) :
    comparePaths qs ps = (comparePaths ps qs).swap := by
  induction ps generalizing qs with
  | nil => cases qs <;> rfl
  | cons p ps ih =>
    cases qs with
    | nil => rfl
    | cons q qs =>
      rw [comparePaths, comparePaths, Projection.apart_comm q p]
      split
      · rfl
      · exact ih qs

theorem compare_swap (a b : Place) : b.compare a = (a.compare b).swap := by
  unfold compare
  by_cases h : a.root = b.root
  · rw [if_pos h, if_pos h.symm, comparePaths_swap]
  · rw [if_neg h, if_neg (Ne.symm h)]
    rfl

end Place

end Ownership
