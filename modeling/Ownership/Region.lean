import Ownership.Effect
import Ownership.Signature

/-!
Region variables and their extents. A variable stands for the region of a
binding, a loan, an aggregate, a region parameter at one call, or a region of
the signature. Its extent is a set of points together with end markers, which
stand for what comes after the function returns.
-/
namespace Ownership

inductive RegionVar where
  | aggregate (site : Site)
  | binding (id : BindingId) (name : String)
  | call (site : Site) (region : String)
  | loan (site : Site)
  | universal (name : String)
  deriving DecidableEq, Repr, Inhabited

namespace RegionVar

def kind : RegionVar → String
  | aggregate _ => "aggregate"
  | binding .. => "binding"
  | call .. => "call"
  | loan _ => "loan"
  | universal _ => "universal"

def render : RegionVar → String
  | aggregate s => "aggregate@" ++ s.render
  | binding _ name => name
  | call s region => region ++ "@" ++ s.render
  | loan s => "loan@" ++ s.render
  | universal name => name

def isLoan : RegionVar → Bool
  | loan _ => true
  | _ => false

/-- By kind, then by id or site, then by name. -/
def le : RegionVar → RegionVar → Bool
  | aggregate s, aggregate t => s.le t
  | binding i a, binding j b => if i = j then a ≤ b else i ≤ j
  | call s a, call t b => if s = t then a ≤ b else s.le t
  | loan s, loan t => s.le t
  | universal a, universal b => a ≤ b
  | v, w => v.kind ≤ w.kind

def sort (vs : List RegionVar) : List RegionVar := sortBy le vs

end RegionVar

/-- Sorts texts by their characters. -/
def sortTexts (texts : List String) : List String := sortBy (fun a b => a ≤ b) texts

structure Extent where
  points : List Point := []
  ends : List String := []
  deriving DecidableEq, Repr, Inhabited

namespace Extent

/-- The extent with the listed points and ends, each counted once. -/
def ofLists (points : List Point) (ends : List String) : Extent := ⟨points.eraseDups, ends.eraseDups⟩

def contains (e : Extent) (p : Point) : Bool := e.points.contains p

def describe (e : Extent) : String :=
  let points := ", ".intercalate ((Point.sort e.points).map Point.render)
  let ends := (sortTexts e.ends).map fun m => " + end(" ++ m ++ ")"
  "\x7b" ++ points ++ "\x7d" ++ String.join ends

end Extent

/-- Every point and end of `sub` belongs to `sup`. -/
structure Constraint where
  sub : RegionVar
  sup : RegionVar
  span : Span
  deriving DecidableEq, Repr

end Ownership
