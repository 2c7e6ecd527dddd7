import Ownership.Graph
import Ownership.Function

/-!
Effects of a point: the accesses it makes, in order, the values that flow into
places, and the calls. All analyses read these, so they agree on the order of
evaluation and on the identity of every loan.
-/
namespace Ownership

inductive AccessKind where
  | read
  | move
  | write
  | borrowShared
  | borrowMut
  | inspect
  | init
  | declare
  | storageDead
  deriving DecidableEq, Repr

/-- Where in a point something is created: the point and a count of what came before it there. -/
structure Site where
  point : Point
  ordinal : Nat
  deriving DecidableEq, Repr, Inhabited

namespace Site

def render (s : Site) : String := s.point.render ++ "#" ++ toString s.ordinal

def le (s t : Site) : Bool :=
  if s.point = t.point then s.ordinal ≤ t.ordinal else s.point.le t.point

end Site

structure Access where
  kind : AccessKind
  place : Place
  span : Span
  ty : Option TypeId := none
  loan : Option Site := none
  deriving DecidableEq, Repr

def Access.isBorrow (a : Access) : Bool := a.kind = .borrowShared || a.kind = .borrowMut

/-- Where the references in a value may come from. -/
inductive Source where
  | loan (site : Site)
  | place (place : Place)
  | call (site : Site)
  | aggregate (site : Site) (parts : List (List Source))

abbrev Value := List Source

/-- A value is stored into a place. -/
structure Flow where
  dest : Place
  value : Value
  span : Span

structure CallSite where
  site : Site
  signature : Signature
  args : List Value
  span : Span

structure Effects where
  accesses : List Access := []
  flows : List Flow := []
  calls : List CallSite := []
  deriving Inhabited

/-- The effects of the reachable points, in reverse postorder. -/
structure EffectMap where
  entries : List (Point × Effects) := []
  deriving Inhabited

namespace EffectMap

def get (m : EffectMap) (p : Point) : Effects := (m.entries.lookup p).getD {}

def accesses (m : EffectMap) (p : Point) : List Access := (m.get p).accesses

end EffectMap

end Ownership
