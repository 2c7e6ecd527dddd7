import Ownership.Place

/-!
Move states: what is known at a point of the places that were initialized,
moved or never set. A place takes the state of the shallowest entry around it
that is not initialized; if there is none, it is partly gone as soon as an
entry inside it is. At a join, moved wins over never set, and that over
initialized.
-/
namespace Ownership

inductive PlaceState where
  | init
  | partly
  | moved
  | uninit
  deriving DecidableEq, Repr

def PlaceState.join (a b : PlaceState) : PlaceState :=
  if a = b then a
  else if a = .moved || b = .moved then .moved
  else if a = .uninit || b = .uninit then .uninit
  else .init

/-- A place whose state is stored; `site` tells where it was moved from. -/
structure MoveEntry where
  place : Place
  state : PlaceState
  site : Option Span := none
  deriving DecidableEq, Repr

namespace MoveEntry

/-- Blocks every place it contains. -/
def blocks (e : MoveEntry) (p : Place) : Bool :=
  e.state ≠ .init && (e.place.compare p = .equal || e.place.compare p = .contains)

/-- Lies inside a place and is gone. -/
def dents (e : MoveEntry) (p : Place) : Bool :=
  e.state ≠ .init && e.place.compare p = .within

def depth (e : MoveEntry) : Nat := e.place.path.length

end MoveEntry

structure MoveState where
  entries : List MoveEntry := []
  deriving DecidableEq, Repr, Inhabited

namespace MoveState

def find? (s : MoveState) (p : Place) : Option MoveEntry := s.entries.find? (·.place.same p)

/-- Stores a state; a place that is present keeps its position. -/
def store (s : MoveState) (p : Place) (state : PlaceState) : MoveState :=
  if (s.find? p).isSome then
    ⟨s.entries.map fun e => if e.place.same p then { e with state := state } else e⟩
  else ⟨s.entries ++ [⟨p, state, none⟩]⟩

def ofList (pairs : List (Place × PlaceState)) : MoveState :=
  pairs.foldl (fun s e => s.store e.1 e.2) {}

/-- The shallower of two entries, the first one on a tie. -/
def shallower (best : Option MoveEntry) (e : MoveEntry) : Option MoveEntry :=
  match best with
  | none => some e
  | some b => if e.depth < b.depth then some e else some b

/-- The shallowest entry that blocks a place. -/
def blocker? (s : MoveState) (p : Place) : Option MoveEntry :=
  (s.entries.filter (·.blocks p)).foldl shallower none

/-- The state that a place has from the entries around it. -/
def ownState (s : MoveState) (p : Place) : PlaceState :=
  (s.blocker? p).elim .init MoveEntry.state

/-- The state of a place, and the entry that is responsible for it. -/
def lookup (s : MoveState) (p : Place) : PlaceState × Option MoveEntry :=
  match s.blocker? p with
  | some e => (e.state, some e)
  | none =>
    match s.entries.find? (·.dents p) with
    | some e => (.partly, some e)
    | none => (.init, none)

def stateOf (s : MoveState) (p : Place) : PlaceState := (s.lookup p).1

/-- Forgets a place and the places spelled as parts of it. -/
def clearBelow (s : MoveState) (p : Place) : MoveState :=
  ⟨s.entries.filter fun e =>
    !(e.place.root = p.root && e.place.path.take p.path.length = p.path)⟩

def put (s : MoveState) (p : Place) (state : PlaceState) (site : Option Span) : MoveState :=
  ⟨(s.clearBelow p).entries ++ [⟨p, state, site⟩]⟩

/-- A write at an unknown position may miss the element that was moved, so it restores nothing. -/
def setInit (s : MoveState) (p : Place) : MoveState :=
  if p.isExact then s.put p .init none else s

def setMoved (s : MoveState) (p : Place) (span : Span) : MoveState := s.put p .moved (some span)

def setUninit (s : MoveState) (p : Place) : MoveState := s.put p .uninit none

/-- The stored places of both states, those of the first state first. -/
def stored (s t : MoveState) : List Place :=
  s.entries.map MoveEntry.place ++
    (t.entries.filter fun e => (s.find? e.place).isNone).map MoveEntry.place

/-- The state after a join, where a move site of the first state is preferred. -/
def merged (s t : MoveState) : MoveState :=
  ⟨(stored s t).map fun p =>
    let state := (s.ownState p).join (t.ownState p)
    let site := ((s.find? p).bind MoveEntry.site).or ((t.find? p).bind MoveEntry.site)
    ⟨p, state, if state = .moved then site else none⟩⟩

/-- Every entry is also in the other state, moved from somewhere there iff it is here. -/
def within (s t : MoveState) : Bool :=
  s.entries.all fun e => (t.find? e.place).any fun f =>
    f.state = e.state && f.site.isSome = e.site.isSome

def sameAs (s t : MoveState) : Bool := s.within t && t.within s

end MoveState

end Ownership
