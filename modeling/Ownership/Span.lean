/-!
Source spans. A span is best effort: any part of it may be unknown, and it
counts as known as soon as it names a line.
-/
namespace Ownership

structure Span where
  file : Option String := none
  line : Option Int := none
  column : Option Int := none
  endLine : Option Int := none
  endColumn : Option Int := none
  deriving DecidableEq, Repr, Inhabited

/-- A position as a front end hands it over, with two names for the file. -/
structure Location where
  file : Option String := none
  filename : Option String := none
  line : Option Int := none
  column : Option Int := none
  endLine : Option Int := none
  endColumn : Option Int := none
  deriving DecidableEq, Repr, Inhabited

/-- The text itself, unless it is empty. -/
def nonEmpty? (text : Option String) : Option String :=
  text.filter (· ≠ "")

/-- An integer as text, or a question mark where it is unknown. -/
def orUnknown (n : Option Int) : String :=
  n.elim "?" toString

namespace Span

def isKnown (s : Span) : Bool := s.line.isSome

/-- Supplies a file to a span that has none. -/
def withFile (s : Span) (file : Option String) : Span :=
  match s.file with
  | some _ => s
  | none => { s with file := file }

/-- The span of a location; an empty file name counts as none. -/
def ofLocation (l : Location) : Span where
  file := (nonEmpty? l.file).or (nonEmpty? l.filename)
  line := l.line
  column := l.column
  endLine := l.endLine
  endColumn := l.endColumn

/-- Prefers the detailed location when the front end filled it in. -/
def ofLocations (own : Location) (detailed : Option Location) : Span :=
  ofLocation (detailed.getD own)

def describe (s : Span) : String :=
  (nonEmpty? s.file).getD "<ir>" ++ ":" ++ orUnknown s.line ++ ":" ++ orUnknown s.column

end Span

end Ownership
