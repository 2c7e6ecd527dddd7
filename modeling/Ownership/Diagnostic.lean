import Ownership.Span

/-!
Diagnostics and the report that collects them. Passes may meet one violation
several times, so a report keeps only the first diagnostic of each identity:
kind, message, span and related spans. Severity, phase and notes are no part
of that identity.
-/
namespace Ownership

inductive DiagnosticKind where
  | useAfterMove
  | useOfUninitialized
  | conflictingBorrow
  | useWhileBorrowed
  | danglingReference
  | unreachableCode
  deriving DecidableEq, Repr

namespace DiagnosticKind

def code : DiagnosticKind → String
  | useAfterMove => "UseAfterMove"
  | useOfUninitialized => "UseOfUninitialized"
  | conflictingBorrow => "ConflictingBorrow"
  | useWhileBorrowed => "UseWhileBorrowed"
  | danglingReference => "DanglingReference"
  | unreachableCode => "UnreachableCode"

def all : List DiagnosticKind :=
  [useAfterMove, useOfUninitialized, conflictingBorrow, useWhileBorrowed, danglingReference,
    unreachableCode]

def ofCode? (code : String) : Option DiagnosticKind :=
  all.find? (·.code = code)

end DiagnosticKind

/-- A secondary location, such as the place of an earlier move. -/
structure Related where
  span : Span
  label : String
  deriving DecidableEq, Repr, Inhabited

structure Diagnostic where
  message : String
  kind : Option DiagnosticKind := none
  phase : Option String := some "borrowcheck"
  severity : String := "error"
  span : Span := {}
  related : List Related := []
  notes : List String := []
  deriving DecidableEq, Repr, Inhabited

namespace Diagnostic

def code (d : Diagnostic) : Option String := d.kind.map DiagnosticKind.code

def isError (d : Diagnostic) : Bool := d.severity = "error"

/-- Two diagnostics report the same violation. -/
def same (d e : Diagnostic) : Bool :=
  d.kind = e.kind && d.message = e.message && d.span = e.span && d.related = e.related

end Diagnostic

/-- Diagnostics in the order in which they were first seen. -/
structure Report where
  items : List Diagnostic := []
  deriving Repr, Inhabited

namespace Report

def emit (r : Report) (d : Diagnostic) : Report :=
  if r.items.any (·.same d) then r else ⟨r.items ++ [d]⟩

def emitAll (r : Report) (ds : List Diagnostic) : Report := ds.foldl emit r

def error (r : Report) (kind : DiagnosticKind) (message : String) (span : Span)
    (related : List Related) : Report :=
  r.emit { message := message, kind := some kind, span := span, related := related }

def warning (r : Report) (kind : DiagnosticKind) (message : String) (span : Span) : Report :=
  r.emit { message := message, kind := some kind, severity := "warning", span := span }

def errors (r : Report) : List Diagnostic := r.items.filter Diagnostic.isError

def warnings (r : Report) : List Diagnostic := r.items.filter (!·.isError)

theorem mem_emit {r : Report} {d e : Diagnostic} (h : e ∈ r.items) : e ∈ (r.emit d).items := by
  unfold emit
  split
  · exact h
  · simp [h]

end Report

end Ownership
