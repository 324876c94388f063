/-
# Diagnostics

A diagnostic is one problem: a code, a message and a place, with any number of notes about other
places.  A diagnostic and its notes stay together.
-/
import PlatformGate.Span
import PlatformGate.Report.Code

namespace PlatformGate

inductive Severity
  | error | warning
  deriving DecidableEq, Repr, Inhabited

def Severity.text : Severity → String
  | error => "error"
  | warning => "warning"

/-- A remark about another place. -/
structure Note where
  message : String
  span : Span
  deriving DecidableEq, Repr, Inhabited

/-- One problem and where it is.  Message, place and notes may be left open. -/
structure Diagnostic where
  code : Code
  severity : Severity := .error
  message : String := ""
  span : Span := Span.dummy
  notes : List Note := []
  deriving DecidableEq, Repr, Inhabited

namespace Diagnostic

def isError (d : Diagnostic) : Bool := d.severity == .error

/-- The diagnostic with a note more, behind the others. -/
def withNote (d : Diagnostic) (span : Span) (message : String) : Diagnostic :=
  { d with notes := d.notes ++ [⟨message, span⟩] }

/-- One line for the diagnostic and one indented line for each note. -/
def render (d : Diagnostic) : String :=
  s!"{d.severity.text}[{d.code.text}]: {d.message} at {d.span.render}" ++
    String.join (d.notes.map fun n => s!"\n  note: {n.message} at {n.span.render}")

end Diagnostic

end PlatformGate
