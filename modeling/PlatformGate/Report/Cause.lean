/-
# Causes of reports

A reader reports causes at places.  Wording comes last: `Report.toDiagnostic` gives a report its
code, its message and its notes, once the places are spans and the text of the source is at hand.
-/
import PlatformGate.Report.Diagnostic
import PlatformGate.Report.Wording
import PlatformGate.Text.Slice

namespace PlatformGate

/-- Why something is reported.  The type of places is left open. -/
inductive Cause (ρ : Type)
  /-- A character that begins no token, or a number too large. -/
  | invalidToken
  /-- An availability keyword without `(`. -/
  | missingQueryOpener
  /-- A construct is never closed; its opening bracket is at `opener`. -/
  | unclosed (construct : Construct) (opener : ρ)
  | missingPlatform
  | missingVersion
  /-- Leftovers in a construct. -/
  | leftover (construct : Construct)
  | missingValue (position : ValuePosition)
  /-- A header without a body; `atEnd` if the source ends there. -/
  | missingBody (owner : Owner) (atEnd : Bool)
  /-- A ternary without `:`. -/
  | missingColon
  /-- A `case` without `=`. -/
  | missingCaseValue
  /-- A `guard` without `else`. -/
  | missingElse
  | missingPattern (position : PatternPosition)
  deriving DecidableEq, Repr, Inhabited

namespace Cause

variable {ρ σ : Type}

def code : Cause ρ → Code
  | invalidToken => .e0001
  | missingQueryOpener => .e1001
  | unclosed c _ => c.unclosedCode
  | missingPlatform => .e1004
  | missingVersion => .e1005
  | leftover c => c.leftoverCode
  | missingValue _ => .e1007
  | missingBody _ _ => .e1010
  | missingColon | missingCaseValue | missingElse => .e1011
  | missingPattern _ => .e1012

/-- The message, where `text` is what stands at the place of the report.  An invalid token that
begins with a digit is a number. -/
def message (text : String) : Cause ρ → String
  | invalidToken =>
    if text.toList.head?.any Char.isDigit then s!"integer literal '{text}' is too large"
    else s!"invalid character '{text}'"
  | missingQueryOpener => "expected '(' in availability condition"
  | unclosed c _ => s!"expected '{c.closing}' to end {c.closingName}"
  | missingPlatform => "expected platform name"
  | missingVersion => "expected version number"
  | leftover c => c.leftoverMessage text
  | missingValue p => p.missingMessage
  | missingBody o true => s!"expected code block in {o.phrase}"
  | missingBody o false => s!"expected '{Construct.block.opening}' in {o.phrase}"
  | missingColon => "expected ':' in ternary expression"
  | missingCaseValue => "expected '=' in 'case' condition"
  | missingElse => "expected 'else' in 'guard' statement"
  | missingPattern p => p.missingMessage

/-- Where the bracket is that was never closed, and what is said about it. -/
def note? : Cause ρ → Option (ρ × String)
  | unclosed c opener => some (opener, s!"to match this opening '{c.opening}'")
  | _ => none

def map (f : ρ → σ) : Cause ρ → Cause σ
  | invalidToken => invalidToken
  | missingQueryOpener => missingQueryOpener
  | unclosed c opener => unclosed c (f opener)
  | missingPlatform => missingPlatform
  | missingVersion => missingVersion
  | leftover c => leftover c
  | missingValue p => missingValue p
  | missingBody o e => missingBody o e
  | missingColon => missingColon
  | missingCaseValue => missingCaseValue
  | missingElse => missingElse
  | missingPattern p => missingPattern p

end Cause

/-- A cause at a place. -/
structure Report (ρ : Type) where
  cause : Cause ρ
  place : ρ
  deriving DecidableEq, Repr, Inhabited

namespace Report

variable {ρ σ : Type}

def map (f : ρ → σ) (r : Report ρ) : Report σ := ⟨r.cause.map f, f r.place⟩

/-- The diagnostic of a report about `text`.  Where the place is no slice of the text, the message
quotes nothing. -/
def toDiagnostic (text : String) (r : Report Span) : Diagnostic where
  code := r.cause.code
  message := r.cause.message ((Text.slice? text r.place.start r.place.stop).getD "")
  span := r.place
  notes := r.cause.note?.toList.map fun n => ⟨n.2, n.1⟩

theorem isError_toDiagnostic (text : String) (r : Report Span) :
    (r.toDiagnostic text).isError = true := rfl

end Report

end PlatformGate
