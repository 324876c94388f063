/-
# The sink

A sink collects diagnostics in the order in which they come.  Past its limit it counts errors but
does not keep them; warnings are always kept and never counted.
-/
import PlatformGate.Report.Diagnostic

namespace PlatformGate

/-- Evidence that an error was reported. -/
structure ErrorGuarantee where
  count : Nat
  positive : 0 < count

namespace ErrorGuarantee

/-- The evidence that a positive count gives. -/
def ofCount? (count : Nat) : Option ErrorGuarantee :=
  if h : 0 < count then some ⟨count, h⟩ else none

def text (_ : ErrorGuarantee) : String := "error(s) emitted"

end ErrorGuarantee

/-- What was kept, how many errors came, and how many of them were not kept.  The limit 0 means
that there is none. -/
structure Sink where
  limit : Nat := 0
  stored : List Diagnostic := []
  errorCount : Nat := 0
  suppressed : Nat := 0
  deriving DecidableEq, Repr, Inhabited

namespace Sink

/-- The empty sink with the given limit. -/
def withLimit (limit : Nat) : Sink := { limit }

/-- Whether as many errors are kept as may be. -/
def limitReached (s : Sink) : Bool :=
  decide (0 < s.limit) && decide (s.limit ≤ s.errorCount - s.suppressed)

/-- Takes an error: it is kept until the limit is reached, and counted in any case. -/
def emit (s : Sink) (d : Diagnostic) : Sink :=
  if s.limitReached then
    { s with errorCount := s.errorCount + 1, suppressed := s.suppressed + 1 }
  else
    { s with errorCount := s.errorCount + 1, stored := s.stored ++ [d] }

/-- Takes a warning. -/
def emitWarning (s : Sink) (d : Diagnostic) : Sink :=
  { s with stored := s.stored ++ [d] }

/-- Takes errors from left to right. -/
def emitAll (s : Sink) (ds : List Diagnostic) : Sink := ds.foldl emit s

def size (s : Sink) : Nat := s.stored.length

def isEmpty (s : Sink) : Bool := s.stored.isEmpty

def hasErrors (s : Sink) : Bool := decide (0 < s.errorCount)

/-- Evidence that an error came, if one did. -/
def guarantee? (s : Sink) : Option ErrorGuarantee := ErrorGuarantee.ofCount? s.errorCount

@[simp] theorem errorCount_emit (s : Sink) (d : Diagnostic) :
    (s.emit d).errorCount = s.errorCount + 1 := by
  unfold emit
  split <;> rfl

@[simp] theorem limit_emit (s : Sink) (d : Diagnostic) : (s.emit d).limit = s.limit := by
  unfold emit
  split <;> rfl

/-- Reporting an error gives the evidence that one was reported. -/
theorem guarantee?_emit_isSome (s : Sink) (d : Diagnostic) :
    (s.emit d).guarantee?.isSome = true := by
  simp [guarantee?, ErrorGuarantee.ofCount?]

end Sink

end PlatformGate
