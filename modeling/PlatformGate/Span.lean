/-
# Spans

A span is a stretch of a source, given by two byte offsets, the second exclusive.
-/

namespace PlatformGate

/-- A stretch of a source from byte `start` up to byte `stop`. -/
structure Span where
  start : Nat
  stop : Nat
  deriving DecidableEq, Repr, Inhabited

/-- Why two offsets make no span: one of them is too large. -/
inductive SpanError
  | startTooLarge (offset : Nat)
  | stopTooLarge (offset : Nat)
  deriving DecidableEq, Repr

namespace SpanError

def message : SpanError → String
  | startTooLarge n => s!"span start {n} exceeds u32::MAX"
  | stopTooLarge n => s!"span end {n} exceeds u32::MAX"

end SpanError

namespace Span

/-- The span of what was made up and stands nowhere in the source. -/
def dummy : Span := ⟨0, 0⟩

/-- The largest offset that a span made from outside may hold, one below two to the power
of 32. -/
def maxOffset : Nat := 4294967295

/-- The span between two offsets of any size.  The start is looked at first. -/
def ofOffsets (start stop : Nat) : Except SpanError Span :=
  if maxOffset < start then .error (.startTooLarge start)
  else if maxOffset < stop then .error (.stopTooLarge stop)
  else .ok ⟨start, stop⟩

/-- The empty span at an offset, where something was expected and not found. -/
def point (offset : Nat) : Span := ⟨offset, offset⟩

/-- The empty span where `s` begins. -/
def startPoint (s : Span) : Span := point s.start

/-- The number of bytes; a span whose ends are the wrong way round has none. -/
def length? (s : Span) : Option Nat :=
  if s.start ≤ s.stop then some (s.stop - s.start) else none

def isEmpty (s : Span) : Bool := s.start == s.stop

/-- The least span that covers both. -/
def merge (s t : Span) : Span := ⟨min s.start t.start, max s.stop t.stop⟩

/-- Written as the two offsets with two dots between. -/
def render (s : Span) : String := s!"{s.start}..{s.stop}"

instance : ToString Span := ⟨render⟩

theorem merge_comm (s t : Span) : s.merge t = t.merge s := by
  simp [merge, Nat.min_comm, Nat.max_comm]

end Span

end PlatformGate
