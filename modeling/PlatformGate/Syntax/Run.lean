/-
# Runs of tokens

A syntax tree says of each node which tokens it was read from.  A run is given by the index of its
first token and the index just past its last; an empty run is a point in front of a token.
-/
import PlatformGate.Span

namespace PlatformGate

/-- The tokens from index `first` up to index `past`. -/
structure Run where
  first : Nat
  past : Nat
  deriving DecidableEq, Repr, Inhabited

namespace Run

/-- The point in front of a token. -/
def point (i : Nat) : Run := ⟨i, i⟩

/-- One token. -/
def token (i : Nat) : Run := ⟨i, i + 1⟩

/-- The run that begins as `r` does and ends as `s` does. -/
def through (r s : Run) : Run := ⟨r.first, s.past⟩

/-- The stretch of the source that a run covers, by the spans of all tokens.  An empty run is the
point where its token begins. -/
def toSpan (spans : Array Span) (r : Run) : Span :=
  let start := (spans[r.first]?.getD Span.dummy).start
  if r.first < r.past then ⟨start, (spans[r.past - 1]?.getD Span.dummy).stop⟩
  else Span.point start

theorem toSpan_point (spans : Array Span) (i : Nat) :
    (point i).toSpan spans = ((token i).toSpan spans).startPoint := by
  simp [toSpan, point, token, Span.startPoint]

end Run

end PlatformGate
