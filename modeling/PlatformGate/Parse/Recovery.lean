/-
# Going on after a problem

Two scans find the place to go on.  `captureLength` measures leftovers up to the first stopping
point; `probeLength?` looks ahead for a token at which reading can resume.  Both count brackets,
and both respect that a keyword at the start of a line begins a statement.
-/
import PlatformGate.Parse.Step
import PlatformGate.Token.TagSet

namespace PlatformGate

/-! ## 1. Sets of tokens -/

namespace TagSet

/-- The tokens that can begin an expression. -/
def expressionStart : TagSet :=
  (ofFixed [.trueWord, .falseWord, .underscore, .lparen, .bang, .minus]).union
    (((empty.insert .word).insert .number).insert .invalid)

/-- The keywords that begin a statement. -/
def statementKeywords : TagSet :=
  ofFixed [.ifWord, .guardWord, .whileWord, .letWord, .varWord, .returnWord]

/-- The tokens that can begin a statement. -/
def statementStart : TagSet := statementKeywords.union expressionStart

/-- The connectives without a meaning in a query. -/
def illegalInQuery : TagSet := ofFixed [.gtEq, .pipePipe, .ampAmp]

/-- The token that begins a body. -/
def bodyStart : TagSet := ofFixed [.lbrace]

/-- The tokens that end a header.  A `guard` has `else` in front of its body. -/
def headerEnd : Owner → TagSet
  | .guardStatement => ofFixed [.lbrace, .elseWord]
  | .ifStatement | .whileStatement => bodyStart

end TagSet

namespace Terminal

/-- A statement keyword that is the first on its line. -/
def beginsStatement (t : Terminal) : Bool := t.lineStart && t.kind.isStatementKeyword

/-- The depth behind a terminal.  A closing bracket at depth 0 closes nothing. -/
def depthAfter (depth : Nat) (t : Terminal) : Nat :=
  if t.kind.isOpener then depth + 1
  else if t.kind.isCloser then depth - 1
  else depth

end Terminal

/-! ## 2. The two scans -/

/-- Whether leftovers end in front of `t`.  At depth 0 they end at a stop token and at a closing
bracket; once begun, also at a keyword that begins a statement, and at any new line if lines
matter. -/
def endsCapture (stop : TagSet) (lineSensitive : Bool) (depth : Nat) (begun : Bool)
    (t : Terminal) : Bool :=
  depth == 0 &&
    (stop.contains t.kind || t.kind.isCloser ||
      (begun && t.lineStart && (lineSensitive || t.kind.isStatementKeyword)))

/-- How many terminals leftovers take, at the given depth. -/
def captureLength (stop : TagSet) (lineSensitive : Bool) (depth : Nat) (begun : Bool) :
    List Terminal → Nat
  | [] => 0
  | t :: ts =>
    if endsCapture stop lineSensitive depth begun t then 0
    else captureLength stop lineSensitive (t.depthAfter depth) true ts + 1

/-- How many terminals stand in front of the next one in `resume` at depth 0.  The search fails at
the end of file, and at depth 0 also at a `}` and at a keyword that begins a statement. -/
def probeLength? (resume : TagSet) (depth : Nat) : List Terminal → Option Nat
  | [] => none
  | t :: ts =>
    if depth == 0 && resume.contains t.kind then some 0
    else if depth == 0 && (t.beginsStatement || t.kind == .fixed .rbrace) then none
    else (probeLength? resume (t.depthAfter depth) ts).map (· + 1)

theorem captureLength_le (stop : TagSet) (lineSensitive : Bool) (depth : Nat) (begun : Bool)
    (ts : List Terminal) : captureLength stop lineSensitive depth begun ts ≤ ts.length := by
  induction ts generalizing depth begun with
  | nil => exact Nat.le_refl 0
  | cons t ts ih =>
    rw [captureLength]
    split
    · exact Nat.zero_le _
    · exact Nat.succ_le_succ (ih _ _)

theorem probeLength?_lt {resume : TagSet} {depth n : Nat} {ts : List Terminal}
    (h : probeLength? resume depth ts = some n) : n < ts.length := by
  induction ts generalizing depth n with
  | nil => simp [probeLength?] at h
  | cons t ts ih =>
    rw [probeLength?] at h
    split at h
    · have : n = 0 := by simpa using h.symm
      subst this
      exact Nat.zero_lt_succ _
    · split at h
      · simp at h
      · obtain ⟨m, hm, rfl⟩ := Option.map_eq_some_iff.mp h
        exact Nat.succ_lt_succ (ih hm)

/-! ## 3. Parsers that go on -/

namespace Parser

/-- Moves behind the leftovers of a construct and reports them, if there are any. -/
def leftovers (construct : Construct) (stop : TagSet) (lineSensitive : Bool) : Parser Unit := do
  let start ← position
  let n := captureLength stop lineSensitive 0 false (← rest)
  if n = 0 then return ()
  skip n
  report (.leftover construct) (← runFrom start)

/-- Moves behind one closing bracket that closes nothing, and reports it. -/
def strayCloser (construct : Construct) : Parser Unit := do
  let start ← position
  next
  report (.leftover construct) (Run.token start)

/-- Reports at the next terminal that a construct is not closed, and moves on to a token of
`resume` if the search for one succeeds. -/
def unclosed (construct : Construct) (opener : Nat) (resume : TagSet) : Parser Unit := do
  reportHere (.unclosed construct (Run.token opener))
  match probeLength? resume 0 (← rest) with
  | some n => skip n
  | none => return ()

end Parser

end PlatformGate
