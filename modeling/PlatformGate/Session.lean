/-
# Sessions

A session reads the tokens of one source with one parser after another.  Every call goes on where
the one before stopped; nodes and diagnostics gather in one arena and one sink.
-/
import PlatformGate.Arena.Layout
import PlatformGate.Parse.Statement
import PlatformGate.Report.Sink

namespace PlatformGate

/-- The tokens of a source, how far they are read, and what has come of it. -/
structure Session where
  /-- The text that messages quote from. -/
  text : String
  /-- The spans of all tokens, the end of file included. -/
  spans : Array Span
  input : Input
  arena : Arena Span := {}
  sink : Sink := {}
  deriving Inhabited

namespace Session

variable {α : Type}

/-- A session in front of the first token. -/
def start (tokens : List (Token String)) (text : String) (limit : Nat) : Session where
  text := text
  spans := (tokens.map Token.span).toArray
  input := Input.start (Terminal.ofTokens tokens)
  sink := Sink.withLimit limit

/-- The span of a run of tokens. -/
def locate (s : Session) (r : Run) : Span := r.toSpan s.spans

/-- Runs a parser.  What it reports goes to the sink. -/
def run (s : Session) (p : Parser α) : α × Session :=
  let step := p s.input
  let diagnostics := step.reports.map fun r => (r.map s.locate).toDiagnostic s.text
  (step.value, { s with input := step.next, sink := s.sink.emitAll diagnostics })

/-- Keeps nodes in the arena. -/
def keep (s : Session) (layout : StateM (Arena Span) α) : α × Session :=
  let (a, arena) := layout s.arena
  (a, { s with arena })

/-- Reads one clause of the header of `owner`. -/
def clause (s : Session) (owner : Owner) : Id .clause × Session :=
  let (c, s) := s.run (Parser.clause owner)
  s.keep (c.map s.locate).layout

/-- Reads all that is left as the statements of a module. -/
def module (s : Session) : Slots .stmt × Session :=
  let (ss, s) := s.run Parser.topLevel
  s.keep (Stmt.layoutModule (Stmt.mapAll s.locate ss))

/-- The index of the next token. -/
def position (s : Session) : Nat := s.input.position

/-- Whether a `{` comes next. -/
def atBlockStart (s : Session) : Bool := s.input.kind == .fixed .lbrace

end Session

end PlatformGate
