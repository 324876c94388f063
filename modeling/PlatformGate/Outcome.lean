/-
# Outcomes

What reading a whole source gives: its module in an arena, the diagnostics in the order in which
the problems were found, and the names that occur.
-/
import PlatformGate.Session
import PlatformGate.Token.Reading

namespace PlatformGate

structure Outcome where
  /-- The statements at the top level. -/
  module : Slots .stmt
  arena : Arena Span
  diagnostics : List Diagnostic
  /-- How many errors were not kept because of the limit. -/
  suppressed : Nat
  names : NameTable
  deriving Inhabited

namespace Outcome

/-- Reads a source.  The limit 0 means that every error is kept. -/
def ofSource (source : String) (limit : Nat) : Outcome :=
  let tokens := Token.ofSource source
  let (module, s) := (Session.start tokens source limit).module
  { module
    arena := s.arena
    diagnostics := s.sink.stored
    suppressed := s.sink.suppressed
    names := (Token.internAll NameTable.initial tokens).2 }

/-- Reads sources one by one. -/
def ofSources (sources : List String) (limit : Nat) : List Outcome :=
  sources.map fun source => ofSource source limit

def hasErrors (o : Outcome) : Bool := !o.diagnostics.isEmpty || decide (0 < o.suppressed)

/-- The messages of all diagnostics. -/
def messages (o : Outcome) : List String := o.diagnostics.map Diagnostic.message

/-- The availability queries in the order of the source. -/
def queries (o : Outcome) : List (Query Span) := o.arena.queries

end Outcome

end PlatformGate
