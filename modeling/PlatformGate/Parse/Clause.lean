/-
# Reading headers

    conditions := clause (',' clause)*
    clause     := query | ('let' | 'var') pattern ('=' expr)? | 'case' ternary '=' expr | expr
    pattern    := '_' | WORD
-/
import PlatformGate.Parse.Expression
import PlatformGate.Parse.Query

namespace PlatformGate.Parser

/-- The left side of a binding.  If it is missing nothing is read. -/
def pattern (pos : PatternPosition) : Parser (Pattern Run) := do
  let start ← position
  match ← kind with
  | .fixed .underscore =>
    next
    return .wildcard (Run.token start)
  | .word name =>
    next
    return .binding name (Run.token start)
  | _ =>
    reportHere (.missingPattern pos)
    return .missing (Run.point start)

/-- The value behind `=`, if `=` comes next. -/
def initializer? : Parser (Option (Expr Run)) := do
  if ← eat .eq then
    let e ← expr .full .declared
    return some e
  else return none

/-- The value of a `case`.  A pattern in front that reported nothing needs the `=`. -/
def caseValue (quiet : Bool) : Parser (Expr Run) := do
  if ← eat .eq then expr .full .declared
  else if quiet then
    reportHere .missingCaseValue
    errorHere
  else errorHere

/-- One clause of the header of `owner`.  Its first token decides what it is. -/
def clause (owner : Owner) : Parser (Clause Run) := do
  let start ← position
  match ← kind with
  | .fixed .available | .fixed .unavailable =>
    let q ← query (TagSet.headerEnd owner)
    return .availability q
  | .fixed .letWord =>
    next
    let p ← pattern (.header owner)
    let init ← initializer?
    return .binding false p init (← runFrom start)
  | .fixed .varWord =>
    next
    let p ← pattern (.header owner)
    let init ← initializer?
    return .binding true p init (← runFrom start)
  | .fixed .caseWord =>
    next
    let (p, quiet) ← quietly (expr .ternary .pattern)
    let init ← caseValue quiet
    return .matching p init (← runFrom start)
  | _ =>
    let e ← expr .full (.header owner)
    return .expr e (← runFrom start)

/-- The clause behind a comma, if a comma comes next. -/
def clauseBehindComma? (owner : Owner) : Parser (Option (Clause Run)) := do
  if ← eat .comma then
    let c ← clause owner
    return some c
  else return none

/-- All clauses of a header. -/
def conditions (owner : Owner) : Parser (List (Clause Run)) := do
  let first ← clause owner
  let others ← collect (clauseBehindComma? owner)
  return first :: others

end PlatformGate.Parser
