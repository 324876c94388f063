/-
# Reading availability queries

    query   := ('#available' | '#unavailable') '(' entries? ')'
    entries := entry (',' entry)* ','?
    entry   := '*' | WORD version?
    version := NUMBER ('.' NUMBER){0,2}

A bad entry never loses the query.  Where `)` is missing, reading resumes where the header ends.
-/
import PlatformGate.Parse.Recovery
import PlatformGate.Syntax.Availability

namespace PlatformGate.Parser

/-- The number behind a dot, if a dot comes next.  A dot without a number is reported. -/
def component? : Parser (Option Nat) := do
  if ← eat .dot then
    match ← kind with
    | .number v =>
      next
      return some v
    | .invalid =>
      let _ ← invalidToken
      return none
    | _ =>
      reportHere .missingVersion
      return none
  else return none

/-- A version, if a number comes next.  Components end with the first bad one or the third. -/
def version? : Parser (Option Version) := do
  match ← kind with
  | .number major =>
    next
    match ← component? with
    | none => return some (Version.ofMajor major)
    | some minor =>
      match ← component? with
      | none => return some ⟨[major, minor], by simp, by simp⟩
      | some patch => return some ⟨[major, minor, patch], by simp, by simp⟩
  | .invalid =>
    let _ ← invalidToken
    return none
  | _ => return none

/-- Whether an operator comes next that no query may hold.  It is reported with all that follows up
to `)` or the end of the header. -/
def illegalOperator (resume : TagSet) : Parser Bool := do
  if TagSet.illegalInQuery.contains (← kind) then
    leftovers .availability (resume.insert (.fixed .rparen)) false
    return true
  else return false

/-- An entry, if one can be read. -/
def entryHere? (resume : TagSet) : Parser (Option (Entry Run)) := do
  if ← illegalOperator resume then return none
  let start ← position
  match ← kind with
  | .fixed .star =>
    next
    return some (Entry.star (← runFrom start))
  | .word name =>
    next
    let version ← version?
    return some (Entry.platform name version (← runFrom start))
  | .number _ =>
    reportHere .missingPlatform
    let version ← version?
    return some (Entry.unnamed version (← runFrom start))
  | .fixed .rparen | .endOfFile => return none
  | k =>
    if resume.contains k then return none
    reportHere .missingPlatform
    return none

/-- The entry behind a comma, if a comma comes next. -/
def entryBehindComma? (resume : TagSet) : Parser (Option (Entry Run)) := do
  if ← illegalOperator resume then return none
  if ← eat .comma then entryHere? resume else return none

/-- The entries between the parentheses. -/
def entries (resume : TagSet) : Parser (List (Entry Run)) := do
  if ← check .rparen then
    reportHere .missingPlatform
    return []
  match ← entryHere? resume with
  | none => return []
  | some first =>
    let others ← collect (entryBehindComma? resume)
    return first :: others

/-- A query.  An availability keyword comes next; `resume` holds the tokens that end the header. -/
def query (resume : TagSet) : Parser (Query Run) := do
  let start ← position
  let negated := (← kind) == .fixed .unavailable
  next
  let opener ← position
  if ← eat .lparen then
    let items ← entries resume
    if ← eat .rparen then
      return ⟨items, negated, .done, ← runFrom start⟩
    else
      unclosed .availability opener resume
      return ⟨items, negated, .incomplete, ← runFrom start⟩
  else
    reportHere .missingQueryOpener
    return ⟨[], negated, .incomplete, ← runFrom start⟩

end PlatformGate.Parser
