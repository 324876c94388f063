/-
# Reading statements

    module    := stmt*
    stmt      := 'if' conditions block ('else' (if | block))?
               | 'guard' conditions 'else' block
               | 'while' conditions block
               | ('let' | 'var') pattern ('=' expr)?
               | 'return' expr?
               | expr
    block     := '{' stmt* '}'

Statements are separated by line breaks.  What is left on the line of a statement is reported, as a
leftover of the block or of the top level.
-/
import PlatformGate.Parse.Clause

namespace PlatformGate.Parser

/-! ## 1. Leftovers between statements -/

/-- The tokens at which leftovers between the statements of a construct stop. -/
def leftoverStop : Construct → TagSet
  | .block => TagSet.ofFixed [.rbrace]
  | _ => TagSet.empty

/-- Moves behind leftovers and reports them.  A closing bracket is reported alone. -/
def junk (construct : Construct) : Parser Unit := do
  if (← kind).isCloser then strayCloser construct
  else leftovers construct (leftoverStop construct) true

/-- One report of leftovers on the line of a statement, if there are any. -/
def trailing? (construct : Construct) : Parser (Option Unit) := do
  if ← atEnd then return none
  if ← atLineStart then return none
  if construct = .block then
    if ← check .rbrace then return none
  junk construct
  return some ()

/-- Reports all that follows a statement on its line. -/
def restOfLine (construct : Construct) : Parser Unit := do
  let _ ← collect (trailing? construct)

/-- A statement if one can begin here; otherwise leftovers are reported.  Either way the rest of
the line is cleared. -/
def item (stmt : Parser (Stmt Run)) (construct : Construct) : Parser (Option (Stmt Run)) := do
  if TagSet.statementStart.contains (← kind) then
    let s ← stmt
    restOfLine construct
    return some s
  else
    junk construct
    restOfLine construct
    return none

/-! ## 2. Blocks and bodies -/

/-- The next item of a block, if there is one.  The closing brace is read with the last. -/
def blockItem? (stmt : Parser (Stmt Run)) (opener : Nat) :
    Parser (Option (Option (Stmt Run))) := do
  if ← eat .rbrace then return none
  if ← atEnd then
    unclosed .block opener TagSet.empty
    return none
  let s ← item stmt .block
  return some s

/-- Statements in braces.  An opening brace comes next. -/
def block (stmt : Parser (Stmt Run)) : Parser (Body Run) := do
  let opener ← position
  next
  let items ← collect (blockItem? stmt opener)
  return .block (items.filterMap id) (← runFrom opener)

/-- Reports what stands between a header and its end. -/
def headerTail (owner : Owner) (stop : TagSet) : Parser Unit := do
  if ← atEnd then return ()
  if ← atLineStart then return ()
  leftovers (.header owner) stop true

/-- The block of a statement with a header.  If it is missing nothing is read. -/
def body (stmt : Parser (Stmt Run)) (owner : Owner) : Parser (Body Run) := do
  headerTail owner TagSet.bodyStart
  if ← check .lbrace then block stmt
  else
    reportHere (.missingBody owner (← atEnd))
    return .missing

/-! ## 3. Statements -/

/-- What follows `else` in an `if`. -/
def alternative (stmt : Parser (Stmt Run)) : Parser (Alternative Run) := do
  if ← check .ifWord then
    let s ← stmt
    return .elseIf s
  else
    let b ← body stmt .ifStatement
    return .body b

def ifStatement (stmt : Parser (Stmt Run)) : Parser (Stmt Run) := do
  let start ← position
  next
  let cs ← conditions .ifStatement
  let b ← body stmt .ifStatement
  if ← eat .elseWord then
    let a ← alternative stmt
    return .ifStmt cs b a (← runFrom start)
  else return .ifStmt cs b (.body .missing) (← runFrom start)

/-- The block of a `guard`.  Without `else` the block is read all the same. -/
def guardBody (stmt : Parser (Stmt Run)) : Parser (Body Run) := do
  if ← eat .elseWord then body stmt .guardStatement
  else
    reportHere .missingElse
    if ← check .lbrace then block stmt else return .missing

def guardStatement (stmt : Parser (Stmt Run)) : Parser (Stmt Run) := do
  let start ← position
  next
  let cs ← conditions .guardStatement
  headerTail .guardStatement (TagSet.headerEnd .guardStatement)
  let b ← guardBody stmt
  return .guardStmt cs b (← runFrom start)

def whileStatement (stmt : Parser (Stmt Run)) : Parser (Stmt Run) := do
  let start ← position
  next
  let cs ← conditions .whileStatement
  let b ← body stmt .whileStatement
  return .whileStmt cs b (← runFrom start)

def declaration (mutable : Bool) : Parser (Stmt Run) := do
  let start ← position
  next
  let p ← pattern .declared
  let init ← initializer?
  return .declaration mutable p init (← runFrom start)

/-- The value of a `return`.  It begins on the same line. -/
def returnValue? : Parser (Option (Expr Run)) := do
  if ← atEnd then return none
  if ← atLineStart then return none
  if ← check .rbrace then return none
  let e ← expr .full .returned
  return some e

def returnStatement : Parser (Stmt Run) := do
  let start ← position
  next
  let e ← returnValue?
  return .returnStmt e (← runFrom start)

def expressionStatement : Parser (Stmt Run) := do
  let start ← position
  let e ← expr .full .statement
  return .expr e (← runFrom start)

/-- A statement; `stmt` reads the statements inside it. -/
def statement (stmt : Parser (Stmt Run)) : Parser (Stmt Run) := do
  match ← kind with
  | .fixed .ifWord => ifStatement stmt
  | .fixed .guardWord => guardStatement stmt
  | .fixed .whileWord => whileStatement stmt
  | .fixed .letWord => declaration false
  | .fixed .varWord => declaration true
  | .fixed .returnWord => returnStatement
  | _ => expressionStatement

/-- A statement with at most `n` levels of nesting. -/
def stmtWithin : Nat → Parser (Stmt Run)
  | 0 => expressionStatement
  | n + 1 => statement (stmtWithin n)

/-- A statement.  No statement nests deeper than there are terminals. -/
def stmt : Parser (Stmt Run) := fun i => stmtWithin (i.rest.length + 1) i

/-- The next item of the top level, unless the source ends here. -/
def topLevelItem? : Parser (Option (Option (Stmt Run))) := do
  if ← atEnd then return none
  let s ← item stmt .topLevel
  return some s

/-- The statements of all that is left. -/
def topLevel : Parser (List (Stmt Run)) := do
  let items ← collect topLevelItem?
  return items.filterMap id

end PlatformGate.Parser
