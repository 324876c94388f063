/-
# Building statements

    module    := stmt*
    stmt      := 'if' conditions block ('else' (if | block))?
               | 'guard' conditions 'else' block
               | 'while' conditions block
               | ('let' | 'var') pattern ('=' expr)?
               | 'return' expr?
               | expr
    block     := '{' stmt* '}'
    clause    := query | ('let' | 'var') pattern ('=' expr)? | 'case' ternary '=' expr | expr

The members of a list are built first, and when all of them are there the list is kept.  Patterns,
queries and leftovers hold no nodes and are read as the parsers read them.
-/
import PlatformGate.Building.Expression

namespace PlatformGate

namespace Builder

/-! ## 1. Headers -/

/-- The left side of a binding. -/
def pattern (pos : PatternPosition) : Builder (Pattern Span) := do
  let p ← read (Parser.pattern pos)
  located fun locate => p.map locate

/-- A query, read up to a token that ends the header. -/
def query (resume : TagSet) : Builder (Query Span) := do
  let q ← read (Parser.query resume)
  located fun locate => q.map locate

/-- The value behind `=`, if `=` comes next. -/
def initializer? : Builder (Option (Id .expr)) := do
  if ← read (Parser.eat .eq) then
    let i ← expression .full .declared
    return some i
  else return none

/-- The value of a `case`.  A pattern in front without an error needs the `=`. -/
def caseValue (quiet : Bool) : Builder (Id .expr) := do
  if ← read (Parser.eat .eq) then expression .full .declared
  else if quiet then
    read (Parser.reportHere .missingCaseValue)
    errorHere
  else errorHere

/-- `let` or `var`, a pattern, and a value if there is one. -/
def binding (mutable : Bool) (owner : Owner) : Builder (ClauseForm Span) := do
  read Parser.next
  let p ← pattern (.header owner)
  let init ← initializer?
  return .binding mutable p init

/-- What one clause of the header of `owner` is. -/
def clauseForm (owner : Owner) : Builder (ClauseForm Span) := do
  match ← read Parser.kind with
  | .fixed .available | .fixed .unavailable =>
    let q ← query (TagSet.headerEnd owner)
    return .availability q
  | .fixed .letWord => binding false owner
  | .fixed .varWord => binding true owner
  | .fixed .caseWord =>
    read Parser.next
    let (p, quiet) ← quietly (expression .ternary .pattern)
    let init ← caseValue quiet
    return .matching p init
  | _ =>
    let i ← expression .full (.header owner)
    return .expr i

/-- One clause of the header of `owner`. -/
def headerClause (owner : Owner) : Builder (Id .clause) := do
  let start ← read Parser.position
  let form ← clauseForm owner
  clause form (← spanFrom start)

/-- The clause behind a comma, if a comma comes next. -/
def clauseBehindComma? (owner : Owner) : Builder (Option (Id .clause)) := do
  if ← read (Parser.eat .comma) then
    let i ← headerClause owner
    return some i
  else return none

/-- All clauses of a header. -/
def conditions (owner : Owner) : Builder (Slots .clause) := do
  let first ← headerClause owner
  let others ← collect (clauseBehindComma? owner)
  clauses (first :: others)

/-! ## 2. Blocks and bodies -/

/-- A statement if one can begin here; otherwise leftovers are reported.  Either way the rest of the
line is cleared. -/
def item (stmt : Builder (Id .stmt)) (construct : Construct) : Builder (Option (Id .stmt)) := do
  if TagSet.statementStart.contains (← read Parser.kind) then
    let i ← stmt
    read (Parser.restOfLine construct)
    return some i
  else
    read (Parser.junk construct)
    read (Parser.restOfLine construct)
    return none

/-- The next item of a block, if there is one.  The closing brace is read with the last. -/
def blockItem? (stmt : Builder (Id .stmt)) (opener : Nat) :
    Builder (Option (Option (Id .stmt))) := do
  if ← read (Parser.eat .rbrace) then return none
  if ← read Parser.atEnd then
    read (Parser.unclosed .block opener TagSet.empty)
    return none
  let i? ← item stmt .block
  return some i?

/-- Statements in braces.  An opening brace comes next. -/
def block (stmt : Builder (Id .stmt)) : Builder (BlockNode Span) := do
  let opener ← read Parser.position
  read Parser.next
  let items ← collect (blockItem? stmt opener)
  let r ← stmts (items.filterMap id)
  return ⟨r, ← spanFrom opener⟩

/-- The block of a statement with a header.  If it is missing nothing is read. -/
def body (stmt : Builder (Id .stmt)) (owner : Owner) : Builder (Option (BlockNode Span)) := do
  read (Parser.headerTail owner TagSet.bodyStart)
  if ← read (Parser.check .lbrace) then
    let b ← block stmt
    return some b
  else
    let ended ← read Parser.atEnd
    read (Parser.reportHere (.missingBody owner ended))
    return none

/-! ## 3. Statements -/

/-- What follows `else` in an `if`. -/
def alternative (stmt : Builder (Id .stmt)) : Builder (Option (ElseNode Span)) := do
  if ← read (Parser.check .ifWord) then
    let i ← stmt
    return some (.elseIf i)
  else
    let b ← body stmt .ifStatement
    return b.map .block

def ifStatement (stmt : Builder (Id .stmt)) : Builder (StmtForm Span) := do
  read Parser.next
  let cs ← conditions .ifStatement
  let b ← body stmt .ifStatement
  if ← read (Parser.eat .elseWord) then
    let e ← alternative stmt
    return .ifStmt cs b e
  else return .ifStmt cs b none

/-- The block of a `guard`.  Without `else` the block is read all the same. -/
def guardBody (stmt : Builder (Id .stmt)) : Builder (Option (BlockNode Span)) := do
  if ← read (Parser.eat .elseWord) then body stmt .guardStatement
  else
    read (Parser.reportHere .missingElse)
    if ← read (Parser.check .lbrace) then
      let b ← block stmt
      return some b
    else return none

def guardStatement (stmt : Builder (Id .stmt)) : Builder (StmtForm Span) := do
  read Parser.next
  let cs ← conditions .guardStatement
  read (Parser.headerTail .guardStatement (TagSet.headerEnd .guardStatement))
  let b ← guardBody stmt
  return .guardStmt cs b

def whileStatement (stmt : Builder (Id .stmt)) : Builder (StmtForm Span) := do
  read Parser.next
  let cs ← conditions .whileStatement
  let b ← body stmt .whileStatement
  return .whileStmt cs b

def declaration (mutable : Bool) : Builder (StmtForm Span) := do
  read Parser.next
  let p ← pattern .declared
  let init ← initializer?
  return .declaration mutable p init

/-- The value of a `return`.  It begins on the same line. -/
def returnValue? : Builder (Option (Id .expr)) := do
  if ← read Parser.atEnd then return none
  if ← read Parser.atLineStart then return none
  if ← read (Parser.check .rbrace) then return none
  let i ← expression .full .returned
  return some i

def returnStatement : Builder (StmtForm Span) := do
  read Parser.next
  let i? ← returnValue?
  return .returnStmt i?

def expressionStatement : Builder (StmtForm Span) := do
  let i ← expression .full .statement
  return .expr i

/-- What a statement is; `stmt` builds the statements inside it. -/
def stmtForm (inner : Builder (Id .stmt)) : Builder (StmtForm Span) := do
  match ← read Parser.kind with
  | .fixed .ifWord => ifStatement inner
  | .fixed .guardWord => guardStatement inner
  | .fixed .whileWord => whileStatement inner
  | .fixed .letWord => declaration false
  | .fixed .varWord => declaration true
  | .fixed .returnWord => returnStatement
  | _ => expressionStatement

/-- Keeps a statement when it has been read. -/
def kept (form : Builder (StmtForm Span)) : Builder (Id .stmt) := do
  let start ← read Parser.position
  let f ← form
  stmt f (← spanFrom start)

/-- A statement with at most `n` levels of nesting. -/
def stmtWithin : Nat → Builder (Id .stmt)
  | 0 => kept expressionStatement
  | n + 1 => kept (stmtForm (stmtWithin n))

/-- A statement.  No statement nests deeper than there are tokens. -/
def statement : Builder (Id .stmt) := do
  let left ← read Parser.rest
  stmtWithin (left.length + 1)

/-! ## 4. Modules -/

/-- The next item of the top level, unless the source ends here. -/
def topLevelItem? : Builder (Option (Option (Id .stmt))) := do
  if ← read Parser.atEnd then return none
  let i? ← item statement .topLevel
  return some i?

/-- The statements of all that is left. -/
def module : Builder (Slots .stmt) := do
  let items ← collect topLevelItem?
  stmts (items.filterMap id)

end Builder

/-- The outcome with words for all ids. -/
def Outcome.words (o : Outcome) : Outcome :=
  { o with module := o.module.word, arena := o.arena.words }

/-- Builds what there is in a source.  The limit 0 means that every error is kept. -/
def Outcome.built (source : String) (limit : Nat) : Outcome :=
  let tokens := Token.ofSource source
  let (module, s) := Builder.module (Session.start tokens source limit)
  { module
    arena := s.arena
    diagnostics := s.sink.stored
    suppressed := s.sink.suppressed
    names := (Token.internAll NameTable.initial tokens).2 }

end PlatformGate
