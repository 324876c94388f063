/-
# Reading expressions

    expr     := ternary ('=' expr)?
    ternary  := chain ('?' ternary ':' ternary)?
    chain    := operand (BINARY operand)*
    operand  := ('!' | '-')* primary ('(' list ')')*
    primary  := NUMBER | 'true' | 'false' | WORD | '_' | '(' list ')'

A chain is read from left to right and then grouped by the power of its operators.  Wherever an
expression stands inside another, a token has been read before it; so the nesting is bounded by
the number of tokens, and `exprWithin` recurs on that bound.
-/
import PlatformGate.Parse.Recovery
import PlatformGate.Syntax.Tree

namespace PlatformGate

namespace Expr

/-- The expression with an operator and a right operand behind it.  The operator takes over the
right side of every looser operator that the expression ends with. -/
def graft (op : BinaryOperator) (right : Expr Run) : Expr Run → Expr Run
  | .binary o l r p =>
    if o.power < op.power then .binary o l (graft op right r) (p.through right.place)
    else .binary op (.binary o l r p) right (p.through right.place)
  | e => .binary op e right (e.place.through right.place)

/-- Groups a chain of operators and operands behind a first operand. -/
def ofChain (first : Expr Run) (links : List (BinaryOperator × Expr Run)) : Expr Run :=
  links.foldl (fun e link => graft link.1 link.2 e) first

/-- Puts operators in front of an operand.  Each comes with the index of its token. -/
def ofSigns (signs : List (UnaryOperator × Nat)) (operand : Expr Run) : Expr Run :=
  signs.foldr (fun s e => .unary s.1 e ⟨s.2, e.place.past⟩) operand

/-- Calls a callee with one argument list after another.  Each comes with the index behind its
last token. -/
def ofCalls (callee : Expr Run) (lists : List (List (Expr Run) × Nat)) : Expr Run :=
  lists.foldl (fun e l => .call e l.1 ⟨e.place.first, l.2⟩) callee

end Expr

/-- How far an expression reaches: with an assignment or without. -/
inductive Reach
  | full | ternary
  deriving DecidableEq, Repr, Inhabited

namespace Parser

/-! ## 1. Parts -/

/-- The placeholder in front of the next terminal. -/
def errorHere : Parser (Expr Run) := do
  return .error (Run.point (← position))

/-- Reports that a value is missing, and puts a placeholder there. -/
def missingValue (pos : ValuePosition) : Parser (Expr Run) := do
  report (.missingValue pos) (Run.point (← position))
  errorHere

/-- The value behind a comma, if a comma comes next. -/
def valueBehindComma? (value : Parser (Expr Run)) : Parser (Option (Expr Run)) := do
  if ← eat .comma then
    let e ← value
    return some e
  else return none

/-- The values between parentheses and the closing parenthesis.  The opening one has been read;
its index is `opener`. -/
def values (value : Parser (Expr Run)) (construct : Construct) (opener : Nat) :
    Parser (List (Expr Run)) := do
  if ← eat .rparen then return []
  let first ← value
  let others ← collect (valueBehindComma? value)
  leftovers construct (TagSet.ofFixed [.rparen]) false
  if ← eat .rparen then return first :: others
  unclosed construct opener TagSet.empty
  return first :: others

/-- What values between parentheses are: one is itself, others are a tuple. -/
def grouped (place : Run) : List (Expr Run) → Expr Run
  | [e] => .paren e place
  | es => .tuple es place

/-- A value without operators.  `item` reads a value of a tuple. -/
def primary (item : Parser (Expr Run)) (pos : ValuePosition) : Parser (Expr Run) := do
  let start ← position
  match ← kind with
  | .number v =>
    next
    return .int v (Run.token start)
  | .fixed .trueWord =>
    next
    return .bool true (Run.token start)
  | .fixed .falseWord =>
    next
    return .bool false (Run.token start)
  | .word name =>
    next
    return .ident name (Run.token start)
  | .fixed .underscore =>
    next
    return .discard (Run.token start)
  | .fixed .lparen =>
    next
    let items ← values item .tuple start
    return grouped (← runFrom start) items
  | .invalid =>
    let place ← invalidToken
    return .error place
  | _ => missingValue pos

/-- The argument list of a call, if one comes next.  It begins on the line of the callee. -/
def arguments? (arg : Parser (Expr Run)) : Parser (Option (List (Expr Run) × Nat)) := do
  let opener ← position
  if (← check .lparen) && !(← afterNewline) then
    next
    let args ← values arg .call opener
    return some (args, ← position)
  else return none

/-- An operator in front of a value, if one comes next. -/
def sign? : Parser (Option (UnaryOperator × Nat)) := do
  let start ← position
  match UnaryOperator.ofKind? (← kind) with
  | some op =>
    next
    return some (op, start)
  | none => return none

/-- A value with the operators in front of it and the calls behind it. -/
def operand (inner : ValuePosition → Parser (Expr Run)) (pos : ValuePosition) :
    Parser (Expr Run) := do
  let signs ← collect sign?
  let callee ← primary (inner .tuple) (if signs.isEmpty then pos else .prefixOperand)
  let lists ← collect (arguments? (inner .call))
  return Expr.ofSigns signs (Expr.ofCalls callee lists)

/-- A binary operator and its right operand, if an operator comes next. -/
def link? (inner : ValuePosition → Parser (Expr Run)) :
    Parser (Option (BinaryOperator × Expr Run)) := do
  match BinaryOperator.ofKind? (← kind) with
  | some op =>
    next
    let right ← operand inner .infixOperand
    return some (op, right)
  | none => return none

/-- Operands with binary operators between them. -/
def chain (inner : ValuePosition → Parser (Expr Run)) (pos : ValuePosition) :
    Parser (Expr Run) := do
  let first ← operand inner pos
  let links ← collect (link? inner)
  return Expr.ofChain first links

/-! ## 2. Whole expressions -/

/-- The branch behind `:`.  A branch in front that reported nothing needs the `:`. -/
def otherwise (branch : Parser (Expr Run)) (quiet : Bool) : Parser (Expr Run) := do
  if ← eat .colon then branch
  else if quiet then
    reportHere .missingColon
    errorHere
  else errorHere

/-- A chain, and the branches of a ternary if `?` follows. -/
def ternary (inner : Reach → ValuePosition → Parser (Expr Run)) (pos : ValuePosition) :
    Parser (Expr Run) := do
  let start ← position
  let cond ← chain (inner .full) pos
  if ← eat .question then
    let (whenTrue, quiet) ← quietly (inner .ternary .ternary)
    let whenFalse ← otherwise (inner .ternary .ternary) quiet
    return .ternary cond whenTrue whenFalse (← runFrom start)
  else return cond

/-- A ternary, and the value of an assignment if `=` follows. -/
def assignment (inner : Reach → ValuePosition → Parser (Expr Run)) (pos : ValuePosition) :
    Parser (Expr Run) := do
  let start ← position
  let target ← ternary inner pos
  if ← eat .eq then
    let value ← inner .full .assignment
    return .assign target value (← runFrom start)
  else return target

/-- An expression with at most `n` levels of nesting.  Beyond that a value is missing. -/
def exprWithin : Nat → Reach → ValuePosition → Parser (Expr Run)
  | 0, _, pos => missingValue pos
  | n + 1, .full, pos => assignment (exprWithin n) pos
  | n + 1, .ternary, pos => ternary (exprWithin n) pos

/-- An expression.  No expression nests deeper than there are terminals. -/
def expr (reach : Reach) (pos : ValuePosition) : Parser (Expr Run) := fun i =>
  exprWithin (i.rest.length + 1) reach pos i

end Parser

end PlatformGate
