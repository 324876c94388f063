/-
# Building expressions

    expr     := ternary ('=' expr)?
    ternary  := binary ('?' ternary ':' ternary)?
    binary   := prefixed (BINARY prefixed)*
    prefixed := ('!' | '-') prefixed | postfix
    postfix  := primary ('(' list ')')*

Binary operators are read by climbing: one loop for every least power that an operator may have.
The right operand of an operator is read by the loop for tighter operators.
-/
import PlatformGate.Building.Step

namespace PlatformGate.Builder

/-! ## 1. Primary values -/

/-- The placeholder in front of the next token. -/
def errorHere : Builder (Id .expr) := do
  let n ← read Parser.position
  expr .error (← spanOf (Run.point n))

/-- Reports that a value is missing, and puts a placeholder there. -/
def missingValue (pos : ValuePosition) : Builder (Id .expr) := do
  let n ← read Parser.position
  read (Parser.report (.missingValue pos) (Run.point n))
  errorHere

/-- The value behind a comma, if a comma comes next. -/
def valueBehindComma? (value : Builder (Id .expr)) : Builder (Option (Id .expr)) := do
  if ← read (Parser.eat .comma) then
    let i ← value
    return some i
  else return none

/-- The values between parentheses and the closing parenthesis.  The opening one has been read; its
index is `opener`. -/
def values (value : Builder (Id .expr)) (construct : Construct) (opener : Nat) :
    Builder (List (Id .expr)) := do
  if ← read (Parser.eat .rparen) then return []
  let first ← value
  let others ← collect (valueBehindComma? value)
  read (Parser.leftovers construct (TagSet.ofFixed [.rparen]) false)
  if ← read (Parser.eat .rparen) then return first :: others
  read (Parser.unclosed construct opener TagSet.empty)
  return first :: others

/-- What values between parentheses are: none are the empty tuple, one is itself, others are a tuple
with a list. -/
def grouped : List (Id .expr) → Builder ExprForm
  | [] => return .tuple Slots.empty
  | [i] => return .paren i
  | is => do
    let r ← exprs is
    return .tuple r

/-- A value that is the next token. -/
def terminal (start : Nat) (form : ExprForm) : Builder (Id .expr) := do
  read Parser.next
  expr form (← spanOf (Run.token start))

/-- A value without operators.  `item` reads a value of a tuple. -/
def primary (item : Builder (Id .expr)) (pos : ValuePosition) : Builder (Id .expr) := do
  let start ← read Parser.position
  match ← read Parser.kind with
  | .number v => terminal start (.int v)
  | .fixed .trueWord => terminal start (.bool true)
  | .fixed .falseWord => terminal start (.bool false)
  | .word name => terminal start (.ident name)
  | .fixed .underscore => terminal start .discard
  | .fixed .lparen =>
    read Parser.next
    let items ← values item .tuple start
    let form ← grouped items
    expr form (← spanFrom start)
  | .invalid =>
    let place ← read Parser.invalidToken
    expr .error (← spanOf place)
  | _ => missingValue pos

/-! ## 2. Operators -/

/-- The calls behind a callee, in at most so many rounds.  A call begins on the line of the
callee. -/
def callsWithin (arg : Builder (Id .expr)) (start : Nat) : Nat → Id .expr → Builder (Id .expr)
  | 0, callee => return callee
  | rounds + 1, callee => do
    let opener ← read Parser.position
    if (← read (Parser.check .lparen)) && !(← read Parser.afterNewline) then
      read Parser.next
      let args ← values arg .call opener
      let r ← exprs args
      let call ← expr (.call callee r) (← spanFrom start)
      callsWithin arg start rounds call
    else return callee

/-- A value and the calls behind it. -/
def called (inner : ValuePosition → Builder (Id .expr)) (pos : ValuePosition) :
    Builder (Id .expr) := do
  let start ← read Parser.position
  let callee ← primary (inner .tuple) pos
  let left ← read Parser.rest
  callsWithin (inner .call) start (left.length + 1) callee

/-- A value with at most so many operators in front of it. -/
def prefixedWithin (inner : ValuePosition → Builder (Id .expr)) :
    Nat → ValuePosition → Builder (Id .expr)
  | 0, pos => called inner pos
  | n + 1, pos => do
    let start ← read Parser.position
    match UnaryOperator.ofKind? (← read Parser.kind) with
    | some op =>
      read Parser.next
      let i ← prefixedWithin inner n .prefixOperand
      expr (.unary op i) (← spanFrom start)
    | none => called inner pos

/-- A value with the operators in front of it and the calls behind it. -/
def prefixed (inner : ValuePosition → Builder (Id .expr)) (pos : ValuePosition) :
    Builder (Id .expr) := do
  let left ← read Parser.rest
  prefixedWithin inner (left.length + 1) pos

/-- The operators behind a left operand that bind at least as tightly as the power, in at most so
many rounds.  `tighter` reads the right operand of an operator, from the power on that it is
given. -/
def climbWithin (tighter : Nat → Builder (Id .expr)) (start least : Nat) :
    Nat → Id .expr → Builder (Id .expr)
  | 0, left => return left
  | rounds + 1, left => do
    match BinaryOperator.ofKind? (← read Parser.kind) with
    | some op =>
      if op.power < least then return left
      else
        read Parser.next
        let right ← tighter (op.power + 1)
        let both ← expr (.binary op left right) (← spanFrom start)
        climbWithin tighter start least rounds both
    | none => return left

/-- An operand and the operators behind it that bind at least as tightly as the power.  Right
operands are read on one level less. -/
def climb (inner : ValuePosition → Builder (Id .expr)) :
    Nat → Nat → ValuePosition → Builder (Id .expr)
  | 0, _, pos => prefixed inner pos
  | levels + 1, least, pos => do
    let start ← read Parser.position
    let left ← prefixed inner pos
    let rounds := (← read Parser.rest).length + 1
    climbWithin (fun power => climb inner levels power .infixOperand) start least rounds left

/-- Operands with binary operators between them.  There is a level for each power and one for the
operands. -/
def binary (inner : ValuePosition → Builder (Id .expr)) (pos : ValuePosition) :
    Builder (Id .expr) := climb inner 6 0 pos

/-! ## 3. Whole expressions -/

/-- The branch behind `:`.  A branch in front without an error needs the `:`. -/
def otherwise (branch : Builder (Id .expr)) (quiet : Bool) : Builder (Id .expr) := do
  if ← read (Parser.eat .colon) then branch
  else if quiet then
    read (Parser.reportHere .missingColon)
    errorHere
  else errorHere

/-- Operands with operators, and the branches of a ternary if `?` follows. -/
def ternary (inner : Reach → ValuePosition → Builder (Id .expr)) (pos : ValuePosition) :
    Builder (Id .expr) := do
  let start ← read Parser.position
  let cond ← binary (inner .full) pos
  if ← read (Parser.eat .question) then
    let (whenTrue, quiet) ← quietly (inner .ternary .ternary)
    let whenFalse ← otherwise (inner .ternary .ternary) quiet
    expr (.ternary cond whenTrue whenFalse) (← spanFrom start)
  else return cond

/-- A ternary, and the value of an assignment if `=` follows. -/
def assignment (inner : Reach → ValuePosition → Builder (Id .expr)) (pos : ValuePosition) :
    Builder (Id .expr) := do
  let start ← read Parser.position
  let target ← ternary inner pos
  if ← read (Parser.eat .eq) then
    let value ← inner .full .assignment
    expr (.assign target value) (← spanFrom start)
  else return target

/-- An expression with at most `n` levels of nesting. -/
def exprWithin : Nat → Reach → ValuePosition → Builder (Id .expr)
  | 0, _, pos => missingValue pos
  | n + 1, .full, pos => assignment (exprWithin n) pos
  | n + 1, .ternary, pos => ternary (exprWithin n) pos

/-- An expression.  No expression nests deeper than there are tokens. -/
def expression (reach : Reach) (pos : ValuePosition) : Builder (Id .expr) := do
  let left ← read Parser.rest
  exprWithin (left.length + 1) reach pos

end PlatformGate.Builder
