/-
# Operators

Binary operators bind with a power from 1 to 5, and operators of one power group to the left.
-/
import PlatformGate.Token.Kind

namespace PlatformGate

/-- The binary operators, the loosest first. -/
inductive BinaryOperator
  | or | and | eq | notEq | lt | ltEq | gt | gtEq | add | sub | mul | div | mod
  deriving DecidableEq, Repr, Inhabited

namespace BinaryOperator

def all : List BinaryOperator :=
  [or, and, eq, notEq, lt, ltEq, gt, gtEq, add, sub, mul, div, mod]

/-- The token that is written for the operator. -/
def token : BinaryOperator → Fixed
  | or => .pipePipe
  | and => .ampAmp
  | eq => .eqEq
  | notEq => .notEq
  | lt => .lt
  | ltEq => .ltEq
  | gt => .gt
  | gtEq => .gtEq
  | add => .plus
  | sub => .minus
  | mul => .star
  | div => .slash
  | mod => .percent

def symbol (o : BinaryOperator) : String := o.token.spelling

/-- How tightly the operator binds. -/
def power : BinaryOperator → Nat
  | or => 1
  | and => 2
  | eq | notEq | lt | ltEq | gt | gtEq => 3
  | add | sub => 4
  | mul | div | mod => 5

/-- The operator for which a fixed token is written. -/
def ofFixed? (f : Fixed) : Option BinaryOperator := all.find? fun o => o.token == f

/-- The operator that a token of the given kind is. -/
def ofKind? {ν : Type} : Kind ν → Option BinaryOperator
  | .fixed f => ofFixed? f
  | _ => none

theorem ofFixed?_token (o : BinaryOperator) : ofFixed? o.token = some o := by
  cases o <;> rfl

end BinaryOperator

/-- The operators in front of a value. -/
inductive UnaryOperator
  | not | neg
  deriving DecidableEq, Repr, Inhabited

namespace UnaryOperator

def all : List UnaryOperator := [not, neg]

/-- The token that is written for the operator. -/
def token : UnaryOperator → Fixed
  | not => .bang
  | neg => .minus

def symbol (o : UnaryOperator) : String := o.token.spelling

/-- The operator that a token of the given kind is. -/
def ofKind? {ν : Type} : Kind ν → Option UnaryOperator
  | .fixed .bang => some not
  | .fixed .minus => some neg
  | _ => none

end UnaryOperator

end PlatformGate
