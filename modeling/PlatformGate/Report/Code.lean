/-
# Error codes

Every diagnostic has a code.  Codes below 1000 are about characters, the others about syntax.
-/

namespace PlatformGate

/-- The codes, each named by its number. -/
inductive Code
  | e0001 | e1001 | e1002 | e1003 | e1004 | e1005 | e1006 | e1007 | e1008 | e1009 | e1010
  | e1011 | e1012
  deriving DecidableEq, Repr, Inhabited

/-- What sort of trouble a code stands for. -/
inductive Category
  /-- Bad input at the level of characters. -/
  | lexical
  /-- A bracket, keyword or body is missing. -/
  | structural
  /-- A name, version or pattern was expected and not found. -/
  | content
  /-- A connective stands where none may. -/
  | illegalOperator
  /-- A value was expected where something else stands. -/
  | misuse
  /-- Leftovers, quoted as they are written. -/
  | trailing
  deriving DecidableEq, Repr, Inhabited

namespace Category

def label : Category → String
  | lexical => "Lexical"
  | structural => "Structural"
  | content => "Content"
  | illegalOperator => "IllegalOperator"
  | misuse => "Misuse"
  | trailing => "Trailing"

end Category

namespace Code

/-- Every code, in numeric order. -/
def all : List Code :=
  [e0001, e1001, e1002, e1003, e1004, e1005, e1006, e1007, e1008, e1009, e1010, e1011, e1012]

def text : Code → String
  | e0001 => "E0001"
  | e1001 => "E1001"
  | e1002 => "E1002"
  | e1003 => "E1003"
  | e1004 => "E1004"
  | e1005 => "E1005"
  | e1006 => "E1006"
  | e1007 => "E1007"
  | e1008 => "E1008"
  | e1009 => "E1009"
  | e1010 => "E1010"
  | e1011 => "E1011"
  | e1012 => "E1012"

/-- The code with the given text. -/
def ofText? (s : String) : Option Code := all.find? fun c => c.text == s

def description : Code → String
  | e0001 => "invalid token"
  | e1001 => "missing '(' in availability condition"
  | e1002 => "missing ')' in availability condition"
  | e1003 => "unclosed delimiter"
  | e1004 => "expected platform name"
  | e1005 => "expected version number"
  | e1006 => "illegal operator in availability condition"
  | e1007 => "expected expression"
  | e1008 => "unexpected code"
  | e1009 => "extraneous code at top level"
  | e1010 => "missing statement body"
  | e1011 => "expected token"
  | e1012 => "expected pattern"

def category : Code → Category
  | e0001 => .lexical
  | e1001 | e1002 | e1003 | e1010 | e1011 => .structural
  | e1004 | e1005 | e1012 => .content
  | e1006 => .illegalOperator
  | e1007 => .misuse
  | e1008 | e1009 => .trailing

/-- Codes of the lexical phase. -/
def isLexical (c : Code) : Bool := c == e0001

/-- Codes of the syntactic phase: all others. -/
def isSyntactic (c : Code) : Bool := !c.isLexical

theorem mem_all (c : Code) : c ∈ all := by
  cases c <;> decide

end Code

end PlatformGate
