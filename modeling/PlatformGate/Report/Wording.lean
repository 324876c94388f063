/-
# Words for places in the syntax

Messages name the place they speak about.  An owner is a statement that has a header; a construct
is what leftovers are found in; a value position is where a value was expected.
-/
import PlatformGate.Report.Code

namespace PlatformGate

/-- The statements that begin with a header of conditions. -/
inductive Owner
  | ifStatement | guardStatement | whileStatement
  deriving DecidableEq, Repr, Inhabited

namespace Owner

/-- The keyword of the statement. -/
def keyword : Owner → String
  | ifStatement => "if"
  | guardStatement => "guard"
  | whileStatement => "while"

def phrase (o : Owner) : String := s!"'{o.keyword}' statement"

end Owner

/-- What leftovers are found in, or what was never closed. -/
inductive Construct
  | availability | tuple | call
  | header (owner : Owner)
  | block | topLevel
  deriving DecidableEq, Repr, Inhabited

namespace Construct

/-- The code of leftovers. -/
def leftoverCode : Construct → Code
  | availability => .e1006
  | topLevel => .e1009
  | tuple | call | header _ | block => .e1008

/-- The message about leftovers, which quotes them. -/
def leftoverMessage (text : String) : Construct → String
  | topLevel => s!"extraneous code '{text}' at top level"
  | availability => s!"unexpected code '{text}' in availability condition"
  | tuple => s!"unexpected code '{text}' in tuple"
  | call => s!"unexpected code '{text}' in function call"
  | header owner => s!"unexpected code '{text}' in {owner.phrase}"
  | block => s!"unexpected code '{text}' in code block"

/-- The name of what a closing bracket ends. -/
def closingName : Construct → String
  | availability => "availability condition"
  | tuple => "tuple"
  | call => "function call"
  | block | header _ | topLevel => "code block"

/-- The code of a construct that is never closed. -/
def unclosedCode : Construct → Code
  | availability => .e1002
  | _ => .e1003

/-- The bracket that opens the construct. -/
def opening : Construct → String
  | block => "\x7b"
  | _ => "("

/-- The bracket that closes the construct. -/
def closing : Construct → String
  | block => "\x7d"
  | _ => ")"

end Construct

/-- Where a value is expected. -/
inductive ValuePosition
  /-- Behind the `=` of a declaration or binding. -/
  | declared
  /-- Behind `!` or `-`. -/
  | prefixOperand
  /-- Behind a binary operator. -/
  | infixOperand
  /-- A branch of `?` and `:`. -/
  | ternary
  /-- Behind the `=` of an assignment. -/
  | assignment
  | returned
  /-- Behind `case`. -/
  | pattern
  | tuple
  | call
  /-- A whole clause of a header. -/
  | header (owner : Owner)
  | statement
  deriving DecidableEq, Repr, Inhabited

namespace ValuePosition

/-- The message about a value that is missing. -/
def missingMessage : ValuePosition → String
  | tuple => "expected value in tuple"
  | call => "expected value in function call"
  | statement => "expected expression"
  | declared => "expected expression in variable"
  | prefixOperand => "expected expression in prefix operator expression"
  | infixOperand => "expected expression in infix operator expression"
  | ternary => "expected expression in ternary expression"
  | assignment => "expected expression in assignment"
  | returned => "expected expression in return statement"
  | pattern => "expected expression in pattern"
  | header owner => s!"expected expression in {owner.phrase}"

end ValuePosition

/-- What a binding pattern belongs to. -/
inductive PatternPosition
  | declared
  | header (owner : Owner)
  deriving DecidableEq, Repr, Inhabited

/-- The message about a pattern that is missing. -/
def PatternPosition.missingMessage : PatternPosition → String
  | declared => "expected pattern in variable"
  | header owner => s!"expected pattern in {owner.phrase}"

end PlatformGate
