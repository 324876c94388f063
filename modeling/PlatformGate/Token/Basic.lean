/-
# Tokens

A token is a kind at a span, with the layout in front of it.  White space and comments are no
tokens of their own: all that is known of them are the four marks of a layout.
-/
import PlatformGate.Span
import PlatformGate.Token.Kind

namespace PlatformGate

/-- What stands between a token and the one before it: blanks, a newline, a comment; and whether
the token is the first on its line. -/
structure Layout where
  blank : Bool := false
  newline : Bool := false
  comment : Bool := false
  lineStart : Bool := false
  deriving DecidableEq, Repr, Inhabited

namespace Layout

/-- Nothing in front. -/
def none : Layout := {}

/-- What the first token of a source starts from. -/
def atLineStart : Layout := { lineStart := true }

/-- All marks of both. -/
def union (l m : Layout) : Layout where
  blank := l.blank || m.blank
  newline := l.newline || m.newline
  comment := l.comment || m.comment
  lineStart := l.lineStart || m.lineStart

/-- The marks as one number: 1 for blanks, 2 for a newline, 4 for a comment, 8 for the start of
a line. -/
def toBits (l : Layout) : Nat :=
  l.blank.toNat + 2 * l.newline.toNat + 4 * l.comment.toNat + 8 * l.lineStart.toNat

/-- The layout with the given number; higher bits say nothing. -/
def ofBits (n : Nat) : Layout where
  blank := n.testBit 0
  newline := n.testBit 1
  comment := n.testBit 2
  lineStart := n.testBit 3

theorem ofBits_toBits (l : Layout) : ofBits l.toBits = l := by
  rcases l with ⟨b, n, c, s⟩
  cases b <;> cases n <;> cases c <;> cases s <;> rfl

end Layout

/-- A kind at a span, and the layout in front of it. -/
structure Token (ν : Type) where
  kind : Kind ν
  span : Span
  layout : Layout := Layout.none
  deriving DecidableEq, Repr, Inhabited

namespace Token

/-- The kind, and where it stands. -/
def describe (t : Token Name) : String := s!"{t.kind.describe} @ {t.span.render}"

end Token

/-- Tokens by index. -/
structure TokenList (ν : Type) where
  tokens : Array (Token ν) := #[]
  deriving Repr, Inhabited

namespace TokenList

variable {ν : Type}

def ofList (ts : List (Token ν)) : TokenList ν := ⟨ts.toArray⟩

def toList (ts : TokenList ν) : List (Token ν) := ts.tokens.toList

def push (ts : TokenList ν) (t : Token ν) : TokenList ν := ⟨ts.tokens.push t⟩

def size (ts : TokenList ν) : Nat := ts.tokens.size

def isEmpty (ts : TokenList ν) : Bool := ts.tokens.isEmpty

def get? (ts : TokenList ν) (i : Nat) : Option (Token ν) := ts.tokens[i]?

/-- The layout before the token at an index; past the end there is nothing in front. -/
def layoutAt (ts : TokenList ν) (i : Nat) : Layout :=
  (ts.get? i).elim Layout.none Token.layout

theorem toList_push (ts : TokenList ν) (t : Token ν) :
    (ts.push t).toList = ts.toList ++ [t] := by
  simp [push, toList]

end TokenList

end PlatformGate
