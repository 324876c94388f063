/-
# A place in a token list

A cursor stands on a token of a list and moves forward one token at a time.  It never leaves the
list, and it does not move on from an end-of-file token.
-/
import PlatformGate.Token.Basic

namespace PlatformGate

/-- A token list and an index inside it. -/
structure Cursor (ν : Type) where
  tokens : TokenList ν
  position : Nat
  inside : position < tokens.tokens.size

namespace Cursor

variable {ν : Type}

/-- The cursor on the given index, if the list has one. -/
def at? (tokens : TokenList ν) (position : Nat) : Option (Cursor ν) :=
  if h : position < tokens.tokens.size then some ⟨tokens, position, h⟩ else none

/-- The token that the cursor stands on. -/
def current (c : Cursor ν) : Token ν :=
  have := c.inside
  c.tokens.tokens[c.position]

/-- The span of the token before; the dummy span on the first. -/
def previousSpan (c : Cursor ν) : Span :=
  match c.position with
  | 0 => Span.dummy
  | p + 1 => (c.tokens.get? p).elim Span.dummy Token.span

/-- The kind that stands `n` tokens ahead; past the last token it is the end of file. -/
def peek (c : Cursor ν) (n : Nat) : Kind ν :=
  (c.tokens.get? (c.position + n)).elim .endOfFile Token.kind

/-- Whether the current token has the given tag. -/
def check (c : Cursor ν) (t : Tag) : Bool := c.current.kind.tag == t

def isAtEnd (c : Cursor ν) : Bool := c.check .endOfFile

/-- One token further, or the same place at the end of file. -/
def next (c : Cursor ν) : Cursor ν :=
  if c.isAtEnd then c else (at? c.tokens (c.position + 1)).getD c

/-- The current token and the cursor behind it. -/
def advance (c : Cursor ν) : Token ν × Cursor ν := (c.current, c.next)

/-- The current token and the cursor behind it, if the token has the given tag. -/
def eat? (c : Cursor ν) (t : Tag) : Option (Token ν × Cursor ν) :=
  if c.check t then some c.advance else none

/-- The cursor moves by at most one token. -/
theorem position_next (c : Cursor ν) :
    c.next.position = c.position ∨ c.next.position = c.position + 1 := by
  unfold next at?
  split
  · exact Or.inl rfl
  · split
    · exact Or.inr rfl
    · exact Or.inl rfl

end Cursor

end PlatformGate
