/-
# Kinds of tokens

A kind says what a token is and carries its value: the name of a word, the value of a number.
The type of names is left open, since a token first holds the text of a word and, once numbered,
its name.  A tag is a kind without its value.
-/
import PlatformGate.Names
import PlatformGate.Token.Fixed

namespace PlatformGate

/-- What a token is.  `invalid` is a character that begins no token, or a number too large. -/
inductive Kind (ν : Type)
  | fixed (f : Fixed)
  | poundWord (name : ν)
  | word (name : ν)
  | number (value : Nat)
  | invalid
  | endOfFile
  deriving DecidableEq, Repr, Inhabited

/-- A kind without its value. -/
inductive Tag
  | fixed (f : Fixed)
  | poundWord
  | word
  | number
  | invalid
  | endOfFile
  deriving DecidableEq, Repr, Inhabited

namespace Tag

/-- Every tag, in the order of their numbers. -/
def all : List Tag :=
  [.ifWord, .guardWord, .whileWord, .elseWord, .letWord, .varWord, .caseWord, .returnWord,
    .trueWord, .falseWord, .available, .unavailable].map fixed
  ++ [poundWord, word, number]
  ++ [.underscore, .lparen, .rparen, .lbrace, .rbrace, .lbracket, .rbracket,
    .comma, .dot, .colon, .semicolon, .question, .arrow,
    .eq, .eqEq, .notEq, .lt, .ltEq, .gt, .gtEq,
    .plus, .minus, .star, .slash, .percent, .bang, .ampAmp, .pipePipe].map fixed
  ++ [invalid, endOfFile]

theorem mem_all (t : Tag) : t ∈ all := by
  cases t with
  | fixed f => cases f <;> decide
  | _ => decide

/-- The number of a tag is its place among all of them. -/
def order (t : Tag) : Nat := all.idxOf t

/-- The number of the last tag. -/
def maxNumber : Nat := all.length - 1

/-- What the tag is called in listings. -/
def label : Tag → String
  | fixed f => f.label
  | poundWord => "PoundIdent"
  | word => "Ident"
  | number => "Int"
  | invalid => "Error"
  | endOfFile => "Eof"

/-- The tag with the given label. -/
def ofLabel? (text : String) : Option Tag :=
  all.find? fun t => t.label == text

end Tag

namespace Kind

variable {ν : Type}

def tag : Kind ν → Tag
  | fixed f => .fixed f
  | poundWord _ => .poundWord
  | word _ => .word
  | number _ => .number
  | invalid => .invalid
  | endOfFile => .endOfFile

/-- The name that the kind carries. -/
def name? : Kind ν → Option ν
  | poundWord n | word n => some n
  | _ => none

/-- The same kind with another name. -/
def mapName {μ : Type} (f : ν → μ) : Kind ν → Kind μ
  | fixed s => fixed s
  | poundWord n => poundWord (f n)
  | word n => word (f n)
  | number v => number v
  | invalid => invalid
  | endOfFile => endOfFile

/-- Holds for a fixed token of the given class. -/
def isFixed (p : Fixed → Bool) : Kind ν → Bool
  | fixed f => p f
  | _ => false

/-- Either spelling of the availability keyword. -/
def isAvailability (k : Kind ν) : Bool := k.isFixed Fixed.isAvailability

/-- Brackets that open a nesting level. -/
def isOpener (k : Kind ν) : Bool := k.isFixed Fixed.isOpener

/-- Brackets that close a nesting level. -/
def isCloser (k : Kind ν) : Bool := k.isFixed Fixed.isCloser

/-- Keywords that begin a statement. -/
def isStatementKeyword (k : Kind ν) : Bool := k.isFixed Fixed.isStatementKeyword

/-- What a reader of messages calls the kind: the spelling in backticks, or a description where
the spelling varies. -/
def displayName : Kind ν → String
  | fixed f => "`" ++ f.spelling ++ "`"
  | poundWord _ => "pound keyword"
  | word _ => "identifier"
  | number _ => "integer"
  | invalid => "invalid token"
  | endOfFile => "end of file"

/-- The label with the value in parentheses behind it. -/
def describe : Kind Name → String
  | poundWord n => s!"PoundIdent({n.describe})"
  | word n => s!"Ident({n.describe})"
  | number v => s!"Int({v})"
  | k => k.tag.label

end Kind

end PlatformGate
