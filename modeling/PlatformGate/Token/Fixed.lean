/-
# Fixed spellings

The tokens that are always written the same way: keywords, the two availability keywords,
brackets, punctuation and operators.  `ofSpelling?_eq_some_iff` says that a spelling has at most
one owner, and that every fixed token is found by its own.
-/

namespace PlatformGate

/-- A token with one spelling only. -/
inductive Fixed
  | ifWord | guardWord | whileWord | elseWord | letWord | varWord | caseWord | returnWord
  | trueWord | falseWord
  | available | unavailable
  | underscore
  | lparen | rparen | lbrace | rbrace | lbracket | rbracket
  | comma | dot | colon | semicolon | question | arrow
  | eq | eqEq | notEq | lt | ltEq | gt | gtEq
  | plus | minus | star | slash | percent | bang | ampAmp | pipePipe
  deriving DecidableEq, Repr, Inhabited

namespace Fixed

/-- Every fixed token, keywords first. -/
def all : List Fixed :=
  [ifWord, guardWord, whileWord, elseWord, letWord, varWord, caseWord, returnWord,
    trueWord, falseWord, available, unavailable, underscore,
    lparen, rparen, lbrace, rbrace, lbracket, rbracket,
    comma, dot, colon, semicolon, question, arrow,
    eq, eqEq, notEq, lt, ltEq, gt, gtEq,
    plus, minus, star, slash, percent, bang, ampAmp, pipePipe]

theorem mem_all (f : Fixed) : f ∈ all := by
  cases f <;> decide

/-- How the token is written in a source. -/
def spelling : Fixed → String
  | ifWord => "if"
  | guardWord => "guard"
  | whileWord => "while"
  | elseWord => "else"
  | letWord => "let"
  | varWord => "var"
  | caseWord => "case"
  | returnWord => "return"
  | trueWord => "true"
  | falseWord => "false"
  | available => "#available"
  | unavailable => "#unavailable"
  | underscore => "_"
  | lparen => "("
  | rparen => ")"
  | lbrace => "\x7b"
  | rbrace => "\x7d"
  | lbracket => "["
  | rbracket => "]"
  | comma => ","
  | dot => "."
  | colon => ":"
  | semicolon => ";"
  | question => "?"
  | arrow => "->"
  | eq => "="
  | eqEq => "=="
  | notEq => "!="
  | lt => "<"
  | ltEq => "<="
  | gt => ">"
  | gtEq => ">="
  | plus => "+"
  | minus => "-"
  | star => "*"
  | slash => "/"
  | percent => "%"
  | bang => "!"
  | ampAmp => "&&"
  | pipePipe => "||"

/-- What the token is called in listings. -/
def label : Fixed → String
  | ifWord => "If"
  | guardWord => "Guard"
  | whileWord => "While"
  | elseWord => "Else"
  | letWord => "Let"
  | varWord => "Var"
  | caseWord => "Case"
  | returnWord => "Return"
  | trueWord => "True"
  | falseWord => "False"
  | available => "PoundAvailable"
  | unavailable => "PoundUnavailable"
  | underscore => "Underscore"
  | lparen => "LParen"
  | rparen => "RParen"
  | lbrace => "LBrace"
  | rbrace => "RBrace"
  | lbracket => "LBracket"
  | rbracket => "RBracket"
  | comma => "Comma"
  | dot => "Dot"
  | colon => "Colon"
  | semicolon => "Semicolon"
  | question => "Question"
  | arrow => "Arrow"
  | eq => "Eq"
  | eqEq => "EqEq"
  | notEq => "NotEq"
  | lt => "Lt"
  | ltEq => "LtEq"
  | gt => "Gt"
  | gtEq => "GtEq"
  | plus => "Plus"
  | minus => "Minus"
  | star => "Star"
  | slash => "Slash"
  | percent => "Percent"
  | bang => "Bang"
  | ampAmp => "AmpAmp"
  | pipePipe => "PipePipe"

/-- The fixed token with the given spelling. -/
def ofSpelling? (text : String) : Option Fixed :=
  all.find? fun f => f.spelling == text

/-- Every fixed token is found by its own spelling. -/
theorem ofSpelling?_spelling (f : Fixed) : ofSpelling? f.spelling = some f := by
  cases f <;> decide

/-- No two fixed tokens are written alike. -/
theorem spelling_injective {f g : Fixed} (h : f.spelling = g.spelling) : f = g := by
  have := ofSpelling?_spelling f
  rw [h, ofSpelling?_spelling g] at this
  exact (Option.some.inj this).symm

theorem ofSpelling?_eq_some_iff {text : String} {f : Fixed} :
    ofSpelling? text = some f ↔ f.spelling = text := by
  constructor
  · intro h
    simpa using List.find?_some h
  · rintro rfl
    exact ofSpelling?_spelling f

/-- Either spelling of the availability keyword. -/
def isAvailability : Fixed → Bool
  | available | unavailable => true
  | _ => false

/-- Brackets that open a nesting level. -/
def isOpener : Fixed → Bool
  | lparen | lbrace | lbracket => true
  | _ => false

/-- Brackets that close a nesting level. -/
def isCloser : Fixed → Bool
  | rparen | rbrace | rbracket => true
  | _ => false

/-- Keywords that begin a statement. -/
def isStatementKeyword : Fixed → Bool
  | ifWord | guardWord | whileWord | letWord | varWord | returnWord => true
  | _ => false

end Fixed

/-- The text in braces. -/
def Text.braced (text : String) : String :=
  Fixed.lbrace.spelling ++ text ++ Fixed.rbrace.spelling

end PlatformGate
