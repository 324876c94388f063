/-
# Tokens of a source

The lexemes of a source become its tokens: a lexeme of white space or a comment only leaves a mark
in the layout of the token behind it.  The last token is the end of file, a point after the text.
-/
import PlatformGate.Lexeme
import PlatformGate.Text.Slice
import PlatformGate.Token.Basic

namespace PlatformGate

/-- The mark that a lexeme leaves in the layout; `none` if it is a token. -/
def Shape.mark? : Shape → Option Layout
  | .blank => some { blank := true }
  | .newline => some { newline := true, lineStart := true }
  | .comment => some { comment := true }
  | _ => none

namespace Token

/-- The tokens of lexemes that begin at a byte offset, with the marks left since the token
before. -/
def ofLexemes (offset : Nat) (pending : Layout) : List Lexeme → List (Token String)
  | [] => [⟨.endOfFile, Span.point offset, pending⟩]
  | l :: ls =>
    let stop := offset + Text.byteLength l.text
    match l.shape.mark? with
    | some mark => ofLexemes stop (pending.union mark) ls
    | none => ⟨l.kind, ⟨offset, stop⟩, pending⟩ :: ofLexemes stop Layout.none ls

/-- The tokens of a source.  Its first token starts a line. -/
def ofSource (source : String) : List (Token String) :=
  ofLexemes 0 Layout.atLineStart (Lexeme.scan source.toList)

end Token

/-- The kind with its text numbered. -/
def Kind.intern (table : NameTable) : Kind String → Kind Name × NameTable
  | .fixed f => (.fixed f, table)
  | .poundWord text => let (name, table) := table.intern text; (.poundWord name, table)
  | .word text => let (name, table) := table.intern text; (.word name, table)
  | .number v => (.number v, table)
  | .invalid => (.invalid, table)
  | .endOfFile => (.endOfFile, table)

namespace Token

/-- The tokens with their texts numbered from left to right. -/
def internAll (table : NameTable) : List (Token String) → List (Token Name) × NameTable
  | [] => ([], table)
  | t :: ts =>
    let (kind, table) := t.kind.intern table
    let (rest, table) := internAll table ts
    (⟨kind, t.span, t.layout⟩ :: rest, table)

/-- Interning changes no span and no layout. -/
theorem map_span_internAll (table : NameTable) (ts : List (Token String)) :
    (internAll table ts).1.map Token.span = ts.map Token.span := by
  induction ts generalizing table with
  | nil => rfl
  | cons t ts ih => simp [internAll, ih]

end Token

end PlatformGate
