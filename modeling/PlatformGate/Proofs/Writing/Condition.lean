/-
# Availability conditions as they are written

A condition is what someone writes who asks for platforms: `if`, `guard` or `while`, one of the two
keywords, the items in parentheses, and an empty body.  It has a spelling, which is a list of
tokens, and a meaning, which is the query that a reader should come to.
-/
import PlatformGate.Proofs.Writing.Typeset
import PlatformGate.Report.Wording
import PlatformGate.Syntax.Tree

namespace PlatformGate

namespace Writing

open Spelling

/-- One to three components that can be written. -/
structure Dotted where
  components : List (Fin Lexeme.valueBound)
  nonempty : components ≠ []
  short : components.length ≤ 3

namespace Dotted

def version (d : Dotted) : Version where
  components := d.components.map Fin.val
  nonempty := fun h => d.nonempty (List.map_eq_nil_iff.mp h)
  short := by
    rw [List.length_map]
    exact d.short

def component (n : Fin Lexeme.valueBound) : Spelling := number n.val n.isLt

/-- The components with dots between. -/
def spelling (d : Dotted) : List Spelling :=
  (d.components.map component).intersperse (fixed .dot (by decide))

end Dotted

/-- An item as it is written. -/
inductive Item
  | star
  | platform (name : Identifier) (version : Option Dotted)

namespace Item

def spelling : Item → List Spelling
  | star => [fixed .star (by decide)]
  | platform name none => [identifier name]
  | platform name (some version) => identifier name :: version.spelling

/-- The entry that is meant. -/
def entry : Item → Entry Unit
  | star => Entry.star ()
  | platform name version => Entry.platform name.name (version.map Dotted.version) ()

end Item

/-- A statement that has one query for its conditions. -/
structure Condition where
  owner : Owner
  /-- Written with `#unavailable`. -/
  negated : Bool
  first : Item
  others : List Item
  /-- A comma stands behind the last item. -/
  trailing : Bool

namespace Condition

/-- The items, of which there is at least one. -/
def items (c : Condition) : List Item := c.first :: c.others

def ownerSpelling : Owner → Spelling
  | .ifStatement => fixed .ifWord (by decide)
  | .guardStatement => fixed .guardWord (by decide)
  | .whileStatement => fixed .whileWord (by decide)

def keywordSpelling : Bool → Spelling
  | false => fixed .available (by decide)
  | true => fixed .unavailable (by decide)

/-- An empty body, behind `else` for a `guard`. -/
def bodySpelling : Owner → List Spelling
  | .guardStatement =>
    [fixed .elseWord (by decide), fixed .lbrace (by decide), fixed .rbrace (by decide)]
  | _ => [fixed .lbrace (by decide), fixed .rbrace (by decide)]

/-- An item behind a comma. -/
def behindComma (item : Item) : List Spelling := fixed .comma (by decide) :: item.spelling

/-- What stands behind the items; `trailing` says whether a comma does. -/
def closing (trailing : Bool) : List Spelling :=
  (if trailing then [fixed .comma (by decide)] else []) ++ [fixed .rparen (by decide)]

def querySpelling (c : Condition) : List Spelling :=
  keywordSpelling c.negated :: fixed .lparen (by decide) ::
    (c.first.spelling ++ (c.others.flatMap behindComma ++ closing c.trailing))

/-- The tokens that are written. -/
def spelling (c : Condition) : List Spelling :=
  ownerSpelling c.owner :: (c.querySpelling ++ bodySpelling c.owner)

/-- The statement of an owner with one query for its conditions and an empty body. -/
def stmt {ρ : Type} (owner : Owner) (q : Query ρ) (inner outer : ρ) : Stmt ρ :=
  match owner with
  | .ifStatement => .ifStmt [.availability q] (.block [] inner) (.body .missing) outer
  | .guardStatement => .guardStmt [.availability q] (.block [] inner) outer
  | .whileStatement => .whileStmt [.availability q] (.block [] inner) outer

/-- The query that is meant. -/
def query (c : Condition) : Query Unit := ⟨c.items.map Item.entry, c.negated, .done, ()⟩

end Condition

end Writing

end PlatformGate
