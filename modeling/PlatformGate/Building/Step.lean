/-
# Steps of building

A parser gives a tree and a list of reports, and both are handed on when the reading is over.  A
builder does all at once: it reports to the sink where a problem is found, and it keeps a node in
the arena, under the next machine word, as soon as the parts of the node are kept.  So it handles
ids and never sees a tree.  Looking, moving and reporting are those of the parsers; what a builder
does besides is to keep nodes and lists, and to ask the sink for its count of errors.
-/
import PlatformGate.Arena.Words
import PlatformGate.Outcome

namespace PlatformGate

/-- A way of reading that reports and keeps nodes as it goes. -/
abbrev Builder (α : Type) : Type := StateM Session α

namespace Builder

variable {α : Type}

/-- Looks, moves and reports as the parser does. -/
def read (p : Parser α) : Builder α := fun s => s.run p

/-- What depends on where the tokens stand in the source. -/
def located (f : (Run → Span) → α) : Builder α := fun s => (f s.locate, s)

/-- The span of a run of tokens. -/
def spanOf (r : Run) : Builder Span := located fun locate => locate r

/-- The span from the given token up to here. -/
def spanFrom (start : Nat) : Builder Span := do
  let r ← read (Parser.runFrom start)
  spanOf r

/-! ## 1. Nodes -/

/-- Keeps nodes in the arena. -/
def keep (nodes : StateM (Arena Span) α) : Builder α := fun s => s.keep nodes

def expr (form : ExprForm) (place : Span) : Builder (Id .expr) :=
  keep (Arena.allocExpr ⟨form, place⟩)

def exprs (ids : List (Id .expr)) : Builder (Slots .expr) := keep (Arena.allocExprs ids)

def stmt (form : StmtForm Span) (place : Span) : Builder (Id .stmt) :=
  keep (Arena.allocStmt ⟨form, place⟩)

def stmts (ids : List (Id .stmt)) : Builder (Slots .stmt) := keep (Arena.allocStmts ids)

def clause (form : ClauseForm Span) (place : Span) : Builder (Id .clause) :=
  keep (Arena.allocClause ⟨form, place⟩)

def clauses (ids : List (Id .clause)) : Builder (Slots .clause) := keep (Arena.allocClauses ids)

/-! ## 2. Errors -/

/-- How many errors the sink has counted. -/
def errorCount : Builder Nat := fun s => (s.sink.errorCount, s)

/-- The value of a builder, and whether no error was counted meanwhile. -/
def quietly (q : Builder α) : Builder (α × Bool) := do
  let before ← errorCount
  let a ← q
  let behind ← errorCount
  return (a, behind == before)

/-! ## 3. Repetition -/

/-- The items that a builder gives in at most `n` rounds. -/
def collectWithin (item : Builder (Option α)) : Nat → Builder (List α)
  | 0 => return []
  | n + 1 => do
    match ← item with
    | none => return []
    | some a =>
      let as ← collectWithin item n
      return a :: as

/-- The items that a builder gives until it gives none. -/
def collect (item : Builder (Option α)) : Builder (List α) := do
  let left ← read Parser.rest
  collectWithin item (left.length + 1)

end Builder

end PlatformGate
