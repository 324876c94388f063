/-
# Reading comes to an end

A parser that calls itself, and a loop that starts over, are nested calls.  `Founded step p` says
that the nesting comes to an end: with more calls inside each other than there are terminals, it
does not matter what the innermost call would do, and the result is that of `p`.  So no reading
nests deeper, and a call that does not return is never waited for.

All recursions and all loops of the library are founded (`terminating`).  Expressions and statements
are so because they meet the ones inside them behind a terminal of their own, and loops because
every item takes a terminal.
-/
import PlatformGate.Proofs.Parse.Unbounded

namespace PlatformGate.Parser

variable {α : Type}

/-- Nested deeper than there are terminals, `step` gives what `p` gives, whatever stands at the
bottom. -/
def Founded (step : Parser α → Parser α) (p : Parser α) : Prop :=
  ∀ (bottom : Parser α) (n : Nat) (i : Input), i.rest.length < n → n.repeat step bottom i = p i

/-- **A loop is founded if its items advance.**  The induction is on the rounds; every round but the
last leaves fewer terminals to the rounds behind it. -/
theorem founded_collect {item : Parser (Option α)} (h : ∀ m, AdvancesUpTo m item) :
    Founded (round item) (collect item) := by
  intro bottom n
  induction n with
  | zero =>
    intro i hi
    exact absurd hi (Nat.not_lt_zero _)
  | succ n ih =>
    intro i hi
    have hround : (n + 1).repeat (round item) bottom = round item (n.repeat (round item) bottom) :=
      rfl
    rw [hround, collect_eq (h i.rest.length)]
    apply round_congr
    intro hsome
    have hlt : (item i).next.rest.length < i.rest.length := h _ i (Nat.le_refl _) hsome
    exact ih _ (by omega)

/-- An expression of either reach, in terms of the expressions inside it. -/
def expression (inner : Reach → ValuePosition → Parser (Expr Run)) :
    Reach → ValuePosition → Parser (Expr Run)
  | .full => assignment inner
  | .ternary => ternary inner

/-- **Expressions nest no deeper than there are terminals,** whatever stands at the bottom. -/
theorem repeat_expression_eq (bottom : Reach → ValuePosition → Parser (Expr Run)) (n : Nat) :
    ∀ (reach : Reach) (pos : ValuePosition) (i : Input), i.rest.length < n →
      n.repeat expression bottom reach pos i = expr reach pos i := by
  induction n with
  | zero =>
    intro reach pos i hi
    exact absurd hi (Nat.not_lt_zero _)
  | succ n ih =>
    intro reach pos i hi
    have hinner : ∀ reach pos j, j.rest.length < i.rest.length →
        expr reach pos j = n.repeat expression bottom reach pos j := by
      intro reach pos j hj
      exact (ih reach pos j (by omega)).symm
    cases reach with
    | full =>
      rw [expr_full_eq]
      exact (assignment_congr readsExpr_expr hinner pos (Nat.le_refl _)).symm
    | ternary =>
      rw [expr_ternary_eq]
      exact (ternary_congr readsExpr_expr hinner pos (Nat.le_refl _)).symm

/-- **Statements nest no deeper than there are terminals.** -/
theorem founded_stmt : Founded statement stmt := by
  intro bottom n
  induction n with
  | zero =>
    intro i hi
    exact absurd hi (Nat.not_lt_zero _)
  | succ n ih =>
    intro i hi
    have hinner : ∀ j : Input, j.rest.length < i.rest.length →
        stmt j = n.repeat statement bottom j := by
      intro j hj
      exact (ih j (by omega)).symm
    rw [stmt_eq]
    exact (statement_congr (fun j _ => stmt_reads j) hinner (Nat.le_refl _)).symm

/-- Every recursion and every loop of the parsers comes to an end. -/
structure Terminating : Prop where
  statements : Founded statement stmt
  expressions : ∀ bottom n reach pos i, i.rest.length < n →
    n.repeat expression bottom reach pos i = expr reach pos i
  topLevel : Founded (round topLevelItem?) (collect topLevelItem?)
  block : ∀ opener, Founded (round (blockItem? stmt opener)) (collect (blockItem? stmt opener))
  restOfLine : ∀ c, Founded (round (trailing? c)) (collect (trailing? c))
  conditions : ∀ o, Founded (round (clauseBehindComma? o)) (collect (clauseBehindComma? o))
  entries : ∀ resume,
    Founded (round (entryBehindComma? resume)) (collect (entryBehindComma? resume))
  values : ∀ pos, Founded (round (valueBehindComma? (expr .full pos)))
    (collect (valueBehindComma? (expr .full pos)))
  arguments : ∀ pos,
    Founded (round (arguments? (expr .full pos))) (collect (arguments? (expr .full pos)))
  signs : Founded (round sign?) (collect sign?)
  links : Founded (round (link? (expr .full))) (collect (link? (expr .full)))

theorem terminating : Terminating where
  statements := founded_stmt
  expressions := repeat_expression_eq
  topLevel := founded_collect topLevelItem?_advances
  block := fun opener =>
    founded_collect fun m => blockItem?_advances (fun i _ => stmt_reads i) (Nat.lt_succ_self m) opener
  restOfLine := fun c => founded_collect (trailing?_advances c)
  conditions := fun o => founded_collect (clauseBehindComma?_advances o)
  entries := fun resume => founded_collect (entryBehindComma?_advances resume)
  values := fun pos => founded_collect (valueBehindComma?_advances (readsExpr_expr _ pos))
  arguments := fun pos => founded_collect (arguments?_advances (readsExpr_expr _ pos))
  signs := founded_collect sign?_advances
  links := founded_collect (link?_advances fun pos => readsExpr_expr _ pos)

end PlatformGate.Parser
