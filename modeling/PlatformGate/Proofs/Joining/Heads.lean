/-
# The first terminal of a statement

A terminal lies in its line in some way, but whoever reads it as the first of a statement does not
look: a keyword or the beginning of an expression is taken by its kind alone.  So a source reads the
same below another, where a newline stands in front of its first token (`topLevel_head`).
-/
import PlatformGate.Proofs.Parse.Unbounded

namespace PlatformGate

namespace Parser

variable {α β : Type} {i j : Input} {t u : Terminal} {p : Nat} {ts : List Terminal}

/-- Where the first part of a chain comes out the same, so does the chain. -/
theorem bind_head {q : Parser α} {f : α → Parser β} (h : q i = q j) :
    (q >>= f) i = (q >>= f) j := by
  rw [bind_apply, bind_apply, h]

/-- A first part that only looks, and sees the same, makes no difference. -/
theorem look_head {q : Parser α} {f : α → Parser β} {a : α} (hi : q i = ⟨a, [], i⟩)
    (hj : q j = ⟨a, [], j⟩) (h : f a i = f a j) : (q >>= f) i = (q >>= f) j := by
  rw [bind_apply, bind_apply, hi, hj]
  simp only [h]

/-- The index of the next terminal is the same for both. -/
theorem position_head {f : Nat → Parser β} (h : f p ⟨p, u :: ts⟩ = f p ⟨p, t :: ts⟩) :
    (position >>= f) ⟨p, u :: ts⟩ = (position >>= f) ⟨p, t :: ts⟩ := look_head rfl rfl h

/-- So is the kind. -/
theorem kind_head {f : Kind String → Parser β} (hkind : u.kind = t.kind)
    (h : f t.kind ⟨p, u :: ts⟩ = f t.kind ⟨p, t :: ts⟩) :
    (kind >>= f) ⟨p, u :: ts⟩ = (kind >>= f) ⟨p, t :: ts⟩ := by
  have hu : kind ⟨p, u :: ts⟩ = ⟨t.kind, [], ⟨p, u :: ts⟩⟩ := congrArg (Step.mk · [] _) hkind
  exact look_head hu rfl h

/-- A terminal that is taken is gone. -/
theorem next_head {f : Unit → Parser β} :
    (next >>= f) ⟨p, u :: ts⟩ = (next >>= f) ⟨p, t :: ts⟩ := rfl

section Head

variable (hkind : u.kind = t.kind)

include hkind

/-! ## 1. Expressions -/

/-- A primary value takes its first terminal by its kind. -/
theorem primary_head (item : Parser (Expr Run)) (pos : ValuePosition)
    (hstart : TagSet.expressionStart.contains t.kind = true)
    (hsign : UnaryOperator.ofKind? t.kind = none) :
    primary item pos ⟨p, u :: ts⟩ = primary item pos ⟨p, t :: ts⟩ := by
  refine position_head (kind_head hkind ?_)
  generalize t.kind = k at hstart hsign
  cases k with
  | fixed f => cases f <;> first
    | rfl | exact absurd hstart (by decide) | exact absurd hsign (by decide)
  | poundWord | endOfFile => exact absurd hstart Bool.false_ne_true
  | _ => rfl

/-- Signs are taken by their kind, and in front of anything else there is none. -/
theorem collect_signs_head (hsign : UnaryOperator.ofKind? t.kind ≠ none) :
    collect sign? ⟨p, u :: ts⟩ = collect sign? ⟨p, t :: ts⟩ := by
  obtain ⟨op, hop⟩ := Option.ne_none_iff_exists'.mp hsign
  rw [collect_eq (sign?_advances _), collect_eq (sign?_advances _)]
  refine bind_head (position_head (kind_head hkind ?_))
  rw [hop]
  rfl

omit hkind in
theorem collect_signs_none (hsign : UnaryOperator.ofKind? t.kind = none) :
    collect sign? ⟨p, t :: ts⟩ = ⟨[], [], ⟨p, t :: ts⟩⟩ := by
  have hround : sign? ⟨p, t :: ts⟩ = ⟨none, [], ⟨p, t :: ts⟩⟩ := by
    have hkind : kind ⟨p, t :: ts⟩ = ⟨t.kind, [], ⟨p, t :: ts⟩⟩ := rfl
    simp only [sign?, bind_apply, position, hkind, hsign]
    rfl
  rw [collect_eq (sign?_advances _), round, bind_apply, hround]
  rfl

theorem operand_head (inner : ValuePosition → Parser (Expr Run)) (pos : ValuePosition)
    (hstart : TagSet.expressionStart.contains t.kind = true) :
    operand inner pos ⟨p, u :: ts⟩ = operand inner pos ⟨p, t :: ts⟩ := by
  by_cases hsign : UnaryOperator.ofKind? t.kind = none
  · refine look_head (collect_signs_none (by rw [hkind]; exact hsign)) (collect_signs_none hsign) ?_
    exact bind_head (primary_head hkind _ _ hstart hsign)
  · exact bind_head (collect_signs_head hkind hsign)

/-- **The first terminal of an expression is taken by its kind.** -/
theorem expr_full_head (pos : ValuePosition)
    (hstart : TagSet.expressionStart.contains t.kind = true) :
    expr .full pos ⟨p, u :: ts⟩ = expr .full pos ⟨p, t :: ts⟩ := by
  rw [expr_full_eq]
  refine position_head (bind_head ?_)
  refine position_head (bind_head ?_)
  exact bind_head (operand_head hkind _ pos hstart)

/-! ## 2. Statements -/

variable (hstart : TagSet.statementStart.contains t.kind = true)

include hstart

/-- A statement takes its first terminal by its kind. -/
theorem stmt_head : stmt ⟨p, u :: ts⟩ = stmt ⟨p, t :: ts⟩ := by
  have hexpr : t.kind.isStatementKeyword = false →
      expressionStatement ⟨p, u :: ts⟩ = expressionStatement ⟨p, t :: ts⟩ := fun hk =>
    position_head (bind_head (expr_full_head hkind _ (expressionStart_of_statementStart hstart hk)))
  rw [stmt_eq]
  refine kind_head hkind ?_
  generalize t.kind = k at hexpr
  cases k with
  | fixed f =>
    cases f with
    | ifWord | guardWord | whileWord | letWord | varWord | returnWord =>
      exact position_head next_head
    | _ => exact hexpr rfl
  | _ => exact hexpr rfl

theorem item_head (c : Construct) :
    item stmt c ⟨p, u :: ts⟩ = item stmt c ⟨p, t :: ts⟩ := by
  refine kind_head hkind ?_
  rw [if_pos hstart]
  exact bind_head (stmt_head hkind hstart)

/-- **What is read from a statement on does not depend on how its first terminal lies in its
line.** -/
theorem collect_topLevelItem?_head :
    collect topLevelItem? ⟨p, u :: ts⟩ = collect topLevelItem? ⟨p, t :: ts⟩ := by
  have hround : topLevelItem? ⟨p, u :: ts⟩ = topLevelItem? ⟨p, t :: ts⟩ := by
    have hatEnd : ∀ v : Terminal, topLevelItem? ⟨p, v :: ts⟩ =
        (do let s ← item stmt .topLevel; return some s : Parser _) ⟨p, v :: ts⟩ := fun _ => rfl
    rw [hatEnd, hatEnd]
    exact bind_head (item_head hkind hstart .topLevel)
  rw [collect_eq (topLevelItem?_advances _), collect_eq (topLevelItem?_advances _)]
  exact bind_head hround

theorem topLevel_head : topLevel ⟨p, u :: ts⟩ = topLevel ⟨p, t :: ts⟩ :=
  bind_head (collect_topLevelItem?_head hkind hstart)

end Head

end Parser

end PlatformGate
