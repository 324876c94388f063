/-
# The courses of expressions

An expression holds no query, so its course has none.  Each token that an expression reads is read
because of its kind, and that is never the kind of an availability keyword: in front of one a value
is missing, and what looks for an operator, a comma or a parenthesis finds nothing.
-/
import PlatformGate.Proofs.Account.Course
import PlatformGate.Proofs.Recovery.TrailValues

namespace PlatformGate

namespace Parser

variable {P : Input → Prop}

/-! ## 1. Lists and operands -/

/-- A token that is read is no availability keyword if its kind is not. -/
theorem plain_next_of_kind {k : Kind String} (hk : k.isAvailability = false) :
    Plain (fun i => P i ∧ i.kind = k) next := by
  refine plain_next fun i hi => ?_
  rw [hi.2, hk]

theorem plain_valueBehindComma? {value : Parser (Expr Run)} (h : Plain Input.Any value) :
    Plain P (valueBehindComma? value) := by
  refine takes_eat rfl ?_ (takes_pure rfl)
  exact h.then fun e => takes_pure rfl

theorem plain_values {value : Parser (Expr Run)} (h : Plain Input.Any value) {c : Construct}
    (hc : c ≠ .availability) (opener : Nat) : Plain P (values value c opener) := by
  refine takes_eat rfl (takes_pure rfl) ?_
  refine h.anywhere.then fun first => ?_
  refine (plain_collect (plain_valueBehindComma? h)).then fun others => ?_
  refine (plain_leftovers c _ false).then fun _ => ?_
  refine takes_eat rfl (takes_pure rfl) ?_
  exact (plain_unclosed hc opener).then fun _ => takes_pure rfl

theorem plain_primary {item : Parser (Expr Run)} (h : Plain Input.Any item) (pos : ValuePosition) :
    Plain P (primary item pos) := by
  -- a value that is one token
  have hone : ∀ {k : Kind String} {e : Expr Run}, k.isAvailability = false →
      Plain (fun i => P i ∧ i.kind = k) (do next; return e) :=
    fun hk => (plain_next_of_kind hk).then fun _ => takes_pure rfl
  refine looks_position.then fun start => ?_
  refine takes_kind fun k => ?_
  cases k with
  | number v => exact hone rfl
  | word name => exact hone rfl
  | invalid => exact (plain_invalidToken fun i hi => hi.2).then fun place => takes_pure rfl
  | fixed f =>
    cases f with
    | trueWord | falseWord | underscore => exact hone rfl
    | lparen =>
      refine (plain_next_of_kind rfl).then fun _ => ?_
      refine (plain_values (c := .tuple) h nofun start).then fun items => ?_
      exact (looks_runFrom start).then fun place => takes_pure rfl
    | _ => exact plain_missingValue pos
  | _ => exact plain_missingValue pos

theorem plain_arguments? {arg : Parser (Expr Run)} (h : Plain Input.Any arg) :
    Plain P (arguments? arg) := by
  refine looks_position.then fun opener => ?_
  refine takes_check ?_ ?_
  · refine looks_afterNewline.then fun newline => ?_
    refine Takes.ite ?_ (takes_pure rfl)
    refine (plain_next fun i hi => by rw [hi]; rfl).then fun _ => ?_
    refine (plain_values (c := .call) h nofun opener).then fun args => ?_
    exact looks_position.then fun stop => takes_pure rfl
  · refine looks_afterNewline.then fun newline => ?_
    rw [Bool.false_and]
    exact takes_pure rfl

/-- An availability keyword is no sign. -/
theorem isAvailability_of_unary {k : Kind String} {op : UnaryOperator}
    (h : UnaryOperator.ofKind? k = some op) : k.isAvailability = false := by
  cases k with
  | fixed f => cases f <;> first | rfl | exact absurd h nofun
  | _ => rfl

theorem plain_sign? : Plain P sign? := by
  refine looks_position.then fun start => ?_
  refine takes_kind fun k => ?_
  cases hop : UnaryOperator.ofKind? k with
  | none => exact takes_pure rfl
  | some op =>
    exact (plain_next_of_kind (isAvailability_of_unary hop)).then fun _ => takes_pure rfl

section Chains

variable {inner : ValuePosition → Parser (Expr Run)}
variable (h : ∀ pos, Plain Input.Any (inner pos))

include h

theorem plain_operand (pos : ValuePosition) : Plain P (operand inner pos) := by
  refine (plain_collect plain_sign?).then fun signs => ?_
  refine (plain_primary (h .tuple) _).then fun callee => ?_
  exact (plain_collect (plain_arguments? (h .call))).then fun lists => takes_pure rfl

theorem plain_link? : Plain P (link? inner) := by
  refine takes_kind fun k => ?_
  cases hop : BinaryOperator.ofKind? k with
  | none => exact takes_pure rfl
  | some op =>
    refine (plain_next_of_kind (isAvailability_of_binary hop)).then fun _ => ?_
    exact (plain_operand h .infixOperand).then fun right => takes_pure rfl

theorem plain_chain (pos : ValuePosition) : Plain P (chain inner pos) := by
  refine (plain_operand h pos).then fun first => ?_
  exact (plain_collect (plain_link? h)).then fun links => takes_pure rfl

end Chains

/-! ## 2. Whole expressions -/

theorem plain_otherwise {branch : Parser (Expr Run)} (h : Plain Input.Any branch) (quiet : Bool) :
    Plain P (otherwise branch quiet) := by
  refine takes_eat rfl h ?_
  cases quiet with
  | false => exact looks_errorHere.plain
  | true => exact (plain_reportHere .missingColon trivial).then fun _ => looks_errorHere.plain

section Whole

variable {inner : Reach → ValuePosition → Parser (Expr Run)}
variable (h : ∀ reach pos, Plain Input.Any (inner reach pos))

include h

theorem plain_ternary (pos : ValuePosition) : Plain P (ternary inner pos) := by
  refine looks_position.then fun start => ?_
  refine (plain_chain (h .full) pos).then fun cond => ?_
  refine takes_eat rfl ?_ (takes_pure rfl)
  have hbranch := h .ternary .ternary
  refine hbranch.quietly.anywhere.then fun whenTrue => ?_
  refine (plain_otherwise hbranch _).then fun whenFalse => ?_
  exact (looks_runFrom start).then fun place => takes_pure rfl

theorem plain_assignment (pos : ValuePosition) : Plain P (assignment inner pos) := by
  refine looks_position.then fun start => ?_
  refine (plain_ternary h pos).then fun target => ?_
  refine takes_eat rfl ?_ (takes_pure rfl)
  refine (h .full .assignment).then fun value => ?_
  exact (looks_runFrom start).then fun place => takes_pure rfl

end Whole

theorem plain_exprWithin (n : Nat) (reach : Reach) (pos : ValuePosition) :
    Plain Input.Any (exprWithin n reach pos) := by
  induction n generalizing reach pos with
  | zero => exact plain_missingValue pos
  | succ n ih =>
    cases reach with
    | full => exact plain_assignment ih pos
    | ternary => exact plain_ternary ih pos

/-- **The course of an expression is plain.** -/
theorem plain_expr (reach : Reach) (pos : ValuePosition) : Plain P (expr reach pos) :=
  fun i _ => plain_exprWithin (i.rest.length + 1) reach pos i trivial

end Parser

end PlatformGate
