/-
# Building expressions

Each builder of expressions is followed along the parser that reads the same (`Realizes`).  They part
in three places.  A parser collects the operators in front of a value and then puts them there; the
builder reads one operator and the value behind it (`operand_signed`).  It collects argument lists
and calls the callee with them afterwards; the builder keeps each call when it is read
(`calls_succ`).  And it collects the operands of a chain before it groups them, where the builder
climbs (`Parser.chain_eq_climb`).  In all three the order in which nodes are kept is that of the
plan.
-/
import PlatformGate.Proofs.Building.Realizes
import PlatformGate.Proofs.Grouping.Climbing

namespace PlatformGate.Builder

variable {i : Input}

/-! ## 1. Primary values -/

theorem builds_errorHere (i : Input) : Builds Id.word Expr.plan i errorHere Parser.errorHere := by
  refine Realizes.read ?_
  refine Realizes.step (fun _ => performs_located _) ?_
  exact Realizes.last (fun b => performs_expr .error b.2) rfl

theorem builds_missingValue (pos : ValuePosition) (i : Input) :
    Builds Id.word Expr.plan i (missingValue pos) (Parser.missingValue pos) := by
  refine Realizes.read ?_
  refine Realizes.read ?_
  exact builds_errorHere _

section Lists

variable {value : Builder (Id .expr)} {value' : Parser (Expr Run)}
variable (hvalue : ∀ i, Builds Id.word Expr.plan i value value')

include hvalue

theorem builds_valueBehindComma? (i : Input) :
    Builds (Option.map Id.word) (Plan.optional Expr.plan) i (valueBehindComma? value)
      (Parser.valueBehindComma? value') :=
  builds_behind? .comma hvalue i

theorem builds_values (c : Construct) (opener : Nat) (i : Input) :
    Builds (List.map Id.word) (Plan.all Expr.plan) i (values value c opener)
      (Parser.values value' c opener) := by
  refine Realizes.read ?_
  refine Realizes.ite (fun _ => ?_) (fun _ => ?_)
  · exact .done (f := fun _ => []) (fun _ => rfl) rfl
  refine Realizes.bind (hvalue _) ?_
  refine Realizes.bind (builds_collect (builds_valueBehindComma? hvalue) _) ?_
  refine Realizes.read ?_
  refine Realizes.read ?_
  refine Realizes.ite (fun _ => ?_) (fun _ => ?_)
  · exact .done (f := fun b => b.1.2 :: b.2) (fun _ => rfl) rfl
  refine Realizes.read ?_
  exact .done (f := fun b => b.1.2 :: b.2) (fun _ => rfl) rfl

end Lists

theorem performs_grouped (is : List (Id .expr)) :
    Performs ExprForm.word (grouped (is.map Id.word)) (Expr.planGroup is) := by
  match is with
  | [] => exact performs_pure (ExprForm.tuple Slots.empty)
  | [i] => exact performs_pure (ExprForm.paren i)
  | i :: j :: is =>
    exact (performs_exprs (i :: j :: is)).bind fun r => performs_pure (ExprForm.tuple r)

/-- A token that is a value is kept as a node without parts. -/
theorem builds_terminal {start : Nat} {form : ExprForm} {e : Expr Run} (hform : form.word = form)
    (he : e.plan = Plan.spanOf (Run.token start) >>= Plan.expr form) (i : Input) :
    Builds Id.word Expr.plan i (terminal start form) (do Parser.next; return e) := by
  refine Realizes.read ?_
  refine Realizes.step (fun _ => performs_located _) ?_
  have hkept : ∀ b : Unit × Span, Performs Id.word (expr form b.2) (Plan.expr form b.2) := by
    intro b
    have hkept := performs_expr form b.2
    rwa [hform] at hkept
  exact Realizes.last hkept he

theorem builds_primary {item : Builder (Id .expr)} {item' : Parser (Expr Run)}
    (hitem : ∀ i, Builds Id.word Expr.plan i item item') (pos : ValuePosition) (i : Input) :
    Builds Id.word Expr.plan i (primary item pos) (Parser.primary item' pos) := by
  refine Realizes.read ?_
  refine Realizes.read ?_
  generalize (Parser.kind _).value = k
  cases k with
  | number v => exact builds_terminal rfl rfl _
  | word name => exact builds_terminal rfl rfl _
  | invalid =>
    refine Realizes.read ?_
    refine Realizes.step (fun _ => performs_located _) ?_
    exact Realizes.last (fun b => performs_expr .error b.2) rfl
  | fixed f =>
    cases f with
    | trueWord | falseWord | underscore => exact builds_terminal rfl rfl _
    | lparen =>
      -- the values are kept first, then the list if there is one, then the node
      refine Realizes.read ?_
      refine Realizes.bind (builds_values hitem .tuple _ _) ?_
      refine Realizes.step (fun b => performs_grouped b.2) ?_
      refine Realizes.spanFrom ?_
      exact Realizes.last (fun b => performs_expr b.1.2 b.2) (Expr.plan_grouped _ _)
    | _ => exact builds_missingValue pos _
  | _ => exact builds_missingValue pos _

/-! ## 2. Operands -/

/-- A round of calls is a call and the calls behind it. -/
theorem calls_succ (arg : Parser (Expr Run)) (n : Nat) (callee : Expr Run) :
    (do
      let lists ← Parser.collectWithin (Parser.arguments? arg) (n + 1)
      return Expr.ofCalls callee lists : Parser (Expr Run)) = (do
      let opener ← Parser.position
      if (← Parser.check .lparen) && !(← Parser.afterNewline) then
        Parser.next
        let args ← Parser.values arg .call opener
        let place ← Parser.runFrom callee.place.first
        let lists ← Parser.collectWithin (Parser.arguments? arg) n
        return Expr.ofCalls (.call callee args place) lists
      else return callee) := by
  simp only [Parser.collectWithin_succ, Parser.round, Parser.arguments?, bind_assoc]
  refine bind_congr fun opener => bind_congr fun opens => bind_congr fun broken => ?_
  split
  · simp only [bind_assoc, pure_bind]
    rfl
  · simp only [pure_bind]
    rfl

/-- The calls behind a callee that has been kept. -/
theorem realizes_calls {arg : Builder (Id .expr)} {arg' : Parser (Expr Run)}
    (harg : ∀ i, Builds Id.word Expr.plan i arg arg') {start : Nat} (n : Nat) (callee : Expr Run)
    (hstart : callee.place.first = start) (i : Input) :
    Realizes Id.word Expr.plan i callee.plan
      (fun b => callsWithin arg start n b.word) (do
        let lists ← Parser.collectWithin (Parser.arguments? arg') n
        return Expr.ofCalls callee lists) := by
  induction n generalizing callee i with
  | zero => exact .done (f := id) (fun _ => rfl) rfl
  | succ n ih =>
    rw [calls_succ, hstart]
    refine Realizes.read ?_
    refine Realizes.read ?_
    refine Realizes.read ?_
    refine Realizes.ite (fun _ => ?_) (fun _ => ?_)
    · refine Realizes.read ?_
      refine Realizes.bind (builds_values harg .call _ _) ?_
      refine Realizes.step (fun b => performs_exprs b.2) ?_
      refine Realizes.spanFrom ?_
      exact Realizes.node (fun b => performs_expr (.call b.1.1.1 b.1.2) b.2)
        (Expr.plan_call callee _ _) (ih _ rfl _)
    · exact .done (f := id) (fun _ => rfl) rfl

section Signs

variable {inner : ValuePosition → Parser (Expr Run)} {pos : ValuePosition}

theorem operand_unsigned (h : UnaryOperator.ofKind? i.kind = none) :
    Parser.operand inner pos i = (do
      let callee ← Parser.primary (inner .tuple) pos
      let lists ← Parser.collect (Parser.arguments? (inner .call))
      return Expr.ofCalls callee lists : Parser (Expr Run)) i := by
  have hnone : Parser.sign? i = ⟨none, [], i⟩ := by
    simp only [Parser.sign?, Parser.bind_apply, Parser.position, Parser.kind, h]
    rfl
  have hsigns : Parser.collect Parser.sign? i = (pure [] : Parser _) i := by
    rw [Parser.collect_eq (Parser.sign?_advances _), Parser.round, Parser.bind_apply, hnone]
    rfl
  exact Parser.bind_congr_left hsigns

/-- A sign is taken off an operand. -/
theorem operand_signed (hinner : ∀ pos i, (inner pos).Ensures i (ReadsExpr i))
    {op : UnaryOperator} (h : UnaryOperator.ofKind? i.kind = some op) :
    Parser.operand inner pos i = (do
      Parser.next
      let e ← Parser.operand inner .prefixOperand
      return .unary op e (← Parser.runFrom i.position) : Parser (Expr Run)) i := by
  have hsome : Parser.sign? i = (do
      Parser.next
      return some (op, i.position) : Parser _) i := by
    simp only [Parser.sign?, Parser.bind_apply, Parser.position, Parser.kind, h]
    rfl
  have hsigns : Parser.collect Parser.sign? i = (do
      Parser.next
      let signs ← Parser.collect Parser.sign?
      return (op, i.position) :: signs : Parser _) i := by
    rw [Parser.collect_eq (Parser.sign?_advances _), Parser.round, Parser.bind_congr_left hsome]
    simp only [bind_assoc, pure_bind]
  have hunfold : Parser.operand inner pos i = (do
      Parser.next
      let e ← Parser.operand inner .prefixOperand
      return .unary op e ⟨i.position, e.place.past⟩ : Parser (Expr Run)) i := by
    refine (Parser.bind_congr_left hsigns).trans ?_
    simp only [Parser.operand, bind_assoc, pure_bind, ite_self]
    rfl
  refine hunfold.trans (Parser.bind_congr_right (Parser.bind_congr_right ?_))
  refine (Parser.operand_reads hinner .prefixOperand i.next).mono fun e rs j he => ?_
  rw [he.1.spans.place]
  rfl

end Signs

section Operands

variable {inner : ValuePosition → Builder (Id .expr)} {inner' : ValuePosition → Parser (Expr Run)}
variable (hinner : ∀ pos i, Builds Id.word Expr.plan i (inner pos) (inner' pos))
variable (hreads : ∀ pos i, (inner' pos).Ensures i (ReadsExpr i))

include hinner hreads

theorem builds_called (pos : ValuePosition) (i : Input) :
    Builds Id.word Expr.plan i (called inner pos) (do
      let callee ← Parser.primary (inner' .tuple) pos
      let lists ← Parser.collect (Parser.arguments? (inner' .call))
      return Expr.ofCalls callee lists) := by
  have hplace := (Parser.primary_reads (hreads .tuple) pos i).1.spans.place
  refine Realizes.look rfl ?_
  refine Builds.bind (builds_primary (hinner _) pos i) ?_
  refine Realizes.look rfl ?_
  exact (realizes_calls (hinner _) _ _ (congrArg Run.first hplace) _).of_eq rfl

theorem builds_prefixedWithin {n : Nat} (hn : i.rest.length < n) (pos : ValuePosition) :
    Builds Id.word Expr.plan i (prefixedWithin inner n pos) (Parser.operand inner' pos) := by
  induction n generalizing i pos with
  | zero => exact absurd hn (Nat.not_lt_zero _)
  | succ n ih =>
    -- the builder looks at the sign; the parser has a loop for all of them
    refine Realizes.look rfl ?_
    refine Realizes.look rfl ?_
    cases hop : UnaryOperator.ofKind? i.kind with
    | none =>
      exact Realizes.of_eq (builds_called hinner hreads pos i) (operand_unsigned hop)
    | some op =>
      have hlt : i.next.rest.length < n :=
        Nat.lt_of_lt_of_le (Input.length_next_lt (Input.rest_ne_nil_of_unary hop))
          (Nat.le_of_lt_succ hn)
      refine Realizes.of_eq ?_ (operand_signed hreads hop)
      refine Realizes.read ?_
      refine Builds.bind (ih hlt .prefixOperand) ?_
      refine Realizes.spanFrom ?_
      exact Realizes.last (fun b => performs_expr (.unary op b.1) b.2) (Expr.plan_unary ..)

theorem builds_prefixed (pos : ValuePosition) (i : Input) :
    Builds Id.word Expr.plan i (prefixed inner pos) (Parser.operand inner' pos) :=
  Realizes.look rfl (builds_prefixedWithin hinner hreads (Nat.lt_succ_self _) pos)

end Operands

/-! ## 3. Binary operators -/

/-- The rounds of a climb behind a left operand that has been kept. -/
theorem realizes_climbWithin {tighter : Nat → Builder (Id .expr)}
    {tighter' : Nat → Parser (Expr Run)}
    (htighter : ∀ power i, Builds Id.word Expr.plan i (tighter power) (tighter' power))
    (start least rounds : Nat) (left : Expr Run) (i : Input) :
    Realizes Id.word Expr.plan i left.plan
      (fun b => climbWithin tighter start least rounds b.word)
      (Parser.climbWithin tighter' start least rounds left) := by
  induction rounds generalizing left i with
  | zero => exact .done (f := id) (fun _ => rfl) rfl
  | succ rounds ih =>
    refine Realizes.read ?_
    cases BinaryOperator.ofKind? (Parser.kind i).value with
    | none => exact .done (f := id) (fun _ => rfl) rfl
    | some op =>
      refine Realizes.ite (fun _ => ?_) (fun _ => ?_)
      · exact .done (f := id) (fun _ => rfl) rfl
      refine Realizes.read ?_
      refine Realizes.bind (htighter _ _) ?_
      refine Realizes.spanFrom ?_
      exact Realizes.node (fun b => performs_expr (.binary op b.1.1 b.1.2) b.2)
        (Expr.plan_binary left _ _ op) (ih _ _)

section Climbs

variable {inner : ValuePosition → Builder (Id .expr)} {inner' : ValuePosition → Parser (Expr Run)}
variable (hinner : ∀ pos i, Builds Id.word Expr.plan i (inner pos) (inner' pos))
variable (hreads : ∀ pos i, (inner' pos).Ensures i (ReadsExpr i))

include hinner hreads

theorem builds_climb (levels least : Nat) (pos : ValuePosition) (i : Input) :
    Builds Id.word Expr.plan i (climb inner levels least pos)
      (Parser.climb inner' levels least pos) := by
  induction levels generalizing least pos i with
  | zero => exact builds_prefixed hinner hreads pos i
  | succ levels ih =>
    refine Realizes.read ?_
    refine Builds.bind (builds_prefixed hinner hreads pos _) ?_
    refine Realizes.read ?_
    exact realizes_climbWithin (fun power => ih power .infixOperand) _ _ _ _ _

/-- **Climbing keeps the plan of a chain.** -/
theorem builds_binary (hgrouped : ∀ pos, (inner' pos).Gives Expr.Grouped) (pos : ValuePosition)
    (i : Input) : Builds Id.word Expr.plan i (binary inner pos) (Parser.chain inner' pos) := by
  rw [Parser.chain_eq_climb hreads hgrouped]
  exact builds_climb hinner hreads 6 0 pos i

end Climbs

/-! ## 4. Whole expressions -/

theorem builds_otherwise {branch : Builder (Id .expr)} {branch' : Parser (Expr Run)}
    (hbranch : ∀ i, Builds Id.word Expr.plan i branch branch') (quiet : Bool) (i : Input) :
    Builds Id.word Expr.plan i (otherwise branch quiet) (Parser.otherwise branch' quiet) := by
  refine Realizes.read ?_
  refine Realizes.ite (fun _ => hbranch _) (fun _ => ?_)
  refine Realizes.ite (fun _ => ?_) (fun _ => builds_errorHere _)
  exact Realizes.read (builds_errorHere _)

section Whole

variable {inner : Reach → ValuePosition → Builder (Id .expr)}
variable {inner' : Reach → ValuePosition → Parser (Expr Run)}
variable (hinner : ∀ reach pos i, Builds Id.word Expr.plan i (inner reach pos) (inner' reach pos))
variable (hreads : ∀ reach pos i, (inner' reach pos).Ensures i (ReadsExpr i))
variable (hgrouped : ∀ reach pos, (inner' reach pos).Gives Expr.Grouped)

include hinner hreads hgrouped

theorem builds_ternary (pos : ValuePosition) (i : Input) :
    Builds Id.word Expr.plan i (ternary inner pos) (Parser.ternary inner' pos) := by
  refine Realizes.read ?_
  refine Builds.bind (builds_binary (hinner _) (hreads _) (hgrouped _) pos _) ?_
  refine Realizes.read ?_
  refine Realizes.ite (fun _ => ?_) (fun _ => ?_)
  · refine Realizes.quietly (hinner _ _ _) ?_
    refine Realizes.bind (builds_otherwise (hinner _ _) _ _) ?_
    refine Realizes.spanFrom ?_
    exact Realizes.last (fun b => performs_expr (.ternary b.1.1.1 b.1.1.2 b.1.2) b.2)
      (Expr.plan_ternary ..)
  · exact .done (f := id) (fun _ => rfl) rfl

theorem builds_assignment (pos : ValuePosition) (i : Input) :
    Builds Id.word Expr.plan i (assignment inner pos) (Parser.assignment inner' pos) := by
  refine Realizes.read ?_
  refine Builds.bind (builds_ternary hinner hreads hgrouped pos _) ?_
  refine Realizes.read ?_
  refine Realizes.ite (fun _ => ?_) (fun _ => ?_)
  · refine Realizes.bind (hinner _ _ _) ?_
    refine Realizes.spanFrom ?_
    exact Realizes.last (fun b => performs_expr (.assign b.1.1 b.1.2) b.2) (Expr.plan_assign ..)
  · exact .done (f := id) (fun _ => rfl) rfl

end Whole

theorem builds_exprWithin (n : Nat) (reach : Reach) (pos : ValuePosition) (i : Input) :
    Builds Id.word Expr.plan i (exprWithin n reach pos) (Parser.exprWithin n reach pos) := by
  induction n generalizing reach pos i with
  | zero => exact builds_missingValue pos i
  | succ n ih =>
    have hreads := Parser.exprWithin_reads n
    have hgrouped : ∀ reach pos, (Parser.exprWithin n reach pos).Gives Expr.Grouped :=
      fun reach pos => (Parser.gives_exprWithin n reach pos).mono fun _ he => he.2
    cases reach with
    | full => exact builds_assignment ih hreads hgrouped pos i
    | ternary => exact builds_ternary ih hreads hgrouped pos i

/-- **A builder of an expression** keeps the plan of the expression that the parser reads. -/
theorem builds_expression (reach : Reach) (pos : ValuePosition) (i : Input) :
    Builds Id.word Expr.plan i (expression reach pos) (Parser.expr reach pos) :=
  Realizes.look rfl ((builds_exprWithin _ reach pos i).of_eq rfl)

end PlatformGate.Builder
