/-
# Building headers and statements

What holds of expressions is carried on to clauses, blocks and statements.  A clause and a statement
are kept when all that they hold is kept; the builders take their span at that moment, and it is the
place that the parser gives them (`builds_placed`).
-/
import PlatformGate.Proofs.Building.Values

namespace PlatformGate

/-! ## 1. Lists with gaps -/

/-- The plans of the items that are there are those of all items. -/
theorem Plan.all_filterMap {α β : Type} (plan : α → Plan β) (as : List (Option α)) :
    Plan.all plan (as.filterMap id) = (do
      let bs ← Plan.all (Plan.optional plan) as
      return bs.filterMap id) := by
  induction as with
  | nil => rfl
  | cons a? as ih =>
    cases a? with
    | none => exact ih
    | some a =>
      have hcons : (some a :: as).filterMap id = a :: as.filterMap id := rfl
      rw [hcons, Plan.all, ih]
      rfl

namespace Builder

variable {i : Input}

/-- **A node is kept when all that it holds is kept,** with the span from where it began up to here.
The parser gives it the same place at once. -/
theorem builds_placed {α φ : Type} {s : NodeSort} {plan : α → Plan (Id s)}
    {planForm : α → Plan φ} {word : φ → φ} {place : α → Run} {form : Builder φ}
    {keep : φ → Span → Builder (Id s)} {keepPlan : φ → Span → Plan (Id s)} {p : Parser α}
    (hform : Builds word planForm i form p)
    (hkeep : ∀ f span, Performs Id.word (keep (word f) span) (keepPlan f span))
    (hplan : ∀ a, plan a = do
      let f ← planForm a
      let span ← Plan.spanOf (place a)
      keepPlan f span)
    (hplace : p.Ensures i fun a _ j => place a = ⟨i.position, j.position⟩) :
    Builds Id.word plan i (do
      let start ← read Parser.position
      let f ← form
      let span ← spanFrom start
      keep f span) p := by
  refine Realizes.look rfl ?_
  refine (Builds.bind (g := pure) hform ?_).of_eq (congrFun (bind_pure _) i).symm
  refine (Realizes.spanFrom (g := fun _ => pure _) ?_).of_eq rfl
  refine Realizes.last (fun b => hkeep b.1 b.2) ?_
  rw [hplan, hplace]
  rfl

/-! ## 2. Headers -/

theorem builds_pattern (pos : PatternPosition) (i : Input) :
    Builds id (fun p : Pattern Run => Plan.located fun locate => p.map locate) i (pattern pos)
      (Parser.pattern pos) :=
  builds_located (Parser.pattern pos) (fun locate => Pattern.map locate) i

theorem builds_query (resume : TagSet) (i : Input) :
    Builds id (fun q : Query Run => Plan.located fun locate => q.map locate) i (query resume)
      (Parser.query resume) :=
  builds_located (Parser.query resume) (fun locate => Query.map locate) i

theorem builds_initializer? (i : Input) :
    Builds (Option.map Id.word) (Plan.optional Expr.plan) i initializer? Parser.initializer? :=
  builds_behind? .eq (builds_expression .full .declared) i

theorem builds_caseValue (quiet : Bool) (i : Input) :
    Builds Id.word Expr.plan i (caseValue quiet) (Parser.caseValue quiet) := by
  refine Realizes.read ?_
  refine Realizes.ite (fun _ => builds_expression _ _ _) (fun _ => ?_)
  refine Realizes.ite (fun _ => ?_) (fun _ => builds_errorHere _)
  exact Realizes.read (builds_errorHere _)

theorem builds_clauseForm (owner : Owner) (i : Input) :
    Builds ClauseForm.word Clause.planForm i (clauseForm owner) (Parser.clause owner) := by
  have hbinding : ∀ (mutable : Bool) (i : Input) (start : Nat),
      Builds ClauseForm.word Clause.planForm i (binding mutable owner) (do
        Parser.next
        let p ← Parser.pattern (.header owner)
        let init ← Parser.initializer?
        return .binding mutable p init (← Parser.runFrom start)) := by
    intro mutable i start
    refine Realizes.read ?_
    refine Builds.bind (builds_pattern _ _) ?_
    refine Realizes.bind (builds_initializer? _) ?_
    refine Realizes.glance rfl ?_
    exact .done (f := fun b => .binding mutable b.1 b.2) (fun _ => rfl) rfl
  refine Realizes.glance rfl ?_
  refine Realizes.read ?_
  generalize (Parser.kind i).value = k
  cases k with
  | fixed f =>
    cases f with
    | available | unavailable =>
      refine Builds.bind (builds_query _ _) ?_
      exact .done (f := .availability) (fun _ => rfl) rfl
    | letWord => exact hbinding false _ _
    | varWord => exact hbinding true _ _
    | caseWord =>
      refine Realizes.read ?_
      refine Realizes.quietly (builds_expression _ _ _) ?_
      refine Realizes.bind (builds_caseValue _ _) ?_
      refine Realizes.glance rfl ?_
      exact .done (f := fun b => .matching b.1.2 b.2) (fun _ => rfl) rfl
    | _ =>
      refine Builds.bind (builds_expression _ _ _) ?_
      refine Realizes.glance rfl ?_
      exact .done (f := .expr) (fun _ => rfl) rfl
  | _ =>
    refine Builds.bind (builds_expression _ _ _) ?_
    refine Realizes.glance rfl ?_
    exact .done (f := .expr) (fun _ => rfl) rfl

theorem builds_headerClause (owner : Owner) (i : Input) :
    Builds Id.word Clause.plan i (headerClause owner) (Parser.clause owner) :=
  builds_placed (builds_clauseForm owner i) performs_clause Clause.plan_eq
    (Parser.clause_reads owner i).spans.place

theorem builds_clauseBehindComma? (owner : Owner) (i : Input) :
    Builds (Option.map Id.word) (Plan.optional Clause.plan) i (clauseBehindComma? owner)
      (Parser.clauseBehindComma? owner) :=
  builds_behind? .comma (builds_headerClause owner) i

theorem builds_conditions (owner : Owner) (i : Input) :
    Builds Slots.word Clause.planHeader i (conditions owner) (Parser.conditions owner) := by
  refine Builds.bind (builds_headerClause owner i) ?_
  refine Realizes.bind (builds_collect (builds_clauseBehindComma? owner) _) ?_
  exact Realizes.last (fun b => performs_clauses (b.1 :: b.2)) rfl

/-! ## 3. Blocks and bodies -/

section Nested

variable {stmt : Builder (Id .stmt)} {stmt' : Parser (Stmt Run)}
variable (hstmt : ∀ i, Builds Id.word Stmt.plan i stmt stmt')

include hstmt

theorem builds_item (c : Construct) (i : Input) :
    Builds (Option.map Id.word) (Plan.optional Stmt.plan) i (item stmt c)
      (Parser.item stmt' c) := by
  refine Realizes.read ?_
  refine Realizes.ite (fun _ => ?_) (fun _ => ?_)
  · refine Builds.bind (hstmt _) ?_
    refine Realizes.read ?_
    exact .done (f := some) (fun _ => rfl) rfl
  · refine Realizes.read ?_
    refine Realizes.read ?_
    exact .done (f := fun _ => none) (fun _ => rfl) rfl

theorem builds_blockItem? (opener : Nat) (i : Input) :
    Builds (Option.map (Option.map Id.word)) (Plan.optional (Plan.optional Stmt.plan)) i
      (blockItem? stmt opener) (Parser.blockItem? stmt' opener) := by
  refine Realizes.read ?_
  refine Realizes.ite (fun _ => ?_) (fun _ => ?_)
  · exact .done (f := fun _ => none) (fun _ => rfl) rfl
  refine Realizes.read ?_
  refine Realizes.ite (fun _ => ?_) (fun _ => ?_)
  · refine Realizes.read ?_
    exact .done (f := fun _ => none) (fun _ => rfl) rfl
  refine Builds.bind (builds_item hstmt _ _) ?_
  exact .done (f := some) (fun _ => rfl) rfl

omit hstmt in
/-- Statements are kept as a list when the gaps between them are closed. -/
theorem performs_items (is : List (Option (Id .stmt))) :
    Performs Slots.word (stmts ((is.map (Option.map Id.word)).filterMap id))
      (Plan.stmts (is.filterMap id)) := by
  have hids : (is.map (Option.map Id.word)).filterMap id = (is.filterMap id).map Id.word := by
    rw [List.filterMap_map, List.map_filterMap]
    rfl
  rw [hids]
  exact performs_stmts _

theorem builds_block (i : Input) :
    Builds (Option.map BlockNode.word) Stmt.planBody i (do
      let b ← block stmt
      return some b) (Parser.block stmt') := by
  simp only [block, bind_assoc, pure_bind]
  refine Realizes.read ?_
  refine Realizes.read ?_
  refine Builds.bind (builds_collect (builds_blockItem? hstmt _) _) ?_
  refine Realizes.step performs_items ?_
  refine Realizes.spanFrom ?_
  refine .done (f := fun b => some ⟨b.1.2, b.2⟩) (fun _ => rfl) ?_
  rw [Stmt.planBody_block, Plan.all_filterMap]
  rfl

theorem builds_body (owner : Owner) (i : Input) :
    Builds (Option.map BlockNode.word) Stmt.planBody i (body stmt owner)
      (Parser.body stmt' owner) := by
  refine Realizes.read ?_
  refine Realizes.read ?_
  refine Realizes.ite (fun _ => builds_block hstmt _) (fun _ => ?_)
  refine Realizes.read ?_
  refine Realizes.read ?_
  exact .done (f := fun _ => none) (fun _ => rfl) rfl

/-! ## 4. Statements -/

theorem builds_alternative (i : Input) :
    Builds (Option.map ElseNode.word) Stmt.planAlternative i (alternative stmt)
      (Parser.alternative stmt') := by
  refine Realizes.read ?_
  refine Realizes.ite (fun _ => ?_) (fun _ => ?_)
  · refine Builds.bind (hstmt _) ?_
    exact .done (f := fun b => some (.elseIf b)) (fun _ => rfl) rfl
  · refine Builds.bind (builds_body hstmt _ _) ?_
    refine .done (f := fun b? => b?.map .block) (fun b? => ?_) rfl
    cases b? <;> rfl

theorem builds_ifStatement (i : Input) :
    Builds StmtForm.word Stmt.planForm i (ifStatement stmt) (Parser.ifStatement stmt') := by
  refine Realizes.glance rfl ?_
  refine Realizes.read ?_
  refine Builds.bind (builds_conditions _ _) ?_
  refine Realizes.bind (builds_body hstmt _ _) ?_
  refine Realizes.read ?_
  refine Realizes.ite (fun _ => ?_) (fun _ => ?_)
  · refine Realizes.bind (builds_alternative hstmt _) ?_
    refine Realizes.glance rfl ?_
    exact .done (f := fun b => .ifStmt b.1.1 b.1.2 b.2) (fun _ => rfl) rfl
  · refine Realizes.glance rfl ?_
    exact .done (f := fun b => .ifStmt b.1 b.2 none) (fun _ => rfl) rfl

theorem builds_guardBody (i : Input) :
    Builds (Option.map BlockNode.word) Stmt.planBody i (guardBody stmt)
      (Parser.guardBody stmt') := by
  refine Realizes.read ?_
  refine Realizes.ite (fun _ => builds_body hstmt _ _) (fun _ => ?_)
  refine Realizes.read ?_
  refine Realizes.read ?_
  refine Realizes.ite (fun _ => builds_block hstmt _) (fun _ => ?_)
  exact .done (f := fun _ => none) (fun _ => rfl) rfl

theorem builds_guardStatement (i : Input) :
    Builds StmtForm.word Stmt.planForm i (guardStatement stmt)
      (Parser.guardStatement stmt') := by
  refine Realizes.glance rfl ?_
  refine Realizes.read ?_
  refine Builds.bind (builds_conditions _ _) ?_
  refine Realizes.read ?_
  refine Realizes.bind (builds_guardBody hstmt _) ?_
  refine Realizes.glance rfl ?_
  exact .done (f := fun b => .guardStmt b.1 b.2) (fun _ => rfl) rfl

theorem builds_whileStatement (i : Input) :
    Builds StmtForm.word Stmt.planForm i (whileStatement stmt)
      (Parser.whileStatement stmt') := by
  refine Realizes.glance rfl ?_
  refine Realizes.read ?_
  refine Builds.bind (builds_conditions _ _) ?_
  refine Realizes.bind (builds_body hstmt _ _) ?_
  refine Realizes.glance rfl ?_
  exact .done (f := fun b => .whileStmt b.1 b.2) (fun _ => rfl) rfl

omit hstmt in
theorem builds_declaration (mutable : Bool) (i : Input) :
    Builds StmtForm.word Stmt.planForm i (declaration mutable) (Parser.declaration mutable) := by
  refine Realizes.glance rfl ?_
  refine Realizes.read ?_
  refine Builds.bind (builds_pattern _ _) ?_
  refine Realizes.bind (builds_initializer? _) ?_
  refine Realizes.glance rfl ?_
  exact .done (f := fun b => .declaration mutable b.1 b.2) (fun _ => rfl) rfl

omit hstmt in
theorem builds_returnValue? (i : Input) :
    Builds (Option.map Id.word) (Plan.optional Expr.plan) i returnValue? Parser.returnValue? := by
  have hnone : ∀ i, Builds (Option.map Id.word) (Plan.optional Expr.plan) i (pure none)
      (pure none : Parser (Option (Expr Run))) :=
    fun i => .done (f := fun _ => none) (fun _ => rfl) rfl
  refine Realizes.read ?_
  refine Realizes.ite (fun _ => hnone _) (fun _ => ?_)
  refine Realizes.read ?_
  refine Realizes.ite (fun _ => hnone _) (fun _ => ?_)
  refine Realizes.read ?_
  refine Realizes.ite (fun _ => hnone _) (fun _ => ?_)
  refine Builds.bind (builds_expression _ _ _) ?_
  exact .done (f := some) (fun _ => rfl) rfl

omit hstmt in
theorem builds_returnStatement (i : Input) :
    Builds StmtForm.word Stmt.planForm i returnStatement Parser.returnStatement := by
  refine Realizes.glance rfl ?_
  refine Realizes.read ?_
  refine Builds.bind (builds_returnValue? _) ?_
  refine Realizes.glance rfl ?_
  exact .done (f := .returnStmt) (fun _ => rfl) rfl

omit hstmt in
theorem builds_expressionStatement (i : Input) :
    Builds StmtForm.word Stmt.planForm i expressionStatement Parser.expressionStatement := by
  refine Realizes.glance rfl ?_
  refine Builds.bind (builds_expression _ _ _) ?_
  refine Realizes.glance rfl ?_
  exact .done (f := .expr) (fun _ => rfl) rfl

theorem builds_stmtForm (i : Input) :
    Builds StmtForm.word Stmt.planForm i (stmtForm stmt) (Parser.statement stmt') := by
  refine Realizes.read ?_
  generalize (Parser.kind i).value = k
  cases k with
  | fixed f =>
    cases f with
    | ifWord => exact builds_ifStatement hstmt _
    | guardWord => exact builds_guardStatement hstmt _
    | whileWord => exact builds_whileStatement hstmt _
    | letWord => exact builds_declaration false _
    | varWord => exact builds_declaration true _
    | returnWord => exact builds_returnStatement _
    | _ => exact builds_expressionStatement _
  | _ => exact builds_expressionStatement _

end Nested

end Builder

namespace Parser

/-- A statement stands where it was read. -/
theorem statement_place (stmt : Parser (Stmt Run)) (i : Input) :
    (statement stmt).Ensures i fun s _ j => s.place = ⟨i.position, j.position⟩ := by
  rw [statement, ensures_bind, ensures_kind]
  cases i.kind with
  | fixed f =>
    cases f with
    | ifWord =>
      simp only [Ensures, ifStatement, bind_apply, position]
      split <;> rfl
    | _ => rfl
  | _ => rfl

end Parser

namespace Builder

variable {i : Input}

/-- **A statement is kept when all that it holds is kept,** with the span up to here. -/
theorem builds_kept {form : Builder (StmtForm Span)} {p : Parser (Stmt Run)}
    (hform : Builds StmtForm.word Stmt.planForm i form p)
    (hplace : p.Ensures i fun s _ j => s.place = ⟨i.position, j.position⟩) :
    Builds Id.word Stmt.plan i (kept form) p :=
  builds_placed hform performs_stmt Stmt.plan_eq hplace

theorem builds_stmtWithin (n : Nat) (i : Input) :
    Builds Id.word Stmt.plan i (stmtWithin n) (Parser.stmtWithin n) := by
  induction n generalizing i with
  | zero => exact builds_kept (builds_expressionStatement i) rfl
  | succ n ih => exact builds_kept (builds_stmtForm ih i) (Parser.statement_place _ i)

/-- **A builder of a statement** keeps the plan of the statement that the parser reads. -/
theorem builds_statement (i : Input) : Builds Id.word Stmt.plan i statement Parser.stmt :=
  Realizes.look rfl ((builds_stmtWithin _ i).of_eq rfl)

/-! ## 5. Modules -/

theorem builds_topLevelItem? (i : Input) :
    Builds (Option.map (Option.map Id.word)) (Plan.optional (Plan.optional Stmt.plan)) i
      topLevelItem? Parser.topLevelItem? := by
  refine Realizes.read ?_
  refine Realizes.ite (fun _ => ?_) (fun _ => ?_)
  · exact .done (f := fun _ => none) (fun _ => rfl) rfl
  refine Builds.bind (builds_item builds_statement _ _) ?_
  exact .done (f := some) (fun _ => rfl) rfl

/-- **The builder of a module** keeps the plan of all statements that the parser reads. -/
theorem builds_module (i : Input) :
    Builds Slots.word Stmt.planModule i module Parser.topLevel := by
  refine Builds.bind (builds_collect builds_topLevelItem? i) ?_
  refine Realizes.last performs_items ?_
  rw [Stmt.planModule, Plan.all_filterMap]
  rfl

end Builder

end PlatformGate
