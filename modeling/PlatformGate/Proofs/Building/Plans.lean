/-
# Plans of arenas

A tree says which nodes are to be kept for it and in which order: `Expr.plan`, `Clause.plan` and
`Stmt.plan` are its layout, as soon as it is known where the tokens stand in the source.  A plan is a
computation, and each of the equations here splits it into the plans of the parts and the steps that
a builder takes when the parts are done.
-/
import PlatformGate.Building.Statement

namespace PlatformGate

/-- What is kept in an arena, when it is known where the tokens stand. -/
abbrev Plan (α : Type) : Type := ReaderT (Run → Span) (StateM (Arena Span)) α

/-! ## 1. Steps -/

namespace Plan

variable {α β : Type}

/-- What depends on where the tokens stand. -/
def located (f : (Run → Span) → α) : Plan α := fun locate => pure (f locate)

def spanOf (r : Run) : Plan Span := located fun locate => locate r

def expr (form : ExprForm) (place : Span) : Plan (Id .expr) :=
  fun _ => Arena.addExpr ⟨form, place⟩

def exprs (ids : List (Id .expr)) : Plan (Slots .expr) := fun _ => Arena.addExprs ids

def stmt (form : StmtForm Span) (place : Span) : Plan (Id .stmt) :=
  fun _ => Arena.addStmt ⟨form, place⟩

def stmts (ids : List (Id .stmt)) : Plan (Slots .stmt) := fun _ => Arena.addStmts ids

def clause (form : ClauseForm Span) (place : Span) : Plan (Id .clause) :=
  fun _ => Arena.addClause ⟨form, place⟩

def clauses (ids : List (Id .clause)) : Plan (Slots .clause) := fun _ => Arena.addClauses ids

/-- The plans of the members of a list, one after the other. -/
def all (plan : α → Plan β) : List α → Plan (List β)
  | [] => return []
  | a :: as => do
    let b ← plan a
    let bs ← all plan as
    return b :: bs

/-- The plan of something that may be left out. -/
def optional (plan : α → Plan β) : Option α → Plan (Option β)
  | none => return none
  | some a => do
    let b ← plan a
    return some b

end Plan

/-! ## 2. Trees -/

namespace Expr

/-- The plan of an expression. -/
def plan (e : Expr Run) : Plan (Id .expr) := fun locate => (e.map locate).layout

section Equations

variable (e e' e'' : Expr Run) (es : List (Expr Run)) (p : Run)

theorem plan_unary (o : UnaryOperator) : (unary o e p).plan = (do
    let i ← plan e
    let place ← Plan.spanOf p
    Plan.expr (.unary o i) place) := rfl

theorem plan_binary (o : BinaryOperator) : (binary o e e' p).plan = (do
    let i ← plan e
    let j ← plan e'
    let place ← Plan.spanOf p
    Plan.expr (.binary o i j) place) := rfl

theorem plan_ternary : (ternary e e' e'' p).plan = (do
    let i ← plan e
    let j ← plan e'
    let k ← plan e''
    let place ← Plan.spanOf p
    Plan.expr (.ternary i j k) place) := rfl

theorem plan_assign : (assign e e' p).plan = (do
    let i ← plan e
    let j ← plan e'
    let place ← Plan.spanOf p
    Plan.expr (.assign i j) place) := rfl

theorem layoutAll_plans (locate : Run → Span) (es : List (Expr Run)) :
    layoutAll (mapAll locate es) = Plan.all plan es locate := by
  induction es with
  | nil => rfl
  | cons e es ih =>
    rw [mapAll, layoutAll, ih]
    rfl

theorem plan_call : (call e es p).plan = (do
    let i ← plan e
    let is ← Plan.all plan es
    let r ← Plan.exprs is
    let place ← Plan.spanOf p
    Plan.expr (.call i r) place) := by
  funext locate
  rw [plan, map, layout, layoutAll_plans]
  rfl

/-- What the ids of values between parentheses make up. -/
def planGroup : List (Id .expr) → Plan ExprForm
  | [] => return .tuple Slots.empty
  | [i] => return .paren i
  | is => do
    let r ← Plan.exprs is
    return .tuple r

theorem plan_grouped : (Parser.grouped p es).plan = (do
    let is ← Plan.all plan es
    let form ← planGroup is
    let place ← Plan.spanOf p
    Plan.expr form place) := by
  cases es with
  | nil => rfl
  | cons e es =>
    cases es with
    | nil => rfl
    | cons e' es =>
      have htuple : Parser.grouped p (e :: e' :: es) = tuple (e :: e' :: es) p := rfl
      funext locate
      rw [htuple, plan, map, mapAll, layout, layoutAll_plans]
      rfl

end Equations

end Expr

namespace Clause

/-- The plan of a clause. -/
def plan (c : Clause Run) : Plan (Id .clause) := fun locate => (c.map locate).layout

/-- The plan of all that a clause holds. -/
def planForm : Clause Run → Plan (ClauseForm Span)
  | expr e _ => do
    let i ← e.plan
    return .expr i
  | binding m b init _ => do
    let b ← Plan.located fun locate => b.map locate
    let i? ← Plan.optional Expr.plan init
    return .binding m b i?
  | matching e init _ => do
    let i ← e.plan
    let j ← init.plan
    return .matching i j
  | availability q => do
    let q ← Plan.located fun locate => q.map locate
    return .availability q

/-- **A clause is kept when all that it holds is kept.** -/
theorem plan_eq (c : Clause Run) : c.plan = (do
    let form ← c.planForm
    let place ← Plan.spanOf c.place
    Plan.clause form place) := by
  cases c with
  | binding m b init p => cases init <;> rfl
  | _ => rfl

/-- The plan of the clauses of a header. -/
def planHeader (cs : List (Clause Run)) : Plan (Slots .clause) := do
  let is ← Plan.all plan cs
  Plan.clauses is

theorem layoutHeader_plans (locate : Run → Span) (cs : List (Clause Run)) :
    layoutHeader (cs.map (Clause.map locate)) = planHeader cs locate := by
  have hall : layoutAll (cs.map (Clause.map locate)) = Plan.all plan cs locate := by
    induction cs with
    | nil => rfl
    | cons c cs ih =>
      rw [List.map_cons, layoutAll, ih]
      rfl
  rw [layoutHeader, hall]
  rfl

end Clause

namespace Stmt

/-- The plan of a statement. -/
def plan (s : Stmt Run) : Plan (Id .stmt) := fun locate => (s.map locate).layout

/-- The plan of a body. -/
def planBody (b : Body Run) : Plan (Option (BlockNode Span)) :=
  fun locate => layoutBody (mapBody locate b)

/-- The plan of what follows `else`. -/
def planAlternative (a : Alternative Run) : Plan (Option (ElseNode Span)) :=
  fun locate => layoutAlternative (mapAlternative locate a)

theorem layoutAll_plans (locate : Run → Span) (ss : List (Stmt Run)) :
    layoutAll (mapAll locate ss) = Plan.all plan ss locate := by
  induction ss with
  | nil => rfl
  | cons s ss ih =>
    rw [mapAll, layoutAll, ih]
    rfl

theorem planBody_block (ss : List (Stmt Run)) (p : Run) : planBody (.block ss p) = (do
    let is ← Plan.all plan ss
    let r ← Plan.stmts is
    let place ← Plan.spanOf p
    return some ⟨r, place⟩) := by
  funext locate
  rw [planBody, mapBody, layoutBody, layoutAll_plans]
  rfl

/-- The plan of all that a statement holds. -/
def planForm : Stmt Run → Plan (StmtForm Span)
  | expr e _ => do
    let i ← e.plan
    return .expr i
  | declaration m b init _ => do
    let b ← Plan.located fun locate => b.map locate
    let i? ← Plan.optional Expr.plan init
    return .declaration m b i?
  | ifStmt cs b a _ => do
    let r ← Clause.planHeader cs
    let b? ← planBody b
    let e? ← planAlternative a
    return .ifStmt r b? e?
  | guardStmt cs b _ => do
    let r ← Clause.planHeader cs
    let b? ← planBody b
    return .guardStmt r b?
  | whileStmt cs b _ => do
    let r ← Clause.planHeader cs
    let b? ← planBody b
    return .whileStmt r b?
  | returnStmt e _ => do
    let i? ← Plan.optional Expr.plan e
    return .returnStmt i?

/-- **A statement is kept when all that it holds is kept.** -/
theorem plan_eq (s : Stmt Run) : s.plan = (do
    let form ← s.planForm
    let place ← Plan.spanOf s.place
    Plan.stmt form place) := by
  funext locate
  cases s with
  | expr e p => rfl
  | declaration m b init p => cases init <;> rfl
  | returnStmt e p => cases e <;> rfl
  | ifStmt cs b a p =>
    rw [plan, map, layout, Clause.layoutHeader_plans]
    rfl
  | guardStmt cs b p | whileStmt cs b p =>
    rw [plan, map, layout, Clause.layoutHeader_plans]
    rfl

/-- The plan of a module. -/
def planModule (ss : List (Stmt Run)) : Plan (Slots .stmt) := do
  let is ← Plan.all plan ss
  Plan.stmts is

theorem layoutModule_plans (locate : Run → Span) (ss : List (Stmt Run)) :
    layoutModule (mapAll locate ss) = planModule ss locate := by
  rw [layoutModule, layoutAll_plans]
  rfl

end Stmt

end PlatformGate
