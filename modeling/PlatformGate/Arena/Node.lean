/-
# The arena

The flat form of syntax trees: a node names its parts by ids and its lists by slots.
-/
import PlatformGate.Arena.Store
import PlatformGate.Syntax.Tree

namespace PlatformGate

/-- What an expression node is. -/
inductive ExprForm
  | int (value : Nat)
  | bool (value : Bool)
  | ident (name : String)
  | discard
  | paren (inner : Id .expr)
  | tuple (items : Slots .expr)
  | call (callee : Id .expr) (args : Slots .expr)
  | unary (op : UnaryOperator) (operand : Id .expr)
  | binary (op : BinaryOperator) (left right : Id .expr)
  | ternary (cond whenTrue whenFalse : Id .expr)
  | assign (target value : Id .expr)
  | error
  deriving DecidableEq, Repr, Inhabited

structure ExprNode (ρ : Type) where
  form : ExprForm
  place : ρ
  deriving DecidableEq, Repr, Inhabited

/-- Whether the node is the placeholder left after a problem. -/
def ExprNode.isError {ρ : Type} (n : ExprNode ρ) : Bool := n.form == .error

structure BlockNode (ρ : Type) where
  stmts : Slots .stmt
  place : ρ
  deriving DecidableEq, Repr, Inhabited

/-- What follows `else` in an `if`. -/
inductive ElseNode (ρ : Type)
  | block (block : BlockNode ρ)
  | elseIf (stmt : Id .stmt)
  deriving DecidableEq, Repr, Inhabited

/-- What a statement node is.  A missing body is `none`. -/
inductive StmtForm (ρ : Type)
  | expr (value : Id .expr)
  | declaration (mutable : Bool) (pattern : Pattern ρ) (init : Option (Id .expr))
  | ifStmt (conditions : Slots .clause) (body : Option (BlockNode ρ))
      (alternative : Option (ElseNode ρ))
  | guardStmt (conditions : Slots .clause) (body : Option (BlockNode ρ))
  | whileStmt (conditions : Slots .clause) (body : Option (BlockNode ρ))
  | returnStmt (value : Option (Id .expr))
  deriving DecidableEq, Repr, Inhabited

/-- The conditions of a statement with a header. -/
def StmtForm.conditions? {ρ : Type} : StmtForm ρ → Option (Slots .clause)
  | ifStmt cs _ _ | guardStmt cs _ | whileStmt cs _ => some cs
  | _ => none

structure StmtNode (ρ : Type) where
  form : StmtForm ρ
  place : ρ
  deriving DecidableEq, Repr, Inhabited

/-- What a clause node is. -/
inductive ClauseForm (ρ : Type)
  | expr (value : Id .expr)
  | binding (mutable : Bool) (pattern : Pattern ρ) (init : Option (Id .expr))
  | matching (pattern init : Id .expr)
  | availability (query : Query ρ)
  deriving DecidableEq, Repr, Inhabited

structure ClauseNode (ρ : Type) where
  form : ClauseForm ρ
  place : ρ
  deriving DecidableEq, Repr, Inhabited

/-- The query of the clause, if it is one. -/
def ClauseNode.query? {ρ : Type} (n : ClauseNode ρ) : Option (Query ρ) :=
  match n.form with
  | .availability q => some q
  | _ => none

/-- All nodes of one reading. -/
structure Arena (ρ : Type) where
  exprs : Store .expr (ExprNode ρ) := {}
  stmts : Store .stmt (StmtNode ρ) := {}
  clauses : Store .clause (ClauseNode ρ) := {}
  deriving Repr, Inhabited

namespace Arena

variable {ρ : Type}

def addExpr (node : ExprNode ρ) : StateM (Arena ρ) (Id .expr) := fun a =>
  let (i, exprs) := a.exprs.add node
  (i, { a with exprs })

def addExprs (ids : List (Id .expr)) : StateM (Arena ρ) (Slots .expr) := fun a =>
  let (r, exprs) := a.exprs.addList ids
  (r, { a with exprs })

def addStmt (node : StmtNode ρ) : StateM (Arena ρ) (Id .stmt) := fun a =>
  let (i, stmts) := a.stmts.add node
  (i, { a with stmts })

def addStmts (ids : List (Id .stmt)) : StateM (Arena ρ) (Slots .stmt) := fun a =>
  let (r, stmts) := a.stmts.addList ids
  (r, { a with stmts })

def addClause (node : ClauseNode ρ) : StateM (Arena ρ) (Id .clause) := fun a =>
  let (i, clauses) := a.clauses.add node
  (i, { a with clauses })

def addClauses (ids : List (Id .clause)) : StateM (Arena ρ) (Slots .clause) := fun a =>
  let (r, clauses) := a.clauses.addList ids
  (r, { a with clauses })

/-- The queries of all clauses, in the order in which the clauses were kept. -/
def queries (a : Arena ρ) : List (Query ρ) := a.clauses.nodes.toList.filterMap ClauseNode.query?

end Arena

end PlatformGate
