/-
# Laying out trees

A tree is laid out in an arena from the leaves up and from left to right: the parts of a node are
kept before the node, and a list is kept when all its members are.  So every id in a node is
smaller than the id of the node.
-/
import PlatformGate.Arena.Node

namespace PlatformGate

open Arena

variable {ρ : Type}

namespace Expr

mutual

/-- Keeps an expression and all its parts. -/
def layout : Expr ρ → StateM (Arena ρ) (Id .expr)
  | int v p => addExpr ⟨.int v, p⟩
  | bool v p => addExpr ⟨.bool v, p⟩
  | ident n p => addExpr ⟨.ident n, p⟩
  | discard p => addExpr ⟨.discard, p⟩
  | paren e p => do
    let i ← layout e
    addExpr ⟨.paren i, p⟩
  | tuple [] p => addExpr ⟨.tuple Slots.empty, p⟩
  | tuple (e :: es) p => do
    let i ← layout e
    let is ← layoutAll es
    let r ← addExprs (i :: is)
    addExpr ⟨.tuple r, p⟩
  | call c es p => do
    let callee ← layout c
    let is ← layoutAll es
    let r ← addExprs is
    addExpr ⟨.call callee r, p⟩
  | unary o e p => do
    let i ← layout e
    addExpr ⟨.unary o i, p⟩
  | binary o l r p => do
    let left ← layout l
    let right ← layout r
    addExpr ⟨.binary o left right, p⟩
  | ternary c t e p => do
    let cond ← layout c
    let whenTrue ← layout t
    let whenFalse ← layout e
    addExpr ⟨.ternary cond whenTrue whenFalse, p⟩
  | assign t v p => do
    let target ← layout t
    let value ← layout v
    addExpr ⟨.assign target value, p⟩
  | error p => addExpr ⟨.error, p⟩

/-- Keeps every expression of a list. -/
def layoutAll : List (Expr ρ) → StateM (Arena ρ) (List (Id .expr))
  | [] => return []
  | e :: es => do
    let i ← layout e
    let is ← layoutAll es
    return i :: is

end

/-- Keeps an expression if there is one. -/
def layout? : Option (Expr ρ) → StateM (Arena ρ) (Option (Id .expr))
  | none => return none
  | some e => do
    let i ← layout e
    return some i

end Expr

namespace Clause

/-- Keeps a clause and all its parts. -/
def layout : Clause ρ → StateM (Arena ρ) (Id .clause)
  | expr e p => do
    let i ← e.layout
    addClause ⟨.expr i, p⟩
  | binding m b init p => do
    let i ← Expr.layout? init
    addClause ⟨.binding m b i, p⟩
  | matching e init p => do
    let pattern ← e.layout
    let i ← init.layout
    addClause ⟨.matching pattern i, p⟩
  | availability q => addClause ⟨.availability q, q.place⟩

/-- Keeps every clause of a list. -/
def layoutAll : List (Clause ρ) → StateM (Arena ρ) (List (Id .clause))
  | [] => return []
  | c :: cs => do
    let i ← layout c
    let is ← layoutAll cs
    return i :: is

/-- Keeps the clauses of a header and the list of them. -/
def layoutHeader (cs : List (Clause ρ)) : StateM (Arena ρ) (Slots .clause) := do
  let is ← layoutAll cs
  addClauses is

end Clause

namespace Stmt

mutual

/-- Keeps a statement and all its parts. -/
def layout : Stmt ρ → StateM (Arena ρ) (Id .stmt)
  | expr e p => do
    let i ← e.layout
    addStmt ⟨.expr i, p⟩
  | declaration m b init p => do
    let i ← Expr.layout? init
    addStmt ⟨.declaration m b i, p⟩
  | ifStmt cs b a p => do
    let conditions ← Clause.layoutHeader cs
    let body ← layoutBody b
    let alternative ← layoutAlternative a
    addStmt ⟨.ifStmt conditions body alternative, p⟩
  | guardStmt cs b p => do
    let conditions ← Clause.layoutHeader cs
    let body ← layoutBody b
    addStmt ⟨.guardStmt conditions body, p⟩
  | whileStmt cs b p => do
    let conditions ← Clause.layoutHeader cs
    let body ← layoutBody b
    addStmt ⟨.whileStmt conditions body, p⟩
  | returnStmt e p => do
    let i ← Expr.layout? e
    addStmt ⟨.returnStmt i, p⟩

/-- Keeps the statements of a body. -/
def layoutBody : Body ρ → StateM (Arena ρ) (Option (BlockNode ρ))
  | .missing => return none
  | .block ss p => do
    let is ← layoutAll ss
    let r ← addStmts is
    return some ⟨r, p⟩

/-- Keeps what follows `else`. -/
def layoutAlternative : Alternative ρ → StateM (Arena ρ) (Option (ElseNode ρ))
  | .body b => do
    let block ← layoutBody b
    return block.map .block
  | .elseIf s => do
    let i ← layout s
    return some (.elseIf i)

/-- Keeps every statement of a list. -/
def layoutAll : List (Stmt ρ) → StateM (Arena ρ) (List (Id .stmt))
  | [] => return []
  | s :: ss => do
    let i ← layout s
    let is ← layoutAll ss
    return i :: is

end

/-- Keeps the statements of a module and the list of them. -/
def layoutModule (ss : List (Stmt ρ)) : StateM (Arena ρ) (Slots .stmt) := do
  let is ← layoutAll ss
  addStmts is

end Stmt

end PlatformGate
