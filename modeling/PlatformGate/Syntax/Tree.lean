/-
# Syntax trees

Expressions, condition clauses and statements as trees.  Reading never fails, so a tree can have
holes: an `error` expression, a `missing` pattern or a `missing` body stands where something was
expected and not found.  The type of places is left open; `map` moves a tree to other places.
-/
import PlatformGate.Syntax.Availability
import PlatformGate.Syntax.Operator

namespace PlatformGate

/-- The left side of a binding. -/
inductive Pattern (ρ : Type)
  /-- The pattern `_`. -/
  | wildcard (place : ρ)
  | binding (name : String) (place : ρ)
  | missing (place : ρ)
  deriving DecidableEq, Repr, Inhabited

namespace Pattern

variable {ρ σ : Type}

def place : Pattern ρ → ρ
  | wildcard p | binding _ p | missing p => p

def map (f : ρ → σ) : Pattern ρ → Pattern σ
  | wildcard p => wildcard (f p)
  | binding n p => binding n (f p)
  | missing p => missing (f p)

end Pattern

/-- Expressions.  A `discard` is the word `_` as a value, and `paren` one value in parentheses. -/
inductive Expr (ρ : Type)
  | int (value : Nat) (place : ρ)
  | bool (value : Bool) (place : ρ)
  | ident (name : String) (place : ρ)
  | discard (place : ρ)
  | paren (inner : Expr ρ) (place : ρ)
  | tuple (items : List (Expr ρ)) (place : ρ)
  | call (callee : Expr ρ) (args : List (Expr ρ)) (place : ρ)
  | unary (op : UnaryOperator) (operand : Expr ρ) (place : ρ)
  | binary (op : BinaryOperator) (left right : Expr ρ) (place : ρ)
  | ternary (cond whenTrue whenFalse : Expr ρ) (place : ρ)
  | assign (target value : Expr ρ) (place : ρ)
  | error (place : ρ)
  deriving Repr, Inhabited

namespace Expr

variable {ρ σ : Type}

def place : Expr ρ → ρ
  | int _ p | bool _ p | ident _ p | discard p | paren _ p | tuple _ p | call _ _ p
  | unary _ _ p | binary _ _ _ p | ternary _ _ _ p | assign _ _ p | error p => p

mutual

def map (f : ρ → σ) : Expr ρ → Expr σ
  | int v p => int v (f p)
  | bool v p => bool v (f p)
  | ident n p => ident n (f p)
  | discard p => discard (f p)
  | paren e p => paren (map f e) (f p)
  | tuple es p => tuple (mapAll f es) (f p)
  | call e es p => call (map f e) (mapAll f es) (f p)
  | unary o e p => unary o (map f e) (f p)
  | binary o l r p => binary o (map f l) (map f r) (f p)
  | ternary c t e p => ternary (map f c) (map f t) (map f e) (f p)
  | assign t v p => assign (map f t) (map f v) (f p)
  | error p => error (f p)

/-- `map` on every expression of a list. -/
def mapAll (f : ρ → σ) : List (Expr ρ) → List (Expr σ)
  | [] => []
  | e :: es => map f e :: mapAll f es

end

theorem mapAll_eq_map (f : ρ → σ) (es : List (Expr ρ)) : mapAll f es = es.map (map f) := by
  induction es with
  | nil => rfl
  | cons e es ih => rw [mapAll, ih, List.map_cons]

@[simp] theorem place_map (f : ρ → σ) (e : Expr ρ) : (map f e).place = f e.place := by
  cases e <;> simp [map, place]

end Expr

/-- One clause of a header. -/
inductive Clause (ρ : Type)
  | expr (value : Expr ρ) (place : ρ)
  /-- `let x = value`; the value may be left out. -/
  | binding (mutable : Bool) (pattern : Pattern ρ) (init : Option (Expr ρ)) (place : ρ)
  /-- `case pattern = value`. -/
  | matching (pattern : Expr ρ) (init : Expr ρ) (place : ρ)
  | availability (query : Query ρ)
  deriving Repr, Inhabited

namespace Clause

variable {ρ σ : Type}

def place : Clause ρ → ρ
  | expr _ p | binding _ _ _ p | matching _ _ p => p
  | availability q => q.place

/-- The query of the clause, if it is one. -/
def query? : Clause ρ → Option (Query ρ)
  | availability q => some q
  | _ => none

def map (f : ρ → σ) : Clause ρ → Clause σ
  | expr e p => expr (e.map f) (f p)
  | binding m b i p => binding m (b.map f) (i.map (Expr.map f)) (f p)
  | matching e i p => matching (e.map f) (i.map f) (f p)
  | availability q => availability (q.map f)

end Clause

mutual

/-- Statements. -/
inductive Stmt (ρ : Type)
  | expr (value : Expr ρ) (place : ρ)
  /-- `let x = value`; `var` is the mutable form, and the value may be left out. -/
  | declaration (mutable : Bool) (pattern : Pattern ρ) (init : Option (Expr ρ)) (place : ρ)
  | ifStmt (conditions : List (Clause ρ)) (body : Body ρ) (alternative : Alternative ρ) (place : ρ)
  | guardStmt (conditions : List (Clause ρ)) (body : Body ρ) (place : ρ)
  | whileStmt (conditions : List (Clause ρ)) (body : Body ρ) (place : ρ)
  | returnStmt (value : Option (Expr ρ)) (place : ρ)

/-- What a header is followed by. -/
inductive Body (ρ : Type)
  | missing
  | block (stmts : List (Stmt ρ)) (place : ρ)

/-- What an `if` does otherwise.  Without `else` the body is missing. -/
inductive Alternative (ρ : Type)
  | body (body : Body ρ)
  | elseIf (stmt : Stmt ρ)

end

namespace Stmt

variable {ρ σ : Type}

def place : Stmt ρ → ρ
  | expr _ p | declaration _ _ _ p | ifStmt _ _ _ p | guardStmt _ _ p | whileStmt _ _ p
  | returnStmt _ p => p

mutual

def map (f : ρ → σ) : Stmt ρ → Stmt σ
  | expr e p => expr (e.map f) (f p)
  | declaration m b i p => declaration m (b.map f) (i.map (Expr.map f)) (f p)
  | ifStmt cs b a p => ifStmt (cs.map (Clause.map f)) (mapBody f b) (mapAlternative f a) (f p)
  | guardStmt cs b p => guardStmt (cs.map (Clause.map f)) (mapBody f b) (f p)
  | whileStmt cs b p => whileStmt (cs.map (Clause.map f)) (mapBody f b) (f p)
  | returnStmt e p => returnStmt (e.map (Expr.map f)) (f p)

/-- `map` on a body. -/
def mapBody (f : ρ → σ) : Body ρ → Body σ
  | .missing => .missing
  | .block ss p => .block (mapAll f ss) (f p)

/-- `map` on an alternative. -/
def mapAlternative (f : ρ → σ) : Alternative ρ → Alternative σ
  | .body b => .body (mapBody f b)
  | .elseIf s => .elseIf (map f s)

/-- `map` on every statement of a list. -/
def mapAll (f : ρ → σ) : List (Stmt ρ) → List (Stmt σ)
  | [] => []
  | s :: ss => map f s :: mapAll f ss

end

theorem mapAll_eq_map (f : ρ → σ) (ss : List (Stmt ρ)) : mapAll f ss = ss.map (map f) := by
  induction ss with
  | nil => rfl
  | cons s ss ih => rw [mapAll, ih, List.map_cons]

end Stmt

end PlatformGate
