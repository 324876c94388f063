/-
# The queries of a tree are those of its arena

A query stands in a clause, and a clause in the header of a statement.  Clauses are kept in the
order in which they stand in the tree: those of a header before those of the body, and those of the
body before those of what follows `else`.  So the queries of an arena are the queries of the
statements that were laid out, from left to right (`Stmt.queries_layoutModule`).
-/
import PlatformGate.Arena.Layout

namespace PlatformGate

variable {ρ σ α β : Type}

/-! ## 1. Queries of trees -/

/-- The queries among the clauses of a header. -/
def Clause.queries (cs : List (Clause ρ)) : List (Query ρ) := cs.filterMap query?

theorem Clause.queries_cons (c : Clause ρ) (cs : List (Clause ρ)) :
    queries (c :: cs) = c.query?.toList ++ queries cs := by
  unfold queries
  cases hquery : c.query? <;> simp [hquery]

theorem Clause.queries_eq_flatMap (cs : List (Clause ρ)) :
    queries cs = cs.flatMap fun c => c.query?.toList := by
  induction cs with
  | nil => rfl
  | cons c cs ih => rw [queries_cons, ih, List.flatMap_cons]

namespace Stmt

mutual

/-- The queries of a statement, in the order in which they stand in it. -/
def queries : Stmt ρ → List (Query ρ)
  | expr .. | declaration .. | returnStmt .. => []
  | ifStmt cs b a _ => Clause.queries cs ++ (queriesOfBody b ++ queriesOfAlternative a)
  | guardStmt cs b _ | whileStmt cs b _ => Clause.queries cs ++ queriesOfBody b

/-- `queries` of a body. -/
def queriesOfBody : Body ρ → List (Query ρ)
  | .missing => []
  | .block ss _ => queriesAll ss

/-- `queries` of what follows `else`. -/
def queriesOfAlternative : Alternative ρ → List (Query ρ)
  | .body b => queriesOfBody b
  | .elseIf s => queries s

/-- `queries` of each statement of a list. -/
def queriesAll : List (Stmt ρ) → List (Query ρ)
  | [] => []
  | s :: ss => queries s ++ queriesAll ss

end

end Stmt

section Moved

variable (f : ρ → σ)

theorem Clause.query?_map (c : Clause ρ) : (c.map f).query? = c.query?.map (Query.map f) := by
  cases c <;> rfl

theorem Clause.queries_map (cs : List (Clause ρ)) :
    queries (cs.map (map f)) = (queries cs).map (Query.map f) := by
  unfold queries
  rw [List.filterMap_map, List.map_filterMap]
  exact congrArg (fun g => List.filterMap g cs) (funext (query?_map f))

namespace Stmt

mutual

theorem queries_map : ∀ s : Stmt ρ, (map f s).queries = s.queries.map (Query.map f)
  | expr .. | declaration .. | returnStmt .. => rfl
  | ifStmt cs b a _ => by
    simp only [map, queries, List.map_append, Clause.queries_map, queriesOfBody_map b,
      queriesOfAlternative_map a]
  | guardStmt cs b _ | whileStmt cs b _ => by
    simp only [map, queries, List.map_append, Clause.queries_map, queriesOfBody_map b]

theorem queriesOfBody_map : ∀ b : Body ρ,
    queriesOfBody (mapBody f b) = (queriesOfBody b).map (Query.map f)
  | .missing => rfl
  | .block ss _ => queriesAll_map ss

theorem queriesOfAlternative_map : ∀ a : Alternative ρ,
    queriesOfAlternative (mapAlternative f a) = (queriesOfAlternative a).map (Query.map f)
  | .body b => queriesOfBody_map b
  | .elseIf s => queries_map s

theorem queriesAll_map : ∀ ss : List (Stmt ρ),
    queriesAll (mapAll f ss) = (queriesAll ss).map (Query.map f)
  | [] => rfl
  | s :: ss => by
    simp only [mapAll, queriesAll, List.map_append, queries_map s, queriesAll_map ss]

end

end Stmt

end Moved

/-! ## 2. Queries of arenas -/

namespace Arena

/-- The action puts the queries behind those of the arena. -/
def Enlists (m : StateM (Arena ρ) α) (qs : List (Query ρ)) : Prop :=
  ∀ a : Arena ρ, (m.run a).2.queries = a.queries ++ qs

variable {m : StateM (Arena ρ) α} {qs qs' : List (Query ρ)}

theorem enlists_pure {x : α} : Enlists (pure x : StateM (Arena ρ) α) [] :=
  fun a => (List.append_nil a.queries).symm

theorem Enlists.bind {f : α → StateM (Arena ρ) β} (h : Enlists m qs)
    (hf : ∀ x, Enlists (f x) qs') : Enlists (m >>= f) (qs ++ qs') := by
  intro a
  have hrest := hf (m.run a).1 (m.run a).2
  rw [h a, List.append_assoc] at hrest
  exact hrest

/-- An action without a query behind another. -/
theorem Enlists.then {f : α → StateM (Arena ρ) β} (h : Enlists m qs)
    (hf : ∀ x, Enlists (f x) []) : Enlists (m >>= f) qs := by
  have hall := h.bind hf
  rwa [List.append_nil] at hall

theorem enlists_addExpr {node : ExprNode ρ} : Enlists (addExpr node) [] :=
  fun a => (List.append_nil a.queries).symm

theorem enlists_addExprs {ids : List (Id .expr)} : Enlists (addExprs (ρ := ρ) ids) [] :=
  fun a => (List.append_nil a.queries).symm

theorem enlists_addStmt {node : StmtNode ρ} : Enlists (addStmt node) [] :=
  fun a => (List.append_nil a.queries).symm

theorem enlists_addStmts {ids : List (Id .stmt)} : Enlists (addStmts (ρ := ρ) ids) [] :=
  fun a => (List.append_nil a.queries).symm

theorem enlists_addClauses {ids : List (Id .clause)} : Enlists (addClauses (ρ := ρ) ids) [] :=
  fun a => (List.append_nil a.queries).symm

/-- Only a clause brings a query. -/
theorem enlists_addClause (node : ClauseNode ρ) :
    Enlists (addClause node) node.query?.toList := by
  intro a
  have hnodes : ((addClause node).run a).2.queries =
      (a.clauses.nodes.push node).toList.filterMap ClauseNode.query? := rfl
  rw [hnodes, Array.toList_push, List.filterMap_append]
  cases hquery : node.query? <;> simp [queries, hquery]

end Arena

open Arena

namespace Expr

mutual

theorem layout_enlists : ∀ e : Expr ρ, Enlists (layout e) []
  | int .. | bool .. | ident .. | discard .. | error .. => by
    simp only [layout]
    exact enlists_addExpr
  | paren e _ | unary _ e _ => by
    simp only [layout]
    exact (layout_enlists e).then fun i => enlists_addExpr
  | tuple [] _ => by
    simp only [layout]
    exact enlists_addExpr
  | tuple (e :: es) _ => by
    simp only [layout]
    refine (layout_enlists e).then fun i => ?_
    refine (layoutAll_enlists es).then fun is => ?_
    exact enlists_addExprs.then fun r => enlists_addExpr
  | call c es _ => by
    simp only [layout]
    refine (layout_enlists c).then fun callee => ?_
    refine (layoutAll_enlists es).then fun is => ?_
    exact enlists_addExprs.then fun r => enlists_addExpr
  | binary _ l r _ | assign l r _ => by
    simp only [layout]
    refine (layout_enlists l).then fun left => ?_
    exact (layout_enlists r).then fun right => enlists_addExpr
  | ternary c t e _ => by
    simp only [layout]
    refine (layout_enlists c).then fun cond => ?_
    refine (layout_enlists t).then fun whenTrue => ?_
    exact (layout_enlists e).then fun whenFalse => enlists_addExpr

theorem layoutAll_enlists : ∀ es : List (Expr ρ), Enlists (layoutAll es) []
  | [] => by
    simp only [layoutAll]
    exact enlists_pure
  | e :: es => by
    simp only [layoutAll]
    refine (layout_enlists e).then fun i => ?_
    exact (layoutAll_enlists es).then fun is => enlists_pure

end

theorem layout?_enlists (e? : Option (Expr ρ)) : Enlists (layout? e?) [] := by
  cases e? with
  | none => exact enlists_pure
  | some e => exact (layout_enlists e).then fun i => enlists_pure

end Expr

namespace Clause

theorem layout_enlists (c : Clause ρ) : Enlists (layout c) c.query?.toList := by
  cases c with
  | expr e p => exact e.layout_enlists.bind fun i => enlists_addClause _
  | binding m b init p => exact (Expr.layout?_enlists init).bind fun i => enlists_addClause _
  | matching e init p =>
    refine e.layout_enlists.bind fun pattern => ?_
    exact init.layout_enlists.bind fun i => enlists_addClause _
  | availability q => exact enlists_addClause _

theorem layoutAll_enlists (cs : List (Clause ρ)) : Enlists (layoutAll cs) (queries cs) := by
  induction cs with
  | nil => exact enlists_pure
  | cons c cs ih =>
    rw [queries_cons]
    refine (layout_enlists c).bind fun i => ?_
    exact ih.then fun is => enlists_pure

theorem layoutHeader_enlists (cs : List (Clause ρ)) : Enlists (layoutHeader cs) (queries cs) :=
  (layoutAll_enlists cs).then fun _ => enlists_addClauses

end Clause

namespace Stmt

mutual

/-- **A statement is laid out with its queries in order.** -/
theorem layout_enlists : ∀ s : Stmt ρ, Enlists (layout s) s.queries
  | expr e _ => by
    simp only [layout]
    exact e.layout_enlists.then fun i => enlists_addStmt
  | declaration _ _ init _ => by
    simp only [layout]
    exact (Expr.layout?_enlists init).then fun i => enlists_addStmt
  | ifStmt cs b a _ => by
    simp only [layout]
    refine (Clause.layoutHeader_enlists cs).bind fun conditions => ?_
    refine (layoutBody_enlists b).bind fun body => ?_
    exact (layoutAlternative_enlists a).then fun alternative => enlists_addStmt
  | guardStmt cs b _ | whileStmt cs b _ => by
    simp only [layout]
    refine (Clause.layoutHeader_enlists cs).bind fun conditions => ?_
    exact (layoutBody_enlists b).then fun body => enlists_addStmt
  | returnStmt e _ => by
    simp only [layout]
    exact (Expr.layout?_enlists e).then fun i => enlists_addStmt

theorem layoutBody_enlists : ∀ b : Body ρ, Enlists (layoutBody b) (queriesOfBody b)
  | .missing => by
    simp only [layoutBody]
    exact enlists_pure
  | .block ss _ => by
    simp only [layoutBody]
    refine (layoutAll_enlists ss).then fun is => ?_
    exact enlists_addStmts.then fun r => enlists_pure

theorem layoutAlternative_enlists : ∀ a : Alternative ρ,
    Enlists (layoutAlternative a) (queriesOfAlternative a)
  | .body b => by
    simp only [layoutAlternative]
    exact (layoutBody_enlists b).then fun block => enlists_pure
  | .elseIf s => by
    simp only [layoutAlternative]
    exact (layout_enlists s).then fun i => enlists_pure

theorem layoutAll_enlists : ∀ ss : List (Stmt ρ), Enlists (layoutAll ss) (queriesAll ss)
  | [] => by
    simp only [layoutAll]
    exact enlists_pure
  | s :: ss => by
    simp only [layoutAll]
    refine (layout_enlists s).bind fun i => ?_
    exact (layoutAll_enlists ss).then fun is => enlists_pure

end

/-- **The queries of an arena are those of the module** that was laid out in it. -/
theorem queries_layoutModule (ss : List (Stmt ρ)) :
    ((layoutModule ss).run {}).2.queries = queriesAll ss :=
  ((layoutAll_enlists ss).then fun _ => enlists_addStmts) {}

end Stmt

end PlatformGate
