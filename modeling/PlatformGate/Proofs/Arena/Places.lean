/-
# Laying out does not look at places

An arena is moved to other places node by node (`Arena.map`), and its ids and slots stay as they
are.  Laying out a tree that was moved is laying out the tree and moving the arena
(`Stmt.layoutModule_map`): ids come from the sizes of the stores, which no place changes.  So what
is left of an arena without its places, `Arena.shape`, is known from the shape of what was laid
out.
-/
import PlatformGate.Arena.Layout

namespace PlatformGate

variable {ρ σ τ α β : Type}

/-! ## 1. Arenas at other places -/

def Store.map {s : NodeSort} (f : α → β) (st : Store s α) : Store s β :=
  ⟨st.nodes.map f, st.lists⟩

def ExprNode.map (f : ρ → σ) (n : ExprNode ρ) : ExprNode σ := ⟨n.form, f n.place⟩

def BlockNode.map (f : ρ → σ) (n : BlockNode ρ) : BlockNode σ := ⟨n.stmts, f n.place⟩

def ElseNode.map (f : ρ → σ) : ElseNode ρ → ElseNode σ
  | .block b => .block (b.map f)
  | .elseIf i => .elseIf i

def StmtForm.map (f : ρ → σ) : StmtForm ρ → StmtForm σ
  | .expr i => .expr i
  | .declaration m b i => .declaration m (b.map f) i
  | .ifStmt cs b a => .ifStmt cs (b.map (BlockNode.map f)) (a.map (ElseNode.map f))
  | .guardStmt cs b => .guardStmt cs (b.map (BlockNode.map f))
  | .whileStmt cs b => .whileStmt cs (b.map (BlockNode.map f))
  | .returnStmt i => .returnStmt i

def StmtNode.map (f : ρ → σ) (n : StmtNode ρ) : StmtNode σ := ⟨n.form.map f, f n.place⟩

def ClauseForm.map (f : ρ → σ) : ClauseForm ρ → ClauseForm σ
  | .expr i => .expr i
  | .binding m b i => .binding m (b.map f) i
  | .matching i j => .matching i j
  | .availability q => .availability (q.map f)

def ClauseNode.map (f : ρ → σ) (n : ClauseNode ρ) : ClauseNode σ := ⟨n.form.map f, f n.place⟩

namespace Arena

/-- The arena with every node at another place. -/
def map (f : ρ → σ) (a : Arena ρ) : Arena σ :=
  ⟨a.exprs.map (ExprNode.map f), a.stmts.map (StmtNode.map f), a.clauses.map (ClauseNode.map f)⟩

/-- What is left of an arena without its places. -/
def shape (a : Arena ρ) : Arena Unit := a.map fun _ => ()

/-! ## 2. Actions that do not look at places -/

/-- The second action does to a moved arena what the first does to the arena, and its result is the
moved result. -/
def Commutes (f : ρ → σ) (g : α → β) (m : StateM (Arena ρ) α) (m' : StateM (Arena σ) β) : Prop :=
  ∀ a, m'.run (a.map f) = (g (m.run a).1, (m.run a).2.map f)

variable {f : ρ → σ}

theorem commutes_pure {g : α → β} (x : α) :
    Commutes f g (pure x : StateM (Arena ρ) α) (pure (g x)) := fun _ => rfl

theorem Commutes.bind {α' β' : Type} {g : α → β} {g' : α' → β'} {m : StateM (Arena ρ) α}
    {m' : StateM (Arena σ) β} {k : α → StateM (Arena ρ) α'} {k' : β → StateM (Arena σ) β'}
    (h : Commutes f g m m') (hk : ∀ x, Commutes f g' (k x) (k' (g x))) :
    Commutes f g' (m >>= k) (m' >>= k') := by
  intro a
  have hfirst : (m' >>= k').run (a.map f) =
      (k' (m'.run (a.map f)).1).run (m'.run (a.map f)).2 := rfl
  rw [hfirst, h a]
  exact hk (m.run a).1 (m.run a).2

theorem commutes_addExpr (node : ExprNode ρ) :
    Commutes f id (addExpr node) (addExpr (node.map f)) := by
  intro a
  simp [addExpr, Store.add, map, Store.map, StateT.run]

theorem commutes_addExprs (ids : List (Id .expr)) :
    Commutes f id (addExprs (ρ := ρ) ids) (addExprs ids) := fun _ => rfl

theorem commutes_addStmt (node : StmtNode ρ) :
    Commutes f id (addStmt node) (addStmt (node.map f)) := by
  intro a
  simp [addStmt, Store.add, map, Store.map, StateT.run]

theorem commutes_addStmts (ids : List (Id .stmt)) :
    Commutes f id (addStmts (ρ := ρ) ids) (addStmts ids) := fun _ => rfl

theorem commutes_addClause (node : ClauseNode ρ) :
    Commutes f id (addClause node) (addClause (node.map f)) := by
  intro a
  simp [addClause, Store.add, map, Store.map, StateT.run]

theorem commutes_addClauses (ids : List (Id .clause)) :
    Commutes f id (addClauses (ρ := ρ) ids) (addClauses ids) := fun _ => rfl

end Arena

open Arena

/-! ## 3. Trees -/

variable (f : ρ → σ)

namespace Expr

mutual

theorem layout_map : ∀ e : Expr ρ, Commutes f id (layout e) (layout (map f e))
  | int .. | bool .. | ident .. | discard .. | error .. => by
    simp only [layout, map]
    exact commutes_addExpr _
  | paren e _ | unary _ e _ => by
    simp only [layout, map]
    exact (layout_map e).bind fun i => commutes_addExpr _
  | tuple [] _ => by
    simp only [layout, map, mapAll]
    exact commutes_addExpr _
  | tuple (e :: es) _ => by
    simp only [layout, map, mapAll]
    refine (layout_map e).bind fun i => ?_
    refine (layoutAll_mapAll es).bind fun is => ?_
    exact (commutes_addExprs _).bind fun r => commutes_addExpr _
  | call c es _ => by
    simp only [layout, map]
    refine (layout_map c).bind fun callee => ?_
    refine (layoutAll_mapAll es).bind fun is => ?_
    exact (commutes_addExprs _).bind fun r => commutes_addExpr _
  | binary _ l r _ | assign l r _ => by
    simp only [layout, map]
    refine (layout_map l).bind fun left => ?_
    exact (layout_map r).bind fun right => commutes_addExpr _
  | ternary c t e _ => by
    simp only [layout, map]
    refine (layout_map c).bind fun cond => ?_
    refine (layout_map t).bind fun whenTrue => ?_
    exact (layout_map e).bind fun whenFalse => commutes_addExpr _

theorem layoutAll_mapAll : ∀ es : List (Expr ρ), Commutes f id (layoutAll es) (layoutAll (mapAll f es))
  | [] => by
    simp only [layoutAll, mapAll]
    exact commutes_pure _
  | e :: es => by
    simp only [layoutAll, mapAll]
    refine (layout_map e).bind fun i => ?_
    exact (layoutAll_mapAll es).bind fun is => commutes_pure _

end

theorem layout?_map (e? : Option (Expr ρ)) :
    Commutes f id (layout? e?) (layout? (e?.map (map f))) := by
  cases e? with
  | none => exact commutes_pure _
  | some e => exact (layout_map f e).bind fun i => commutes_pure _

end Expr

namespace Clause

theorem layout_map (c : Clause ρ) : Commutes f id (layout c) (layout (map f c)) := by
  cases c with
  | expr e p => exact (Expr.layout_map f e).bind fun i => commutes_addClause _
  | binding m b init p => exact (Expr.layout?_map f init).bind fun i => commutes_addClause _
  | matching e init p =>
    refine (Expr.layout_map f e).bind fun pattern => ?_
    exact (Expr.layout_map f init).bind fun i => commutes_addClause _
  | availability q => exact commutes_addClause _

theorem layoutAll_map (cs : List (Clause ρ)) :
    Commutes f id (layoutAll cs) (layoutAll (cs.map (map f))) := by
  induction cs with
  | nil => exact commutes_pure _
  | cons c cs ih =>
    refine (layout_map f c).bind fun i => ?_
    exact ih.bind fun is => commutes_pure _

theorem layoutHeader_map (cs : List (Clause ρ)) :
    Commutes f id (layoutHeader cs) (layoutHeader (cs.map (map f))) :=
  (layoutAll_map f cs).bind fun is => commutes_addClauses is

end Clause

namespace Stmt

mutual

theorem layout_map : ∀ s : Stmt ρ, Commutes f id (layout s) (layout (map f s))
  | expr e _ => by
    simp only [layout, map]
    exact (Expr.layout_map f e).bind fun i => commutes_addStmt _
  | declaration _ _ init _ => by
    simp only [layout, map]
    exact (Expr.layout?_map f init).bind fun i => commutes_addStmt _
  | ifStmt cs b a _ => by
    simp only [layout, map]
    refine (Clause.layoutHeader_map f cs).bind fun conditions => ?_
    refine (layoutBody_map b).bind fun body => ?_
    exact (layoutAlternative_map a).bind fun alternative => commutes_addStmt _
  | guardStmt cs b _ | whileStmt cs b _ => by
    simp only [layout, map]
    refine (Clause.layoutHeader_map f cs).bind fun conditions => ?_
    exact (layoutBody_map b).bind fun body => commutes_addStmt _
  | returnStmt e _ => by
    simp only [layout, map]
    exact (Expr.layout?_map f e).bind fun i => commutes_addStmt _

theorem layoutBody_map : ∀ b : Body ρ,
    Commutes f (Option.map (BlockNode.map f)) (layoutBody b) (layoutBody (mapBody f b))
  | .missing => by
    simp only [layoutBody, mapBody]
    exact commutes_pure _
  | .block ss _ => by
    simp only [layoutBody, mapBody]
    refine (layoutAll_mapAll ss).bind fun is => ?_
    exact (commutes_addStmts is).bind fun r => commutes_pure _

theorem layoutAlternative_map : ∀ a : Alternative ρ,
    Commutes f (Option.map (ElseNode.map f)) (layoutAlternative a)
      (layoutAlternative (mapAlternative f a))
  | .body b => by
    simp only [layoutAlternative, mapAlternative]
    refine (layoutBody_map b).bind fun block => ?_
    cases block <;> exact commutes_pure _
  | .elseIf s => by
    simp only [layoutAlternative, mapAlternative]
    exact (layout_map s).bind fun i => commutes_pure _

theorem layoutAll_mapAll : ∀ ss : List (Stmt ρ),
    Commutes f id (layoutAll ss) (layoutAll (mapAll f ss))
  | [] => by
    simp only [layoutAll, mapAll]
    exact commutes_pure _
  | s :: ss => by
    simp only [layoutAll, mapAll]
    refine (layout_map s).bind fun i => ?_
    exact (layoutAll_mapAll ss).bind fun is => commutes_pure _

end

/-- **A module that was moved is laid out as it was, at the other places.** -/
theorem layoutModule_map (ss : List (Stmt ρ)) :
    Commutes f id (layoutModule ss) (layoutModule (mapAll f ss)) :=
  (layoutAll_mapAll f ss).bind fun is => commutes_addStmts is

end Stmt

end PlatformGate
