/-
# The expressions of an arena are those of its trees

Every part of an expression gets a node of its own, the parts of a node before the node.  So what an
action adds to the expressions of an arena can be listed as trees, one for each new id in order, and
the arena holds each of them under that id (`Stmt.layoutModule_enrolls`).  What is proved of every
expression inside the statements that were read is thereby proved of every expression node of an
outcome, and there are no others (`Outcome.exists_held_ofSource`).
-/
import PlatformGate.Proofs.Arena.Holds

namespace PlatformGate

variable {ρ σ α β : Type}

/-! ## 1. The expressions inside a tree -/

namespace Expr

mutual

/-- The expression and all expressions inside it, each behind its parts. -/
def subexprs : Expr ρ → List (Expr ρ)
  | paren e p => subexprs e ++ [paren e p]
  | tuple es p => subexprsAll es ++ [tuple es p]
  | call c es p => subexprs c ++ subexprsAll es ++ [call c es p]
  | unary o e p => subexprs e ++ [unary o e p]
  | binary o l r p => subexprs l ++ subexprs r ++ [binary o l r p]
  | ternary c t e p => subexprs c ++ subexprs t ++ subexprs e ++ [ternary c t e p]
  | assign t v p => subexprs t ++ subexprs v ++ [assign t v p]
  | e => [e]

/-- `subexprs` of each expression of a list. -/
def subexprsAll : List (Expr ρ) → List (Expr ρ)
  | [] => []
  | e :: es => subexprs e ++ subexprsAll es

end

/-- `subexprs` of an expression that may be left out. -/
def subexprs? (e? : Option (Expr ρ)) : List (Expr ρ) := e?.elim [] subexprs

theorem subexprsAll_eq_flatMap (es : List (Expr ρ)) : subexprsAll es = es.flatMap subexprs := by
  induction es with
  | nil => rfl
  | cons e es ih => rw [subexprsAll, ih, List.flatMap_cons]

end Expr

/-- All expressions inside a clause. -/
def Clause.subexprs : Clause ρ → List (Expr ρ)
  | expr e _ => e.subexprs
  | binding _ _ init _ => Expr.subexprs? init
  | matching e init _ => e.subexprs ++ init.subexprs
  | availability _ => []

namespace Stmt

mutual

/-- All expressions inside a statement. -/
def subexprs : Stmt ρ → List (Expr ρ)
  | expr e _ => e.subexprs
  | declaration _ _ e? _ | returnStmt e? _ => Expr.subexprs? e?
  | ifStmt cs b a _ => cs.flatMap Clause.subexprs ++ (subexprsOfBody b ++ subexprsOfAlternative a)
  | guardStmt cs b _ | whileStmt cs b _ => cs.flatMap Clause.subexprs ++ subexprsOfBody b

/-- `subexprs` of a body. -/
def subexprsOfBody : Body ρ → List (Expr ρ)
  | .missing => []
  | .block ss _ => subexprsAll ss

/-- `subexprs` of what follows `else`. -/
def subexprsOfAlternative : Alternative ρ → List (Expr ρ)
  | .body b => subexprsOfBody b
  | .elseIf s => subexprs s

/-- `subexprs` of each statement of a list. -/
def subexprsAll : List (Stmt ρ) → List (Expr ρ)
  | [] => []
  | s :: ss => subexprs s ++ subexprsAll ss

end

theorem subexprsAll_eq_flatMap (ss : List (Stmt ρ)) : subexprsAll ss = ss.flatMap subexprs := by
  induction ss with
  | nil => rfl
  | cons s ss ih => rw [subexprsAll, ih, List.flatMap_cons]

end Stmt

/-! ## 2. Moved trees -/

section Moved

variable (f : ρ → σ)

namespace Expr

mutual

theorem subexprs_map : ∀ e : Expr ρ, (map f e).subexprs = e.subexprs.map (map f)
  | int .. | bool .. | ident .. | discard .. | error .. => by
    simp only [map, subexprs, List.map_cons, List.map_nil]
  | paren e _ | unary _ e _ => by
    simp only [map, subexprs, List.map_append, List.map_cons, List.map_nil, subexprs_map e]
  | tuple es _ => by
    simp only [map, subexprs, List.map_append, List.map_cons, List.map_nil, subexprsAll_map es]
  | call c es _ => by
    simp only [map, subexprs, List.map_append, List.map_cons, List.map_nil, subexprs_map c,
      subexprsAll_map es]
  | binary _ l r _ | assign l r _ => by
    simp only [map, subexprs, List.map_append, List.map_cons, List.map_nil, subexprs_map l,
      subexprs_map r]
  | ternary c t e _ => by
    simp only [map, subexprs, List.map_append, List.map_cons, List.map_nil, subexprs_map c,
      subexprs_map t, subexprs_map e]

theorem subexprsAll_map : ∀ es : List (Expr ρ),
    subexprsAll (mapAll f es) = (subexprsAll es).map (map f)
  | [] => rfl
  | e :: es => by
    simp only [mapAll, subexprsAll, List.map_append, subexprs_map e, subexprsAll_map es]

end

theorem subexprs?_map (e? : Option (Expr ρ)) :
    subexprs? (e?.map (map f)) = (subexprs? e?).map (map f) := by
  cases e? with
  | none => rfl
  | some e => exact subexprs_map f e

end Expr

theorem Clause.subexprs_map (c : Clause ρ) : (c.map f).subexprs = c.subexprs.map (Expr.map f) := by
  cases c with
  | expr e p => exact e.subexprs_map f
  | binding m b init p => exact Expr.subexprs?_map f init
  | matching e init p =>
    simp only [map, subexprs, List.map_append, e.subexprs_map f, init.subexprs_map f]
  | availability q => rfl

theorem Clause.flatMap_subexprs_map (cs : List (Clause ρ)) :
    (cs.map (map f)).flatMap subexprs = (cs.flatMap subexprs).map (Expr.map f) := by
  rw [List.flatMap_map, List.map_flatMap]
  exact congrArg (fun g => List.flatMap g cs) (funext (subexprs_map f))

namespace Stmt

mutual

theorem subexprs_map : ∀ s : Stmt ρ, (map f s).subexprs = s.subexprs.map (Expr.map f)
  | expr e _ => e.subexprs_map f
  | declaration _ _ e? _ | returnStmt e? _ => Expr.subexprs?_map f e?
  | ifStmt cs b a _ => by
    simp only [map, subexprs, List.map_append, Clause.flatMap_subexprs_map, subexprsOfBody_map b,
      subexprsOfAlternative_map a]
  | guardStmt cs b _ | whileStmt cs b _ => by
    simp only [map, subexprs, List.map_append, Clause.flatMap_subexprs_map, subexprsOfBody_map b]

theorem subexprsOfBody_map : ∀ b : Body ρ,
    subexprsOfBody (mapBody f b) = (subexprsOfBody b).map (Expr.map f)
  | .missing => rfl
  | .block ss _ => subexprsAll_map ss

theorem subexprsOfAlternative_map : ∀ a : Alternative ρ,
    subexprsOfAlternative (mapAlternative f a) = (subexprsOfAlternative a).map (Expr.map f)
  | .body b => subexprsOfBody_map b
  | .elseIf s => subexprs_map s

theorem subexprsAll_map : ∀ ss : List (Stmt ρ),
    subexprsAll (mapAll f ss) = (subexprsAll ss).map (Expr.map f)
  | [] => rfl
  | s :: ss => by
    simp only [mapAll, subexprsAll, List.map_append, subexprs_map s, subexprsAll_map ss]

end

end Stmt

end Moved

/-! ## 3. Enrolling -/

namespace Arena

/-- From `n` on, the arena holds the expressions under one id after the other. -/
def HoldsFrom (a : Arena ρ) (n : Nat) (es : List (Expr ρ)) : Prop :=
  ∀ (k : Nat) (e : Expr ρ), es[k]? = some e → e.Held a ⟨n + k⟩

theorem HoldsFrom.grow {a a' : Arena ρ} {n : Nat} {es : List (Expr ρ)} (h : a.HoldsFrom n es)
    (hgrows : a.Grows a') : a'.HoldsFrom n es :=
  fun k e he => (h k e he).grow hgrows

theorem HoldsFrom.append {a : Arena ρ} {n : Nat} {es es' : List (Expr ρ)} (h : a.HoldsFrom n es)
    (h' : a.HoldsFrom (n + es.length) es') : a.HoldsFrom n (es ++ es') := by
  intro k e he
  by_cases hk : k < es.length
  · rw [List.getElem?_append_left hk] at he
    exact h k e he
  · rw [List.getElem?_append_right (Nat.le_of_not_lt hk)] at he
    have hheld := h' _ e he
    rwa [Nat.add_assoc, Nat.add_sub_cancel' (Nat.le_of_not_lt hk)] at hheld

theorem HoldsFrom.singleton {a : Arena ρ} {n : Nat} {e : Expr ρ} (h : e.Held a ⟨n⟩) :
    a.HoldsFrom n [e] := by
  intro k e' he
  obtain ⟨rfl, rfl⟩ : k = 0 ∧ e' = e := by
    cases k with
    | zero => exact ⟨rfl, (Option.some.inj he).symm⟩
    | succ k => cases he
  exact h

/-- The second arena has one expression node more for each of the expressions, in that order. -/
structure EnrollsAt (a a' : Arena ρ) (es : List (Expr ρ)) : Prop where
  grows : a.Grows a'
  size : a'.exprs.size = a.exprs.size + es.length
  held : a'.HoldsFrom a.exprs.size es

/-- Whatever arena it starts from, the action adds one expression node for each of the expressions,
in that order. -/
def Enrolls (m : StateM (Arena ρ) α) (es : List (Expr ρ)) : Prop :=
  ∀ a, EnrollsAt a (m.run a).2 es

/-- The action adds one expression node for each of the expressions and then one more, whose id it
gives. -/
def Heads (m : StateM (Arena ρ) (Id .expr)) (es : List (Expr ρ)) : Prop :=
  ∀ a, a.Grows (m.run a).2 ∧ (m.run a).2.exprs.size = a.exprs.size + es.length + 1 ∧
    (m.run a).1 = ⟨a.exprs.size + es.length⟩ ∧ (m.run a).2.HoldsFrom a.exprs.size es

variable {m : StateM (Arena ρ) α} {es es' : List (Expr ρ)}

theorem EnrollsAt.append {a a' a'' : Arena ρ} (h : EnrollsAt a a' es) (h' : EnrollsAt a' a'' es') :
    EnrollsAt a a'' (es ++ es') where
  grows := h.grows.trans h'.grows
  size := by rw [h'.size, h.size, List.length_append, Nat.add_assoc]
  held := by
    refine (h.held.grow h'.grows).append ?_
    rw [← h.size]
    exact h'.held

theorem EnrollsAt.of_size_eq {a a' : Arena ρ} (hgrows : a.Grows a')
    (hsize : a'.exprs.size = a.exprs.size) : EnrollsAt a a' [] :=
  ⟨hgrows, hsize, fun _ _ he => by cases he⟩

theorem enrolls_pure {x : α} : Enrolls (pure x : StateM (Arena ρ) α) [] :=
  fun a => .of_size_eq (.refl a) rfl

theorem Enrolls.bind {f : α → StateM (Arena ρ) β} (h : Enrolls m es)
    (hf : ∀ x, Enrolls (f x) es') : Enrolls (m >>= f) (es ++ es') :=
  fun a => (h a).append (hf (m.run a).1 (m.run a).2)

/-- An action without an expression behind another. -/
theorem Enrolls.then {f : α → StateM (Arena ρ) β} (h : Enrolls m es)
    (hf : ∀ x, Enrolls (f x) []) : Enrolls (m >>= f) es := by
  have hall := h.bind hf
  rwa [List.append_nil] at hall

theorem enrolls_addExprs {ids : List (Id .expr)} : Enrolls (addExprs (ρ := ρ) ids) [] :=
  fun a => .of_size_eq (keeps_addExprs ids a).1 rfl

theorem enrolls_addStmt {node : StmtNode ρ} : Enrolls (addStmt node) [] :=
  fun a => .of_size_eq (keeps_addStmt node a).1 rfl

theorem enrolls_addStmts {ids : List (Id .stmt)} : Enrolls (addStmts (ρ := ρ) ids) [] :=
  fun a => .of_size_eq (keeps_addStmts ids a).1 rfl

theorem enrolls_addClause {node : ClauseNode ρ} : Enrolls (addClause node) [] :=
  fun a => .of_size_eq (keeps_addClause node a).1 rfl

theorem enrolls_addClauses {ids : List (Id .clause)} : Enrolls (addClauses (ρ := ρ) ids) [] :=
  fun a => .of_size_eq (keeps_addClauses ids a).1 rfl

theorem heads_addExpr {node : ExprNode ρ} : Heads (addExpr node) [] :=
  fun a => ⟨(keeps_addExpr node a).1, Array.size_push .., rfl, fun _ _ he => by cases he⟩

theorem Enrolls.heads {f : α → StateM (Arena ρ) (Id .expr)} (h : Enrolls m es)
    (hf : ∀ x, Heads (f x) es') : Heads (m >>= f) (es ++ es') := by
  intro a
  obtain ⟨hgrows, hsize, hid, hheld⟩ := hf (m.run a).1 (m.run a).2
  have hbefore := h a
  have hlength : a.exprs.size + (es ++ es').length = (m.run a).2.exprs.size + es'.length := by
    rw [hbefore.size, List.length_append, Nat.add_assoc]
  refine ⟨hbefore.grows.trans hgrows, ?_, ?_, ?_⟩
  · rw [hlength]
    exact hsize
  · rw [hlength]
    exact hid
  · refine (hbefore.held.grow hgrows).append ?_
    rw [← hbefore.size]
    exact hheld

/-- An action that ends with a node, and holds a tree under it, has enrolled that tree. -/
theorem Heads.enrolls {m : StateM (Arena ρ) (Id .expr)} {e : Expr ρ} (h : Heads m es)
    (hroot : Keeps m fun a i => e.Held a i) : Enrolls m (es ++ [e]) := by
  intro a
  obtain ⟨hgrows, hsize, hid, hheld⟩ := h a
  have hlast := (hroot a).2
  rw [hid] at hlast
  exact ⟨hgrows, by rw [hsize, List.length_append]; rfl, hheld.append (.singleton hlast)⟩

/-- A node without parts enrolls the expression that it is. -/
theorem Heads.enrolls_leaf {m : StateM (Arena ρ) (Id .expr)} {e : Expr ρ} (h : Heads m [])
    (hroot : Keeps m fun a i => e.Held a i) : Enrolls m [e] := h.enrolls hroot

end Arena

open Arena

/-! ## 4. What a layout enrolls -/

namespace Expr

mutual

/-- **An expression is laid out as itself and all expressions inside it.** -/
theorem layout_enrolls : ∀ e : Expr ρ, Enrolls (layout e) e.subexprs
  | int v p | bool v p | ident v p => Heads.enrolls_leaf heads_addExpr (layout_holds _)
  | discard p | error p => Heads.enrolls_leaf heads_addExpr (layout_holds _)
  | paren e p | unary _ e p => by
    refine Heads.enrolls ?_ (layout_holds _)
    rw [layout, ← List.append_nil (subexprs e)]
    exact (layout_enrolls e).heads fun i => heads_addExpr
  | tuple [] p => Heads.enrolls_leaf heads_addExpr (layout_holds _)
  | tuple (e :: es) p => by
    refine Heads.enrolls ?_ (layout_holds _)
    rw [layout, subexprsAll, ← List.append_nil (subexprsAll es)]
    refine (layout_enrolls e).heads fun i => ?_
    refine (layoutAll_enrolls es).heads fun is => ?_
    exact enrolls_addExprs.heads fun r => heads_addExpr
  | call c es p => by
    refine Heads.enrolls ?_ (layout_holds _)
    rw [layout, ← List.append_nil (subexprsAll es)]
    refine (layout_enrolls c).heads fun callee => ?_
    refine (layoutAll_enrolls es).heads fun is => ?_
    exact enrolls_addExprs.heads fun r => heads_addExpr
  | binary _ l r p | assign l r p => by
    refine Heads.enrolls ?_ (layout_holds _)
    rw [layout, ← List.append_nil (subexprs r)]
    refine (layout_enrolls l).heads fun left => ?_
    exact (layout_enrolls r).heads fun right => heads_addExpr
  | ternary c t e p => by
    refine Heads.enrolls ?_ (layout_holds _)
    rw [layout, List.append_assoc, ← List.append_nil (subexprs e)]
    refine (layout_enrolls c).heads fun cond => ?_
    refine (layout_enrolls t).heads fun whenTrue => ?_
    exact (layout_enrolls e).heads fun whenFalse => heads_addExpr

theorem layoutAll_enrolls : ∀ es : List (Expr ρ), Enrolls (layoutAll es) (subexprsAll es)
  | [] => by
    rw [layoutAll]
    exact enrolls_pure
  | e :: es => by
    rw [layoutAll]
    refine (layout_enrolls e).bind fun i => ?_
    exact (layoutAll_enrolls es).then fun is => enrolls_pure

end

theorem layout?_enrolls (e? : Option (Expr ρ)) : Enrolls (layout? e?) (subexprs? e?) := by
  cases e? with
  | none => exact enrolls_pure
  | some e => exact (layout_enrolls e).then fun i => enrolls_pure

end Expr

namespace Clause

theorem layout_enrolls (c : Clause ρ) : Enrolls (layout c) c.subexprs := by
  cases c with
  | expr e p => exact e.layout_enrolls.then fun i => enrolls_addClause
  | binding m b init p => exact (Expr.layout?_enrolls init).then fun i => enrolls_addClause
  | matching e init p =>
    refine e.layout_enrolls.bind fun pattern => ?_
    exact init.layout_enrolls.then fun i => enrolls_addClause
  | availability q => exact enrolls_addClause

theorem layoutAll_enrolls (cs : List (Clause ρ)) :
    Enrolls (layoutAll cs) (cs.flatMap subexprs) := by
  induction cs with
  | nil => exact enrolls_pure
  | cons c cs ih =>
    rw [List.flatMap_cons]
    refine (layout_enrolls c).bind fun i => ?_
    exact ih.then fun is => enrolls_pure

theorem layoutHeader_enrolls (cs : List (Clause ρ)) :
    Enrolls (layoutHeader cs) (cs.flatMap subexprs) :=
  (layoutAll_enrolls cs).then fun _ => enrolls_addClauses

end Clause

namespace Stmt

mutual

theorem layout_enrolls : ∀ s : Stmt ρ, Enrolls (layout s) s.subexprs
  | expr e _ => by
    rw [layout]
    exact e.layout_enrolls.then fun i => enrolls_addStmt
  | declaration _ _ e? _ | returnStmt e? _ => by
    rw [layout]
    exact (Expr.layout?_enrolls e?).then fun i => enrolls_addStmt
  | ifStmt cs b a _ => by
    rw [layout]
    refine (Clause.layoutHeader_enrolls cs).bind fun conditions => ?_
    refine (layoutBody_enrolls b).bind fun body => ?_
    exact (layoutAlternative_enrolls a).then fun alternative => enrolls_addStmt
  | guardStmt cs b _ | whileStmt cs b _ => by
    rw [layout]
    refine (Clause.layoutHeader_enrolls cs).bind fun conditions => ?_
    exact (layoutBody_enrolls b).then fun body => enrolls_addStmt

theorem layoutBody_enrolls : ∀ b : Body ρ, Enrolls (layoutBody b) (subexprsOfBody b)
  | .missing => by
    rw [layoutBody]
    exact enrolls_pure
  | .block ss _ => by
    rw [layoutBody]
    refine (layoutAll_enrolls ss).then fun is => ?_
    exact enrolls_addStmts.then fun r => enrolls_pure

theorem layoutAlternative_enrolls : ∀ a : Alternative ρ,
    Enrolls (layoutAlternative a) (subexprsOfAlternative a)
  | .body b => by
    rw [layoutAlternative]
    exact (layoutBody_enrolls b).then fun block => enrolls_pure
  | .elseIf s => by
    rw [layoutAlternative]
    exact (layout_enrolls s).then fun i => enrolls_pure

theorem layoutAll_enrolls : ∀ ss : List (Stmt ρ), Enrolls (layoutAll ss) (subexprsAll ss)
  | [] => by
    rw [layoutAll]
    exact enrolls_pure
  | s :: ss => by
    rw [layoutAll]
    refine (layout_enrolls s).bind fun i => ?_
    exact (layoutAll_enrolls ss).then fun is => enrolls_pure

end

/-- **A module is laid out as the expressions inside its statements,** one node for each. -/
theorem layoutModule_enrolls (ss : List (Stmt ρ)) : Enrolls (layoutModule ss) (subexprsAll ss) :=
  (layoutAll_enrolls ss).then fun _ => enrolls_addStmts

end Stmt

/-! ## 5. Outcomes -/

namespace Outcome

/-- The expression nodes of an outcome, one for each expression inside the statements that were
read. -/
theorem enrolls_ofSource (source : String) (limit : Nat) :
    EnrollsAt {} (ofSource source limit).arena
      ((Stmt.subexprsAll (Parser.topLevel
        (Input.start (Terminal.ofTokens (Token.ofSource source)))).value).map
          (Expr.map (Session.start (Token.ofSource source) source limit).locate)) := by
  rw [← Stmt.subexprsAll_map]
  exact Stmt.layoutModule_enrolls _ {}

/-- **Every expression node of an outcome holds an expression that was read,** moved to its place in
the source. -/
theorem exists_held_ofSource (source : String) (limit : Nat) {i : Id .expr} {node : ExprNode Span}
    (h : (ofSource source limit).arena.exprs.get? i = some node) :
    ∃ e ∈ Stmt.subexprsAll (Parser.topLevel
        (Input.start (Terminal.ofTokens (Token.ofSource source)))).value,
      (e.map (Session.start (Token.ofSource source) source limit).locate).Held
        (ofSource source limit).arena i := by
  have hall := enrolls_ofSource source limit
  have hi : i.index < (ofSource source limit).arena.exprs.size :=
    (Array.getElem?_eq_some_iff.mp h).1
  rw [hall.size] at hi
  change i.index < 0 + _ at hi
  rw [Nat.zero_add] at hi
  obtain ⟨e, he, hmap⟩ := List.mem_map.mp (List.getElem_mem hi)
  refine ⟨e, he, ?_⟩
  have hheld := hall.held i.index _ (List.getElem?_eq_getElem hi)
  rw [← hmap] at hheld
  change Expr.Held _ _ ⟨0 + i.index⟩ at hheld
  rwa [Nat.zero_add] at hheld

end Outcome

end PlatformGate
