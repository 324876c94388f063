/-
# What an arena is worth

Laying out a tree keeps each of its nodes once, so at any prices an arena is worth exactly what the
trees cost that were laid out in it (`Stmt.layoutModule_costs`); where the trees are placed does not
matter.  The list storages hold no more than there are nodes, for a node stands in one list at most
(`Arena.Forest.capacity_le`).
-/
import PlatformGate.Proofs.Arena.Planting
import PlatformGate.Proofs.Cost.Tariff

namespace PlatformGate

variable {ρ σ α β : Type} {t : Tariff}

/-! ## 1. Trees at other places -/

section Moved

variable (f : ρ → σ)

namespace Expr

mutual

theorem cost_map : ∀ e : Expr ρ, (map f e).cost t = e.cost t
  | int .. | bool .. | ident .. | discard .. | error .. => rfl
  | paren e _ | unary _ e _ => by simp only [map, cost, cost_map e]
  | tuple es _ => by simp only [map, cost, costAll_mapAll es]
  | call e es _ => by simp only [map, cost, cost_map e, costAll_mapAll es]
  | binary _ l r _ | assign l r _ => by simp only [map, cost, cost_map l, cost_map r]
  | ternary c l r _ => by simp only [map, cost, cost_map c, cost_map l, cost_map r]

theorem costAll_mapAll : ∀ es : List (Expr ρ), costAll t (mapAll f es) = costAll t es
  | [] => rfl
  | e :: es => by simp only [mapAll, costAll, cost_map e, costAll_mapAll es]

end

theorem costOption_map (e? : Option (Expr ρ)) :
    costOption t (e?.map (map f)) = costOption t e? := by
  cases e? with
  | none => rfl
  | some e => exact cost_map f e

end Expr

namespace Clause

theorem cost_map (c : Clause ρ) : (map f c).cost t = c.cost t := by
  cases c with
  | expr e p => simp only [map, cost, Expr.cost_map]
  | binding m b init p => simp only [map, cost, Expr.costOption_map]
  | matching e init p => simp only [map, cost, Expr.cost_map]
  | availability q => rfl

theorem costAll_map (cs : List (Clause ρ)) : costAll t (cs.map (map f)) = costAll t cs := by
  induction cs with
  | nil => rfl
  | cons c cs ih => simp only [List.map_cons, costAll, cost_map, ih]

end Clause

namespace Stmt

mutual

theorem cost_map : ∀ s : Stmt ρ, (map f s).cost t = s.cost t
  | expr e _ => by simp only [map, cost, Expr.cost_map]
  | declaration _ _ init _ | returnStmt init _ => by simp only [map, cost, Expr.costOption_map]
  | ifStmt cs b a _ => by
    simp only [map, cost, Clause.costAll_map, costOfBody_map b, costOfAlternative_map a]
  | guardStmt cs b _ | whileStmt cs b _ => by
    simp only [map, cost, Clause.costAll_map, costOfBody_map b]

theorem costOfBody_map : ∀ b : Body ρ, costOfBody t (mapBody f b) = costOfBody t b
  | .missing => rfl
  | .block ss _ => costAll_mapAll ss

theorem costOfAlternative_map : ∀ a : Alternative ρ,
    costOfAlternative t (mapAlternative f a) = costOfAlternative t a
  | .body b => costOfBody_map b
  | .elseIf s => cost_map s

theorem costAll_mapAll : ∀ ss : List (Stmt ρ), costAll t (mapAll f ss) = costAll t ss
  | [] => rfl
  | s :: ss => by simp only [mapAll, costAll, cost_map s, costAll_mapAll ss]

end

end Stmt

end Moved

/-! ## 2. Laying out -/

namespace Arena

/-- The price of all nodes of an arena. -/
def worth (t : Tariff) (a : Arena ρ) : Nat :=
  t.expr * a.exprs.size + t.stmt * a.stmts.size + t.clause * a.clauses.size

theorem worth_empty : worth t ({} : Arena ρ) = 0 := rfl

/-- The action makes the arena dearer by `cost`. -/
def Costs (t : Tariff) (m : StateM (Arena ρ) α) (cost : Nat) : Prop :=
  ∀ a : Arena ρ, (m.run a).2.worth t = a.worth t + cost

variable {m : StateM (Arena ρ) α} {cost cost' : Nat}

theorem costs_pure {x : α} : Costs t (pure x : StateM (Arena ρ) α) 0 := fun _ => rfl

theorem Costs.bind {f : α → StateM (Arena ρ) β} (h : Costs t m cost)
    (hf : ∀ x, Costs t (f x) cost') : Costs t (m >>= f) (cost + cost') := by
  intro a
  have hrest := hf (m.run a).1 (m.run a).2
  rw [h a, Nat.add_assoc] at hrest
  exact hrest

/-- Behind the action stands one that keeps no node. -/
theorem Costs.then {f : α → StateM (Arena ρ) β} (h : Costs t m cost)
    (hf : ∀ x, Costs t (f x) 0) : Costs t (m >>= f) cost := h.bind hf

theorem costs_addExpr {node : ExprNode ρ} : Costs t (addExpr node) t.expr := by
  intro a
  change t.expr * (a.exprs.nodes.push node).size + t.stmt * a.stmts.size +
    t.clause * a.clauses.size = _
  rw [Array.size_push, Nat.mul_succ]
  unfold worth Store.size
  omega

theorem costs_addStmt {node : StmtNode ρ} : Costs t (addStmt node) t.stmt := by
  intro a
  change t.expr * a.exprs.size + t.stmt * (a.stmts.nodes.push node).size +
    t.clause * a.clauses.size = _
  rw [Array.size_push, Nat.mul_succ]
  unfold worth Store.size
  omega

theorem costs_addClause {node : ClauseNode ρ} : Costs t (addClause node) t.clause := by
  intro a
  change t.expr * a.exprs.size + t.stmt * a.stmts.size +
    t.clause * (a.clauses.nodes.push node).size = _
  rw [Array.size_push, Nat.mul_succ]
  unfold worth Store.size
  omega

theorem costs_addExprs {ids : List (Id .expr)} : Costs t (addExprs (ρ := ρ) ids) 0 := fun _ => rfl

theorem costs_addStmts {ids : List (Id .stmt)} : Costs t (addStmts (ρ := ρ) ids) 0 := fun _ => rfl

theorem costs_addClauses {ids : List (Id .clause)} : Costs t (addClauses (ρ := ρ) ids) 0 :=
  fun _ => rfl

end Arena

open Arena

namespace Expr

mutual

theorem layout_costs : ∀ e : Expr ρ, Costs t (layout e) (e.cost t)
  | int .. | bool .. | ident .. | discard .. | error .. => by
    simp only [layout, cost]
    exact costs_addExpr
  | paren e _ | unary _ e _ => by
    simp only [layout, cost]
    exact (layout_costs e).bind fun i => costs_addExpr
  | tuple [] _ => by
    simp only [layout, cost, costAll, Nat.zero_add]
    exact costs_addExpr
  | tuple (e :: es) _ => by
    simp only [layout, cost, costAll, Nat.add_assoc]
    refine (layout_costs e).bind fun i => ?_
    refine (layoutAll_costs es).bind fun is => ?_
    rw [← Nat.zero_add t.expr]
    exact costs_addExprs.bind fun r => costs_addExpr
  | call c es _ => by
    simp only [layout, cost, Nat.add_assoc]
    refine (layout_costs c).bind fun callee => ?_
    refine (layoutAll_costs es).bind fun is => ?_
    rw [← Nat.zero_add t.expr]
    exact costs_addExprs.bind fun r => costs_addExpr
  | binary _ l r _ | assign l r _ => by
    simp only [layout, cost, Nat.add_assoc]
    refine (layout_costs l).bind fun left => ?_
    exact (layout_costs r).bind fun right => costs_addExpr
  | ternary c l r _ => by
    simp only [layout, cost, Nat.add_assoc]
    refine (layout_costs c).bind fun cond => ?_
    refine (layout_costs l).bind fun whenTrue => ?_
    exact (layout_costs r).bind fun whenFalse => costs_addExpr

theorem layoutAll_costs : ∀ es : List (Expr ρ), Costs t (layoutAll es) (costAll t es)
  | [] => by
    simp only [layoutAll]
    exact costs_pure
  | e :: es => by
    simp only [layoutAll, costAll]
    refine (layout_costs e).bind fun i => ?_
    exact (layoutAll_costs es).then fun is => costs_pure

end

theorem layout?_costs (e? : Option (Expr ρ)) : Costs t (layout? e?) (costOption t e?) := by
  cases e? with
  | none => exact costs_pure
  | some e => exact (layout_costs e).then fun i => costs_pure

end Expr

namespace Clause

theorem layout_costs (c : Clause ρ) : Costs t (layout c) (c.cost t) := by
  cases c with
  | expr e p => exact e.layout_costs.bind fun i => costs_addClause
  | binding m b init p => exact (Expr.layout?_costs init).bind fun i => costs_addClause
  | matching e init p =>
    simp only [layout, cost, Nat.add_assoc]
    refine e.layout_costs.bind fun pattern => ?_
    exact init.layout_costs.bind fun i => costs_addClause
  | availability q => exact costs_addClause

theorem layoutAll_costs (cs : List (Clause ρ)) : Costs t (layoutAll cs) (costAll t cs) := by
  induction cs with
  | nil => exact costs_pure
  | cons c cs ih =>
    refine (layout_costs c).bind fun i => ?_
    exact ih.then fun is => costs_pure

theorem layoutHeader_costs (cs : List (Clause ρ)) : Costs t (layoutHeader cs) (costAll t cs) :=
  (layoutAll_costs cs).then fun _ => costs_addClauses

end Clause

namespace Stmt

mutual

/-- **Each node of a statement is kept once.** -/
theorem layout_costs : ∀ s : Stmt ρ, Costs t (layout s) (s.cost t)
  | expr e _ => by
    simp only [layout, cost]
    exact e.layout_costs.bind fun i => costs_addStmt
  | declaration _ _ init _ | returnStmt init _ => by
    simp only [layout, cost]
    exact (Expr.layout?_costs init).bind fun i => costs_addStmt
  | ifStmt cs b a _ => by
    simp only [layout, cost, Nat.add_assoc]
    refine (Clause.layoutHeader_costs cs).bind fun conditions => ?_
    refine (layoutBody_costs b).bind fun body => ?_
    exact (layoutAlternative_costs a).bind fun alternative => costs_addStmt
  | guardStmt cs b _ | whileStmt cs b _ => by
    simp only [layout, cost, Nat.add_assoc]
    refine (Clause.layoutHeader_costs cs).bind fun conditions => ?_
    exact (layoutBody_costs b).bind fun body => costs_addStmt

theorem layoutBody_costs : ∀ b : Body ρ, Costs t (layoutBody b) (costOfBody t b)
  | .missing => by
    simp only [layoutBody]
    exact costs_pure
  | .block ss _ => by
    simp only [layoutBody, costOfBody]
    refine (layoutAll_costs ss).then fun is => ?_
    exact costs_addStmts.then fun r => costs_pure

theorem layoutAlternative_costs : ∀ a : Alternative ρ,
    Costs t (layoutAlternative a) (costOfAlternative t a)
  | .body b => by
    simp only [layoutAlternative, costOfAlternative]
    exact (layoutBody_costs b).then fun block => costs_pure
  | .elseIf s => by
    simp only [layoutAlternative, costOfAlternative]
    exact (layout_costs s).then fun i => costs_pure

theorem layoutAll_costs : ∀ ss : List (Stmt ρ), Costs t (layoutAll ss) (costAll t ss)
  | [] => by
    simp only [layoutAll]
    exact costs_pure
  | s :: ss => by
    simp only [layoutAll, costAll]
    refine (layout_costs s).bind fun i => ?_
    exact (layoutAll_costs ss).then fun is => costs_pure

end

/-- **An arena is worth what the module costs** that was laid out in it. -/
theorem layoutModule_costs (ss : List (Stmt ρ)) :
    ((layoutModule ss).run {}).2.worth t = costAll t ss := by
  have hmodule : Costs t (layoutModule ss) (costAll t ss) :=
    (layoutAll_costs ss).then fun _ => costs_addStmts
  have hworth := hmodule {}
  rw [worth_empty, Nat.zero_add] at hworth
  exact hworth

end Stmt

/-! ## 3. List storages -/

namespace Arena

/-- A storage holds no more ids than there are indexes below `n` if no id stands in it twice. -/
theorem lists_size_le {s : NodeSort} {st : Store s α} {n : Nat}
    (hnodup : (st.lists.toList.map Id.ref).Nodup)
    (hlt : ∀ x ∈ st.lists.toList.map Id.ref, x.index < n) : st.lists.size ≤ n := by
  have hsub : st.lists.toList.map Id.ref ⊆ (List.range n).map fun k => (⟨s, k⟩ : Ref) := by
    intro x hx
    have hindex := hlt x hx
    obtain ⟨i, -, rfl⟩ := List.mem_map.mp hx
    exact List.mem_map_of_mem (List.mem_range.mpr hindex)
  have hle := hnodup.length_le_of_subset hsub
  rw [List.length_map, List.length_map, List.length_range, Array.length_toList] at hle
  exact hle

/-- **In a forest no list storage holds more ids than there are nodes.** -/
theorem Forest.capacity_le {a : Arena ρ} {roots : List Part} (h : a.Forest roots) (s : NodeSort) :
    a.capacity s ≤ a.count s := by
  have hcount : ∀ x : Ref, a.listed.count x ≤ if x.index < a.count x.sort then 1 else 0 := by
    intro x
    rw [← h.once x, List.count_append]
    exact Nat.le_add_left _ _
  have hnodup : a.listed.Nodup := by
    refine List.nodup_iff_count.mpr fun x => ?_
    have hle := hcount x
    split at hle <;> omega
  have hlt : ∀ x ∈ a.listed, x.index < a.count x.sort := by
    intro x hx
    have hle := hcount x
    have hpos := List.count_pos_iff.mpr hx
    split at hle
    · assumption
    · omega
  have hmem : ∀ {s : NodeSort} {is : List (Id s)}, is.map Id.ref <:+: a.listed →
      ∀ x ∈ is.map Id.ref, x.index < a.count s := by
    intro s is his x hx
    have hindex := hlt x (his.subset hx)
    obtain ⟨i, -, rfl⟩ := List.mem_map.mp hx
    exact hindex
  unfold listed at hnodup
  cases s
  · have hpart := (List.nodup_append.mp hnodup).1
    refine lists_size_le hpart (hmem ?_)
    exact (List.prefix_append _ _).isInfix
  · have hpart := (List.nodup_append.mp (List.nodup_append.mp hnodup).2.1).1
    refine lists_size_le hpart (hmem ?_)
    exact List.infix_append' _ _ _
  · have hpart := (List.nodup_append.mp (List.nodup_append.mp hnodup).2.1).2.1
    refine lists_size_le hpart (hmem ?_)
    exact ((List.suffix_append _ _).trans (List.suffix_append _ _)).isInfix

end Arena

end PlatformGate
