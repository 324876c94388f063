/-
# Grouping in the arena

In the arena of an outcome an operator has under it only what binds as tightly as it has to, so that
the tree of an expression is the one that precedence and grouping to the left ask for
(`Outcome.grouped_ofSource`).  This holds of every node, also of those that were read from a
malformed source: a placeholder binds like any other value.

Going down from a node through parts without brackets, forms never get looser (`lifted`).  So what
binds looser than an operator above it stands in a node with brackets of its own.
-/
import Mathlib.Logic.Relation
import PlatformGate.Proofs.Grouping.Trees

namespace PlatformGate

variable {ρ : Type}

/-! ## 1. Forms -/

namespace ExprForm

/-- The operator of a binary form. -/
def operator? : ExprForm → Option BinaryOperator
  | binary o _ _ => some o
  | _ => none

def isUnary : ExprForm → Bool
  | unary .. => true
  | _ => false

def isTernary : ExprForm → Bool
  | ternary .. => true
  | _ => false

def isAssign : ExprForm → Bool
  | assign .. => true
  | _ => false

/-- How tightly the form binds. -/
def level : ExprForm → Nat
  | assign .. => 0
  | ternary .. => 1
  | binary o .. => 1 + o.power
  | unary .. => 7
  | _ => 8

/-- The parts that stand in a node of this form without brackets around them. -/
def bare : ExprForm → List (Id .expr)
  | unary _ i => [i]
  | call i _ => [i]
  | binary _ i j | assign i j => [i, j]
  | ternary i j k => [i, j, k]
  | _ => []

/-- What binds more tightly than an assignment is none. -/
theorem isAssign_eq_false (f : ExprForm) (h : 1 ≤ f.level) : f.isAssign = false := by
  cases f <;> simp_all [level, isAssign]

/-- What binds more tightly than a ternary is neither a ternary nor an assignment. -/
theorem isTernary_eq_false (f : ExprForm) (h : 2 ≤ f.level) : f.isTernary = false := by
  cases f <;> simp_all [level, isTernary]

/-- What binds more tightly than all binary operators is no binary form. -/
theorem operator?_eq_none (f : ExprForm) (h : 7 ≤ f.level) : f.operator? = none := by
  cases f with
  | binary o l r =>
    have hpower := o.power_le
    simp only [level] at h
    omega
  | _ => rfl

theorem isUnary_eq_false (f : ExprForm) (h : 8 ≤ f.level) : f.isUnary = false := by
  cases f <;> simp_all [level, isUnary]

theorem level_of_operator? (f : ExprForm) {o : BinaryOperator} (h : f.operator? = some o) :
    f.level = 1 + o.power := by
  cases f <;> simp_all [level, operator?]

end ExprForm

/-! ## 2. Grouped arenas -/

namespace Arena

/-- There is a node under the id, and its form is as `Q` demands. -/
def HasForm (a : Arena ρ) (i : Id .expr) (Q : ExprForm → Prop) : Prop :=
  ∃ node, a.exprs.get? i = some node ∧ Q node.form

/-- The second node is a part of the first without brackets around it. -/
def Bare (a : Arena ρ) (i j : Id .expr) : Prop := a.HasForm i fun f => j ∈ f.bare

/-- All expressions of the arena are grouped by the power of operators, and those of one power to
the left. -/
structure Grouped (a : Arena ρ) : Prop where
  /-- A binary operator has nothing looser on its left, and only what is tighter on its right. -/
  binary : ∀ i o l r p, a.exprs.get? i = some ⟨.binary o l r, p⟩ →
    a.HasForm l (fun f => f.isTernary = false ∧ f.isAssign = false ∧
      ∀ o', f.operator? = some o' → o.power ≤ o'.power) ∧
    a.HasForm r (fun f => f.isTernary = false ∧ f.isAssign = false ∧
      ∀ o', f.operator? = some o' → o.power < o'.power)
  unary : ∀ i o j p, a.exprs.get? i = some ⟨.unary o j, p⟩ →
    a.HasForm j fun f => f.isTernary = false ∧ f.isAssign = false ∧ f.operator? = none
  call : ∀ i c args p, a.exprs.get? i = some ⟨.call c args, p⟩ →
    a.HasForm c fun f => f.isUnary = false ∧ f.operator? = none ∧ f.isTernary = false ∧
      f.isAssign = false
  ternary : ∀ i c t e p, a.exprs.get? i = some ⟨.ternary c t e, p⟩ →
    a.HasForm c (fun f => f.isTernary = false ∧ f.isAssign = false) ∧
    a.HasForm t (fun f => f.isAssign = false) ∧ a.HasForm e (fun f => f.isAssign = false)
  assign : ∀ i t v p, a.exprs.get? i = some ⟨.assign t v, p⟩ →
    a.HasForm t fun f => f.isAssign = false
  /-- Only brackets lift this: without them forms do not get looser, however far down. -/
  lifted : ∀ i j, Relation.ReflTransGen a.Bare i j → ∀ m n, a.exprs.get? i = some m →
    a.exprs.get? j = some n → m.form.level ≤ n.form.level

/-! ## 3. From trees to nodes -/

/-- The parts of a form that stand in it without brackets bind tightly enough. -/
def FormFits (a : Arena ρ) : ExprForm → Prop
  | .call c _ => a.HasForm c fun f => 8 ≤ f.level
  | .unary _ i => a.HasForm i fun f => 7 ≤ f.level
  | .binary o l r => a.HasForm l (fun f => 1 + o.power ≤ f.level) ∧
      a.HasForm r fun f => 1 + o.power < f.level
  | .ternary c t e => a.HasForm c (fun f => 2 ≤ f.level) ∧ a.HasForm t (fun f => 1 ≤ f.level) ∧
      a.HasForm e fun f => 1 ≤ f.level
  | .assign t v => a.HasForm t (fun f => 1 ≤ f.level) ∧ a.HasForm v fun f => 0 ≤ f.level
  | _ => True

variable {a : Arena ρ}

theorem HasForm.mono {i : Id .expr} {Q R : ExprForm → Prop} (h : a.HasForm i Q)
    (hQ : ∀ f, Q f → R f) : a.HasForm i R := by
  obtain ⟨node, hnode, hform⟩ := h
  exact ⟨node, hnode, hQ _ hform⟩

/-- The node that holds an expression has the level of the expression. -/
theorem hasForm_of_held {e : Expr ρ} {i : Id .expr} {n : Nat} (h : e.Held a i)
    (hn : n ≤ e.level) : a.HasForm i fun f => n ≤ f.level := by
  cases e with
  | int | bool | ident | discard | error => exact ⟨_, h, hn⟩
  | paren | unary =>
    obtain ⟨j, hi, -⟩ := h
    exact ⟨_, hi, hn⟩
  | tuple | binary | assign =>
    obtain ⟨j, k, hi, -⟩ := h
    exact ⟨_, hi, hn⟩
  | call | ternary =>
    obtain ⟨j, k, l, hi, -⟩ := h
    exact ⟨_, hi, hn⟩

/-- The node that holds an expression fits if the expression does. -/
theorem formFits_of_held {e : Expr ρ} {i : Id .expr} (h : e.Held a i) (hfits : e.Fits) :
    a.HasForm i a.FormFits := by
  cases e with
  | int | bool | ident | discard | error => exact ⟨_, h, trivial⟩
  | paren e p =>
    obtain ⟨j, hi, -⟩ := h
    exact ⟨_, hi, trivial⟩
  | tuple es p =>
    obtain ⟨r, is, hi, -⟩ := h
    exact ⟨_, hi, trivial⟩
  | call c es p =>
    obtain ⟨j, r, is, hi, hj, -⟩ := h
    exact ⟨_, hi, hasForm_of_held hj hfits⟩
  | unary o e p =>
    obtain ⟨j, hi, hj⟩ := h
    exact ⟨_, hi, hasForm_of_held hj hfits⟩
  | binary o l r p =>
    obtain ⟨j, k, hi, hj, hk⟩ := h
    exact ⟨_, hi, hasForm_of_held hj hfits.1, hasForm_of_held hk hfits.2⟩
  | ternary c t e p =>
    obtain ⟨j, k, l, hi, hj, hk, hl⟩ := h
    exact ⟨_, hi, hasForm_of_held hj hfits.1, hasForm_of_held hk hfits.2.1,
      hasForm_of_held hl hfits.2.2⟩
  | assign t v p =>
    obtain ⟨j, k, hi, hj, hk⟩ := h
    exact ⟨_, hi, hasForm_of_held hj hfits, hasForm_of_held hk (Nat.zero_le _)⟩

/-- A part without brackets does not bind looser than the form in which it stands. -/
theorem FormFits.le_level {f : ExprForm} (h : a.FormFits f) {j : Id .expr} (hj : j ∈ f.bare) :
    a.HasForm j fun g => f.level ≤ g.level := by
  have hmono : ∀ {n} {i : Id .expr}, a.HasForm i (fun g => n ≤ g.level) → f.level ≤ n →
      a.HasForm i fun g => f.level ≤ g.level :=
    fun hi hle => hi.mono fun g hg => Nat.le_trans hle hg
  cases f with
  | unary o i =>
    obtain rfl := List.mem_singleton.mp hj
    exact h
  | call c r =>
    obtain rfl := List.mem_singleton.mp hj
    exact h
  | binary o l r =>
    rcases List.mem_cons.mp hj with rfl | hj
    · exact h.1
    · obtain rfl := List.mem_singleton.mp hj
      exact hmono h.2 (Nat.le_succ _)
  | assign t v =>
    rcases List.mem_cons.mp hj with rfl | hj
    · exact hmono h.1 (Nat.zero_le _)
    · obtain rfl := List.mem_singleton.mp hj
      exact h.2
  | ternary c t e =>
    obtain ⟨hc, ht, he⟩ := h
    simp only [ExprForm.bare, List.mem_cons, List.not_mem_nil, or_false] at hj
    rcases hj with rfl | rfl | rfl
    · exact hmono hc (Nat.le_succ 1)
    · exact ht
    · exact he
  | _ => exact absurd hj List.not_mem_nil

/-- Where every node fits, all expressions are grouped. -/
theorem grouped_of_formFits
    (h : ∀ i node, a.exprs.get? i = some node → a.FormFits node.form) : a.Grouped where
  binary i o l r p hi := by
    obtain ⟨hl, hr⟩ := h i _ hi
    have hpower := o.power_pos
    refine ⟨hl.mono fun f hf => ?_, hr.mono fun f hf => ?_⟩
    · refine ⟨f.isTernary_eq_false (by omega), f.isAssign_eq_false (by omega), fun o' ho => ?_⟩
      rw [f.level_of_operator? ho] at hf
      omega
    · refine ⟨f.isTernary_eq_false (by omega), f.isAssign_eq_false (by omega), fun o' ho => ?_⟩
      rw [f.level_of_operator? ho] at hf
      omega
  unary i o j p hi := by
    have hj : a.HasForm j fun f => 7 ≤ f.level := h i _ hi
    exact hj.mono fun f hf =>
      ⟨f.isTernary_eq_false (by omega), f.isAssign_eq_false (by omega), f.operator?_eq_none hf⟩
  call i c args p hi := by
    have hc : a.HasForm c fun f => 8 ≤ f.level := h i _ hi
    exact hc.mono fun f hf => ⟨f.isUnary_eq_false hf, f.operator?_eq_none (by omega),
      f.isTernary_eq_false (by omega), f.isAssign_eq_false (by omega)⟩
  ternary i c t e p hi := by
    obtain ⟨hc, ht, he⟩ := h i _ hi
    refine ⟨hc.mono fun f hf => ?_, ht.mono fun f hf => f.isAssign_eq_false hf,
      he.mono fun f hf => f.isAssign_eq_false hf⟩
    exact ⟨f.isTernary_eq_false hf, f.isAssign_eq_false (by omega)⟩
  assign i t v p hi := (h i _ hi).1.mono fun f hf => f.isAssign_eq_false hf
  lifted i j hbelow m n hm hn := by
    induction hbelow generalizing n with
    | refl =>
      obtain rfl := Option.some.inj (hm.symm.trans hn)
      exact Nat.le_refl _
    | tail _ hpart ih =>
      obtain ⟨node, hnode, hbare⟩ := hpart
      obtain ⟨n', hn', hle⟩ := (h _ node hnode).le_level hbare
      rw [Option.some.inj (hn.symm.trans hn')]
      exact Nat.le_trans (ih node hnode) hle

end Arena

/-! ## 4. Outcomes -/

/-- **Expressions are grouped by precedence.**  However malformed the source, in the arena of its
outcome every operator has under it only what binds as tightly as it has to; operators of one power
are grouped to the left, and only brackets lift this. -/
theorem Outcome.grouped_ofSource (source : String) (limit : Nat) :
    (ofSource source limit).arena.Grouped := by
  refine Arena.grouped_of_formFits fun i node hi => ?_
  obtain ⟨e, he, hheld⟩ := exists_held_ofSource source limit hi
  have hfits := Parser.grouped_topLevel _ e he
  obtain ⟨node', hi', hform⟩ := Arena.formFits_of_held hheld ((Expr.fits_map _ e).mpr hfits)
  rw [Option.some.inj (hi.symm.trans hi')]
  exact hform

/-- In brackets anything may stand, here an assignment under a sign. -/
example : (Outcome.ofSource "a + -(b = c) * d" 0).arena.exprs.nodes.toList.map ExprNode.form =
    [.ident "a", .ident "b", .ident "c", .assign ⟨1⟩ ⟨2⟩, .paren ⟨3⟩, .unary .neg ⟨4⟩, .ident "d",
      .binary .mul ⟨5⟩ ⟨6⟩, .binary .add ⟨0⟩ ⟨7⟩] := by
  decide +kernel

end PlatformGate
