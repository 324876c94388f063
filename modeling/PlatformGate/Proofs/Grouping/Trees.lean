/-
# Expressions are grouped by precedence

A form of expression has a level: assignments the lowest, then ternaries, then binary operators by
their power, then the operators in front of a value; all else has the highest.  The parts that stand
in an expression without brackets have to be of a level that the expression allows, and `Fits` says
which.  Every expression that is read fits, and so does every expression inside it
(`Parser.grouped_topLevel`).

What needs an argument is the chain of operators.  It is read from left to right, and each operator
is grafted onto the tree so far: it goes down the right side past all looser operators.  The
invariant is that a tree of some level stays at that level or drops to that of the new operator
(`Expr.grouped_graft`).  The level of the right operand never matters for that, as operands are of a
level above all binary operators.
-/
import PlatformGate.Proofs.Arena.Enrolled
import PlatformGate.Proofs.Parse.Ensures

namespace PlatformGate

variable {ρ σ α β : Type}

/-! ## 1. Levels -/

theorem BinaryOperator.power_le (o : BinaryOperator) : o.power ≤ 5 := by
  cases o <;> decide

theorem BinaryOperator.power_pos (o : BinaryOperator) : 0 < o.power := by
  cases o <;> decide

namespace Expr

/-- How tightly the outermost form of an expression binds. -/
def level : Expr ρ → Nat
  | assign .. => 0
  | ternary .. => 1
  | binary o .. => 1 + o.power
  | unary .. => 7
  | _ => 8

/-- The parts that stand in an expression without brackets bind tightly enough. -/
def Fits : Expr ρ → Prop
  | call c _ _ => 8 ≤ c.level
  | unary _ e _ => 7 ≤ e.level
  | binary o l r _ => 1 + o.power ≤ l.level ∧ 1 + o.power < r.level
  | ternary c t e _ => 2 ≤ c.level ∧ 1 ≤ t.level ∧ 1 ≤ e.level
  | assign t _ _ => 1 ≤ t.level
  | _ => True

/-- The expression fits, and so does every expression inside it. -/
def Grouped (e : Expr ρ) : Prop := ∀ e' ∈ e.subexprs, e'.Fits

theorem grouped_append {es : List (Expr ρ)} {e : Expr ρ} :
    (∀ e' ∈ es ++ [e], e'.Fits) ↔ (∀ e' ∈ es, e'.Fits) ∧ e.Fits := by
  rw [List.forall_mem_append, List.forall_mem_singleton]

theorem grouped_subexprsAll {es : List (Expr ρ)} :
    (∀ e' ∈ subexprsAll es, e'.Fits) ↔ ∀ e ∈ es, e.Grouped := by
  rw [subexprsAll_eq_flatMap, List.forall_mem_flatMap]
  rfl

theorem grouped_leaf {e : Expr ρ} (hleaf : e.subexprs = [e]) (hfits : e.Fits) : e.Grouped := by
  unfold Grouped
  rw [hleaf]
  exact List.forall_mem_singleton.mpr hfits

theorem grouped_paren {e : Expr ρ} {p : ρ} : (paren e p).Grouped ↔ e.Grouped := by
  unfold Grouped
  rw [subexprs, grouped_append]
  exact and_iff_left trivial

theorem grouped_tuple {es : List (Expr ρ)} {p : ρ} :
    (tuple es p).Grouped ↔ ∀ e ∈ es, e.Grouped := by
  unfold Grouped
  rw [subexprs, grouped_append, grouped_subexprsAll]
  exact and_iff_left trivial

theorem grouped_call {c : Expr ρ} {es : List (Expr ρ)} {p : ρ} :
    (call c es p).Grouped ↔ c.Grouped ∧ (∀ e ∈ es, e.Grouped) ∧ 8 ≤ c.level := by
  unfold Grouped
  rw [subexprs, grouped_append, List.forall_mem_append, grouped_subexprsAll, and_assoc]
  rfl

theorem grouped_unary {o : UnaryOperator} {e : Expr ρ} {p : ρ} :
    (unary o e p).Grouped ↔ e.Grouped ∧ 7 ≤ e.level := by
  unfold Grouped
  rw [subexprs, grouped_append]
  rfl

theorem grouped_binary {o : BinaryOperator} {l r : Expr ρ} {p : ρ} :
    (binary o l r p).Grouped ↔
      (l.Grouped ∧ r.Grouped) ∧ 1 + o.power ≤ l.level ∧ 1 + o.power < r.level := by
  unfold Grouped
  rw [subexprs, grouped_append, List.forall_mem_append]
  rfl

theorem grouped_ternary {c t e : Expr ρ} {p : ρ} :
    (ternary c t e p).Grouped ↔
      ((c.Grouped ∧ t.Grouped) ∧ e.Grouped) ∧ 2 ≤ c.level ∧ 1 ≤ t.level ∧ 1 ≤ e.level := by
  unfold Grouped
  rw [subexprs, grouped_append, List.forall_mem_append, List.forall_mem_append]
  rfl

theorem grouped_assign {t v : Expr ρ} {p : ρ} :
    (assign t v p).Grouped ↔ (t.Grouped ∧ v.Grouped) ∧ 1 ≤ t.level := by
  unfold Grouped
  rw [subexprs, grouped_append, List.forall_mem_append]
  rfl

@[simp] theorem level_map (f : ρ → σ) (e : Expr ρ) : (map f e).level = e.level := by
  cases e <;> simp [map, level]

theorem fits_map (f : ρ → σ) (e : Expr ρ) : (map f e).Fits ↔ e.Fits := by
  cases e <;> simp [map, Fits]

/-! ## 2. Chains -/

/-- The expression is grouped and binds at least as tightly as the level says. -/
def AtLeast (n : Nat) (e : Expr ρ) : Prop := n ≤ e.level ∧ e.Grouped

theorem AtLeast.mono {m n : Nat} {e : Expr ρ} (h : e.AtLeast n) (hle : m ≤ n) : e.AtLeast m :=
  ⟨Nat.le_trans hle h.1, h.2⟩

/-- A form that binds more tightly than a ternary and is not binary binds more tightly than any
binary one. -/
theorem seven_le_level {e : Expr ρ} (h : 2 ≤ e.level) (hbinary : ∀ o l r p, e ≠ binary o l r p) :
    7 ≤ e.level := by
  cases e with
  | binary o l r p => exact absurd rfl (hbinary o l r p)
  | ternary c t e p => exact absurd h (by simp [level])
  | assign t v p => exact absurd h (by simp [level])
  | _ => simp [level]

/-- **Grafting keeps an expression grouped.**  Its level drops at most to that of the operator. -/
theorem grouped_graft (op : BinaryOperator) {right : Expr Run} (hright : right.AtLeast 7) :
    ∀ e : Expr Run, e.AtLeast 2 → (graft op right e).Grouped ∧
      min e.level (1 + op.power) ≤ (graft op right e).level
  | binary o l r p, he => by
    obtain ⟨⟨hl, hr⟩, hleft, hlevel⟩ := grouped_binary.mp he.2
    rw [graft]
    by_cases hop : o.power < op.power
    · -- the operator goes on down the right side, which stays above the one passed
      rw [if_pos hop]
      obtain ⟨hgrouped, hle⟩ := grouped_graft op hright r ⟨by omega, hr⟩
      refine ⟨grouped_binary.mpr ⟨⟨hl, hgrouped⟩, hleft, by omega⟩, ?_⟩
      exact Nat.min_le_left _ _
    · rw [if_neg hop]
      have hpower := op.power_le
      refine ⟨grouped_binary.mpr ⟨⟨he.2, hright.2⟩, ?_, ?_⟩, Nat.min_le_right _ _⟩
      · simp only [level]
        omega
      · exact Nat.lt_of_lt_of_le (by omega) hright.1
  | int .., he | bool .., he | ident .., he | discard .., he | paren .., he | tuple .., he
  | call .., he | unary .., he | error .., he => by
    have hpower := op.power_le
    have hlevel := seven_le_level he.1 nofun
    have hright' := hright.1
    refine ⟨grouped_binary.mpr ⟨⟨he.2, hright.2⟩, ?_, ?_⟩, Nat.min_le_right _ _⟩ <;> omega
  | ternary .., he | assign .., he => absurd he.1 (by simp [level])

theorem atLeast_graft {op : BinaryOperator} {right e : Expr Run} (hright : right.AtLeast 7)
    (he : e.AtLeast 2) : (graft op right e).AtLeast 2 := by
  obtain ⟨hgrouped, hle⟩ := grouped_graft op hright e he
  have hpower := op.power_pos
  have hlevel := he.1
  exact ⟨by omega, hgrouped⟩

/-- **A chain of operands is grouped by the power of its operators.** -/
theorem atLeast_ofChain {first : Expr Run} {links : List (BinaryOperator × Expr Run)}
    (hfirst : first.AtLeast 2) (hlinks : ∀ link ∈ links, link.2.AtLeast 7) :
    (ofChain first links).AtLeast 2 := by
  induction links generalizing first with
  | nil => exact hfirst
  | cons link links ih =>
    obtain ⟨hlink, hrest⟩ := List.forall_mem_cons.mp hlinks
    exact ih (atLeast_graft hlink hfirst) hrest

theorem atLeast_ofCalls {callee : Expr Run} {lists : List (List (Expr Run) × Nat)}
    (hcallee : callee.AtLeast 8) (hlists : ∀ l ∈ lists, ∀ e ∈ l.1, e.Grouped) :
    (ofCalls callee lists).AtLeast 8 := by
  induction lists generalizing callee with
  | nil => exact hcallee
  | cons l lists ih =>
    obtain ⟨hl, hrest⟩ := List.forall_mem_cons.mp hlists
    exact ih ⟨Nat.le_refl 8, grouped_call.mpr ⟨hcallee.2, hl, hcallee.1⟩⟩ hrest

theorem atLeast_ofSigns (signs : List (UnaryOperator × Nat)) {operand : Expr Run}
    (h : operand.AtLeast 7) : (ofSigns signs operand).AtLeast 7 := by
  induction signs with
  | nil => exact h
  | cons s signs ih => exact ⟨Nat.le_refl 7, grouped_unary.mpr ⟨ih.2, ih.1⟩⟩

end Expr

/-- The level that an expression of the given reach has at least. -/
def Reach.level : Reach → Nat
  | .full => 0
  | .ternary => 1

/-! ## 3. What values a parser gives -/

namespace Parser

/-- Whatever is read, the value is as `Q` demands. -/
def Gives (p : Parser α) (Q : α → Prop) : Prop := ∀ i, Q (p i).value

variable {p : Parser α} {P : α → Prop} {Q : β → Prop}

theorem gives_pure {b : β} (h : Q b) : (pure b : Parser β).Gives Q := fun _ => h

theorem Gives.mono {Q' : α → Prop} (h : p.Gives P) (hQ : ∀ a, P a → Q' a) : p.Gives Q' :=
  fun i => hQ _ (h i)

theorem Gives.bind {f : α → Parser β} (h : p.Gives P) (hf : ∀ a, P a → (f a).Gives Q) :
    (p >>= f).Gives Q :=
  fun i => hf _ (h i) _

/-- What is read in front may be anything. -/
theorem gives_after {f : α → Parser β} (hf : ∀ a, (f a).Gives Q) : (p >>= f).Gives Q :=
  fun _ => hf _ _

theorem Gives.ite {c : Prop} [Decidable c] {p q : Parser α} (hp : p.Gives P) (hq : q.Gives P) :
    (if c then p else q).Gives P := by
  split
  · exact hp
  · exact hq

theorem Gives.quietly (h : p.Gives P) : (quietly p).Gives fun a => P a.1 := fun i => h i

theorem Gives.collect {item : Parser (Option α)} (h : item.Gives fun a? => ∀ a ∈ a?, P a) :
    (collect item).Gives fun as => ∀ a ∈ as, P a := by
  have hwithin : ∀ n, (collectWithin item n).Gives fun as => ∀ a ∈ as, P a := by
    intro n
    induction n with
    | zero => exact gives_pure nofun
    | succ n ih =>
      rw [collectWithin_succ, round]
      refine h.bind fun a? ha => ?_
      cases a? with
      | none => exact gives_pure nofun
      | some a =>
        exact ih.bind fun as has => gives_pure (List.forall_mem_cons.mpr ⟨ha a rfl, has⟩)
  exact fun i => hwithin _ i

/-! ## 4. Expressions -/

theorem gives_errorHere : errorHere.Gives (Expr.AtLeast 8) :=
  gives_after fun _ => gives_pure ⟨Nat.le_refl 8, Expr.grouped_leaf rfl trivial⟩

theorem gives_missingValue (pos : ValuePosition) : (missingValue pos).Gives (Expr.AtLeast 8) :=
  gives_after fun _ => gives_after fun _ => gives_errorHere

section Lists

variable {value : Parser (Expr Run)} (h : value.Gives Expr.Grouped)

include h

theorem gives_values (c : Construct) (n : Nat) :
    (values value c n).Gives fun es => ∀ e ∈ es, e.Grouped := by
  have hmore : (valueBehindComma? value).Gives fun e? => ∀ e ∈ e?, e.Grouped := by
    refine gives_after fun comma => Gives.ite ?_ (gives_pure nofun)
    exact h.bind fun e he => gives_pure fun e' he' => Option.some.inj he' ▸ he
  refine gives_after fun closed => Gives.ite (gives_pure nofun) ?_
  refine h.bind fun first hfirst => hmore.collect.bind fun others hothers => ?_
  have hall : ∀ e ∈ first :: others, e.Grouped := List.forall_mem_cons.mpr ⟨hfirst, hothers⟩
  refine gives_after fun _ => gives_after fun closed => Gives.ite (gives_pure hall) ?_
  exact gives_after fun _ => gives_pure hall

theorem gives_primary (pos : ValuePosition) : (primary value pos).Gives (Expr.AtLeast 8) := by
  have hone : ∀ {e : Expr Run}, e.AtLeast 8 → (do next; return e : Parser (Expr Run)).Gives
      (Expr.AtLeast 8) :=
    fun he => gives_after fun _ => gives_pure he
  refine gives_after fun start => gives_after fun k => ?_
  cases k with
  | number v => exact hone ⟨Nat.le_refl 8, Expr.grouped_leaf rfl trivial⟩
  | word name => exact hone ⟨Nat.le_refl 8, Expr.grouped_leaf rfl trivial⟩
  | invalid => exact gives_after fun place => gives_pure ⟨Nat.le_refl 8, Expr.grouped_leaf rfl trivial⟩
  | fixed f =>
    cases f with
    | trueWord | falseWord => exact hone ⟨Nat.le_refl 8, Expr.grouped_leaf rfl trivial⟩
    | underscore => exact hone ⟨Nat.le_refl 8, Expr.grouped_leaf rfl trivial⟩
    | lparen =>
      refine gives_after fun _ => (gives_values h _ _).bind fun es hes => ?_
      refine gives_after fun place => gives_pure ?_
      match es, hes with
      | [], hes => exact ⟨Nat.le_refl 8, Expr.grouped_tuple.mpr hes⟩
      | [e], hes => exact ⟨Nat.le_refl 8, Expr.grouped_paren.mpr (List.forall_mem_singleton.mp hes)⟩
      | _ :: _ :: _, hes => exact ⟨Nat.le_refl 8, Expr.grouped_tuple.mpr hes⟩
    | _ => exact gives_missingValue pos
  | _ => exact gives_missingValue pos

theorem gives_arguments? : (arguments? value).Gives fun l? => ∀ l ∈ l?, ∀ e ∈ l.1, e.Grouped := by
  refine gives_after fun opener => gives_after fun opens => gives_after fun broken => ?_
  refine Gives.ite ?_ (gives_pure nofun)
  refine gives_after fun _ => (gives_values h _ _).bind fun es hes => ?_
  refine gives_after fun stop => gives_pure fun l hl => ?_
  obtain rfl := Option.some.inj hl
  exact hes

end Lists

section Chains

variable {inner : ValuePosition → Parser (Expr Run)} (h : ∀ pos, (inner pos).Gives Expr.Grouped)

include h

theorem gives_operand (pos : ValuePosition) : (operand inner pos).Gives (Expr.AtLeast 7) := by
  refine gives_after fun signs => (gives_primary (h .tuple) _).bind fun callee hcallee => ?_
  refine (gives_arguments? (h .call)).collect.bind fun lists hlists => gives_pure ?_
  exact Expr.atLeast_ofSigns signs ((Expr.atLeast_ofCalls hcallee hlists).mono (by decide))

theorem gives_link? : (link? inner).Gives fun link? => ∀ link ∈ link?, link.2.AtLeast 7 := by
  refine gives_after fun k => ?_
  split
  · refine gives_after fun _ => (gives_operand h _).bind fun right hright => gives_pure ?_
    intro link hlink
    obtain rfl := Option.some.inj hlink
    exact hright
  · exact gives_pure nofun

theorem gives_chain (pos : ValuePosition) : (chain inner pos).Gives (Expr.AtLeast 2) := by
  refine (gives_operand h pos).bind fun first hfirst => ?_
  refine (gives_link? h).collect.bind fun links hlinks => gives_pure ?_
  exact Expr.atLeast_ofChain (hfirst.mono (by decide)) hlinks

end Chains

section Whole

variable {inner : Reach → ValuePosition → Parser (Expr Run)}
variable (h : ∀ reach pos, (inner reach pos).Gives (Expr.AtLeast reach.level))

include h

theorem gives_ternary (pos : ValuePosition) : (ternary inner pos).Gives (Expr.AtLeast 1) := by
  have hbranch := h .ternary .ternary
  have hother : ∀ quiet, (otherwise (inner .ternary .ternary) quiet).Gives (Expr.AtLeast 1) := by
    intro quiet
    have herror := gives_errorHere.mono fun e he => he.mono (m := 1) (by decide)
    refine gives_after fun colon => Gives.ite hbranch (Gives.ite ?_ herror)
    exact gives_after fun _ => herror
  refine gives_after fun start => ?_
  refine (gives_chain (fun pos => (h .full pos).mono fun e he => he.2) pos).bind
    fun cond hcond => ?_
  refine gives_after fun question => Gives.ite ?_ (gives_pure (hcond.mono (by decide)))
  refine hbranch.quietly.bind fun whenTrue htrue => ?_
  refine (hother _).bind fun whenFalse hfalse => gives_after fun place => gives_pure ?_
  exact ⟨Nat.le_refl 1,
    Expr.grouped_ternary.mpr ⟨⟨⟨hcond.2, htrue.2⟩, hfalse.2⟩, hcond.1, htrue.1, hfalse.1⟩⟩

theorem gives_assignment (pos : ValuePosition) :
    (assignment inner pos).Gives (Expr.AtLeast 0) := by
  refine gives_after fun start => (gives_ternary h pos).bind fun target htarget => ?_
  refine gives_after fun eq => Gives.ite ?_ (gives_pure (htarget.mono (by decide)))
  refine (h .full .assignment).bind fun value hvalue => gives_after fun place => gives_pure ?_
  exact ⟨Nat.le_refl 0, Expr.grouped_assign.mpr ⟨⟨htarget.2, hvalue.2⟩, htarget.1⟩⟩

end Whole

theorem gives_exprWithin (n : Nat) (reach : Reach) (pos : ValuePosition) :
    (exprWithin n reach pos).Gives (Expr.AtLeast reach.level) := by
  induction n generalizing reach pos with
  | zero =>
    refine (gives_missingValue pos).mono fun e he => he.mono ?_
    cases reach <;> decide
  | succ n ih =>
    cases reach with
    | full => exact gives_assignment ih pos
    | ternary => exact gives_ternary ih pos

/-- **Every expression that is read is grouped by precedence.** -/
theorem grouped_expr (reach : Reach) (pos : ValuePosition) : (expr reach pos).Gives Expr.Grouped :=
  fun i => (gives_exprWithin (i.rest.length + 1) reach pos i).2

end Parser

/-! ## 5. Headers and statements -/

/-- Every expression inside the clause fits. -/
def Clause.Grouped (c : Clause ρ) : Prop := ∀ e ∈ c.subexprs, e.Fits

/-- Every expression inside the statement fits. -/
def Stmt.Grouped (s : Stmt ρ) : Prop := ∀ e ∈ s.subexprs, e.Fits

namespace Parser

theorem gives_initializer? : initializer?.Gives fun e? => ∀ e ∈ Expr.subexprs? e?, e.Fits :=
  gives_after fun _ => Gives.ite
    ((grouped_expr .full .declared).bind fun _ he => gives_pure he) (gives_pure nofun)

theorem gives_caseValue (quiet : Bool) : (caseValue quiet).Gives Expr.Grouped := by
  have herror := gives_errorHere.mono fun e he => he.2
  refine gives_after fun _ => Gives.ite (grouped_expr .full .declared) (Gives.ite ?_ herror)
  exact gives_after fun _ => herror

theorem gives_clause (owner : Owner) : (clause owner).Gives Clause.Grouped := by
  refine gives_after fun start => gives_after fun k => ?_
  have hquery : (do
      let q ← query (TagSet.headerEnd owner)
      return Clause.availability q : Parser (Clause Run)).Gives Clause.Grouped :=
    gives_after fun q => gives_pure nofun
  have hbinding : ∀ mutable, (do
      next
      let p ← pattern (.header owner)
      let init ← initializer?
      return Clause.binding mutable p init (← runFrom start) : Parser (Clause Run)).Gives
        Clause.Grouped :=
    fun _ => gives_after fun _ => gives_after fun p => gives_initializer?.bind fun init hinit =>
      gives_after fun place => gives_pure hinit
  have hother : (do
      let e ← expr .full (.header owner)
      return Clause.expr e (← runFrom start) : Parser (Clause Run)).Gives Clause.Grouped :=
    (grouped_expr .full _).bind fun e he => gives_after fun place => gives_pure he
  cases k with
  | fixed f =>
    cases f with
    | available | unavailable => exact hquery
    | letWord => exact hbinding false
    | varWord => exact hbinding true
    | caseWord =>
      refine gives_after fun _ => ?_
      refine (grouped_expr .ternary .pattern).quietly.bind fun p hp => ?_
      refine (gives_caseValue p.2).bind fun init hinit => gives_after fun place => gives_pure ?_
      exact List.forall_mem_append.mpr ⟨hp, hinit⟩
    | _ => exact hother
  | _ => exact hother

theorem gives_conditions (owner : Owner) :
    (conditions owner).Gives fun cs => ∀ e ∈ cs.flatMap Clause.subexprs, e.Fits := by
  have hmore : (clauseBehindComma? owner).Gives fun c? => ∀ c ∈ c?, c.Grouped := by
    refine gives_after fun comma => Gives.ite ?_ (gives_pure nofun)
    exact (gives_clause owner).bind fun c hc => gives_pure fun c' hc' => Option.some.inj hc' ▸ hc
  refine (gives_clause owner).bind fun first hfirst => hmore.collect.bind fun others hothers => ?_
  refine gives_pure (List.forall_mem_flatMap.mpr ?_)
  exact List.forall_mem_cons.mpr ⟨hfirst, hothers⟩

/-- If all statements among some items are grouped, so is their list. -/
theorem fits_of_items {items : List (Option (Stmt Run))}
    (h : ∀ s? ∈ items, ∀ s ∈ s?, s.Grouped) :
    ∀ e ∈ Stmt.subexprsAll (items.filterMap id), e.Fits := by
  rw [Stmt.subexprsAll_eq_flatMap, List.forall_mem_flatMap]
  intro s hs
  obtain ⟨s?, hmem, hs?⟩ := List.mem_filterMap.mp hs
  exact h s? hmem s hs?

section Nested

variable {stmt : Parser (Stmt Run)} (h : stmt.Gives Stmt.Grouped)

include h

theorem gives_item (c : Construct) : (item stmt c).Gives fun s? => ∀ s ∈ s?, s.Grouped := by
  refine gives_after fun k => Gives.ite ?_ ?_
  · refine h.bind fun s hs => gives_after fun _ => gives_pure ?_
    exact fun s' hs' => Option.some.inj hs' ▸ hs
  · exact gives_after fun _ => gives_after fun _ => gives_pure nofun

theorem gives_block : (block stmt).Gives fun b => ∀ e ∈ Stmt.subexprsOfBody b, e.Fits := by
  have hround : ∀ n, (blockItem? stmt n).Gives fun s?? => ∀ s? ∈ s??, ∀ s ∈ s?, s.Grouped := by
    intro n
    refine gives_after fun closed => Gives.ite (gives_pure nofun) ?_
    refine gives_after fun ended => Gives.ite (gives_after fun _ => gives_pure nofun) ?_
    refine (gives_item h .block).bind fun s? hs => gives_pure ?_
    exact fun s' hs' => Option.some.inj hs' ▸ hs
  refine gives_after fun opener => gives_after fun _ => ?_
  refine (hround opener).collect.bind fun items hitems => gives_after fun place => gives_pure ?_
  exact fits_of_items hitems

theorem gives_body (owner : Owner) :
    (body stmt owner).Gives fun b => ∀ e ∈ Stmt.subexprsOfBody b, e.Fits := by
  refine gives_after fun _ => gives_after fun opens => Gives.ite (gives_block h) ?_
  exact gives_after fun ended => gives_after fun _ => gives_pure nofun

theorem gives_alternative :
    (alternative stmt).Gives fun a => ∀ e ∈ Stmt.subexprsOfAlternative a, e.Fits := by
  refine gives_after fun another => Gives.ite ?_ ?_
  · exact h.bind fun s hs => gives_pure hs
  · exact (gives_body h .ifStatement).bind fun b hb => gives_pure hb

theorem gives_ifStatement : (ifStatement stmt).Gives Stmt.Grouped := by
  refine gives_after fun start => gives_after fun _ => ?_
  refine (gives_conditions .ifStatement).bind fun cs hcs => ?_
  refine (gives_body h .ifStatement).bind fun b hb => gives_after fun other => Gives.ite ?_ ?_
  · refine (gives_alternative h).bind fun a ha => gives_after fun place => gives_pure ?_
    exact List.forall_mem_append.mpr ⟨hcs, List.forall_mem_append.mpr ⟨hb, ha⟩⟩
  · refine gives_after fun place => gives_pure ?_
    exact List.forall_mem_append.mpr ⟨hcs, List.forall_mem_append.mpr ⟨hb, nofun⟩⟩

theorem gives_guardStatement : (guardStatement stmt).Gives Stmt.Grouped := by
  have hbody : (guardBody stmt).Gives fun b => ∀ e ∈ Stmt.subexprsOfBody b, e.Fits := by
    refine gives_after fun other => Gives.ite (gives_body h .guardStatement) ?_
    refine gives_after fun _ => gives_after fun opens => Gives.ite (gives_block h) ?_
    exact gives_pure nofun
  refine gives_after fun start => gives_after fun _ => ?_
  refine (gives_conditions .guardStatement).bind fun cs hcs => gives_after fun _ => ?_
  refine hbody.bind fun b hb => gives_after fun place => gives_pure ?_
  exact List.forall_mem_append.mpr ⟨hcs, hb⟩

theorem gives_whileStatement : (whileStatement stmt).Gives Stmt.Grouped := by
  refine gives_after fun start => gives_after fun _ => ?_
  refine (gives_conditions .whileStatement).bind fun cs hcs => ?_
  refine (gives_body h .whileStatement).bind fun b hb => gives_after fun place => gives_pure ?_
  exact List.forall_mem_append.mpr ⟨hcs, hb⟩

end Nested

theorem gives_declaration (mutable : Bool) : (declaration mutable).Gives Stmt.Grouped := by
  refine gives_after fun start => gives_after fun _ => gives_after fun p => ?_
  exact gives_initializer?.bind fun init hinit => gives_after fun place => gives_pure hinit

theorem gives_returnStatement : returnStatement.Gives Stmt.Grouped := by
  have hvalue : returnValue?.Gives fun e? => ∀ e ∈ Expr.subexprs? e?, e.Fits := by
    refine gives_after fun ended => Gives.ite (gives_pure nofun) ?_
    refine gives_after fun line => Gives.ite (gives_pure nofun) ?_
    refine gives_after fun closes => Gives.ite (gives_pure nofun) ?_
    exact (grouped_expr .full .returned).bind fun e he => gives_pure he
  refine gives_after fun start => gives_after fun _ => ?_
  exact hvalue.bind fun e? he => gives_after fun place => gives_pure he

theorem gives_expressionStatement : expressionStatement.Gives Stmt.Grouped :=
  gives_after fun _ => (grouped_expr .full .statement).bind fun _ he =>
    gives_after fun _ => gives_pure he

theorem gives_statement {stmt : Parser (Stmt Run)} (h : stmt.Gives Stmt.Grouped) :
    (statement stmt).Gives Stmt.Grouped := by
  refine gives_after fun k => ?_
  cases k with
  | fixed f =>
    cases f with
    | ifWord => exact gives_ifStatement h
    | guardWord => exact gives_guardStatement h
    | whileWord => exact gives_whileStatement h
    | letWord => exact gives_declaration false
    | varWord => exact gives_declaration true
    | returnWord => exact gives_returnStatement
    | _ => exact gives_expressionStatement
  | _ => exact gives_expressionStatement

theorem grouped_stmt : stmt.Gives Stmt.Grouped := by
  have hwithin : ∀ n, (stmtWithin n).Gives Stmt.Grouped := by
    intro n
    induction n with
    | zero => exact gives_expressionStatement
    | succ n ih => exact gives_statement ih
  exact fun i => hwithin _ i

/-- **In every source all expressions are grouped by precedence.** -/
theorem grouped_topLevel : topLevel.Gives fun ss => ∀ e ∈ Stmt.subexprsAll ss, e.Fits := by
  have hround : topLevelItem?.Gives fun s?? => ∀ s? ∈ s??, ∀ s ∈ s?, s.Grouped := by
    refine gives_after fun ended => Gives.ite (gives_pure nofun) ?_
    refine (gives_item grouped_stmt .topLevel).bind fun s? hs => gives_pure ?_
    exact fun s' hs' => Option.some.inj hs' ▸ hs
  exact hround.collect.bind fun items hitems => gives_pure (fits_of_items hitems)

end Parser

end PlatformGate
