/-
# The bounds on nesting are never reached

`exprWithin` and `stmtWithin` recur on a number of levels, and `expr` and `stmt` start them with one
level more than there are terminals.  A parser meets the parsers inside it only behind a terminal of
its own; so with more levels than terminals the number does not matter (`exprWithin_congr`,
`stmtWithin_congr`), and expressions and statements obey the recursion of their grammar without any
bound (`expr_full_eq`, `expr_ternary_eq`, `stmt_eq`).  What holds of a parser for expressions or
statements if it holds of the ones inside then holds of all (`expr_induction`, `stmt_induction`).

The lemma about each parser has one shape: if the parsers inside agree on inputs with fewer than `m`
terminals, so do the parsers built from them, on inputs with at most `m`.
-/
import PlatformGate.Proofs.Parse.Lines

namespace PlatformGate

namespace Input

variable {i j : Input}

theorem Ahead.length_le (h : i.Ahead j) : j.rest.length ≤ i.rest.length := by
  have hp := h.position_le
  have hstop := h.stop_eq
  omega

theorem length_next_lt (h : i.rest ≠ []) : i.next.rest.length < i.rest.length :=
  i.ahead_next.length_lt (position_lt_next h)

end Input

namespace Parser

variable {α β : Type} {i : Input} {m : Nat}

/-! ## 1. Chains and loops -/

/-- Chains agree if their first parts do, and what follows agrees where the first part stops. -/
theorem bind_congr {p q : Parser α} {f g : α → Parser β} (hp : p i = q i)
    (hf : p.Ensures i fun a _ j => f a j = g a j) : (p >>= f) i = (q >>= g) i := by
  have hf : f (p i).value (p i).next = g (p i).value (p i).next := hf
  rw [bind_apply, bind_apply, ← hp, hf]

theorem bind_congr_left {p q : Parser α} {f : α → Parser β} (hp : p i = q i) :
    (p >>= f) i = (q >>= f) i := by
  rw [bind_apply, bind_apply, hp]

theorem bind_congr_right {p : Parser α} {f g : α → Parser β}
    (hf : p.Ensures i fun a _ j => f a j = g a j) : (p >>= f) i = (p >>= g) i :=
  bind_congr rfl hf

/-- Loops agree if their items do. -/
theorem collect_congr {item item' : Parser (Option α)} (hadv : AdvancesUpTo m item)
    (h : ∀ i, i.rest.length ≤ m → item i = item' i) (i : Input) (hi : i.rest.length ≤ m) :
    collect item i = collect item' i := by
  have hrounds : ∀ (n : Nat) (i : Input), i.rest.length ≤ m →
      collectWithin item n i = collectWithin item' n i := by
    intro n
    induction n with
    | zero => exact fun _ _ => rfl
    | succ n ih =>
      intro i hi
      refine bind_congr (h i hi) ((hadv i hi).mono fun a? _ j hlt => ?_)
      cases a? with
      | none => rfl
      | some a =>
        have hlt := hlt rfl
        exact bind_congr_left (ih j (by omega))
  exact hrounds _ i hi

/-! ## 2. Expressions -/

section Lists

variable {p q : Parser (Expr Run)} (hp : ∀ i, p.Ensures i (ReadsExpr i))
variable (h : ∀ i, i.rest.length < m → p i = q i)

include h in
theorem valueBehindComma?_congr (hi : i.rest.length ≤ m) :
    valueBehindComma? p i = valueBehindComma? q i := by
  refine bind_congr_right ?_
  simp only [ensures_eat, ↓reduceIte, Bool.false_eq_true, implies_true, and_true]
  intro hcomma
  have hlt := Input.length_next_lt (Input.rest_ne_nil hcomma)
  exact bind_congr_left (h _ (by omega))

include hp in
theorem valueBehindComma?_advances (m : Nat) : AdvancesUpTo m (valueBehindComma? p) := by
  intro i _
  refine (valueBehindComma?_reads hp i).mono fun e? rs j h hsome => ?_
  cases e? with
  | none => exact absurd hsome (by simp)
  | some e => exact h.1.ahead.length_lt h.2.1

include hp h

theorem values_congr (c : Construct) (opener : Nat) (hi : i.rest.length < m) :
    values p c opener i = values q c opener i := by
  refine bind_congr_right ?_
  rw [ensures_eat]
  refine ⟨fun _ => rfl, fun _ => bind_congr (h i hi) ?_⟩
  refine (hp i).mono fun e rs j he => bind_congr_left ?_
  have hle := he.moves.ahead.length_le
  exact collect_congr (valueBehindComma?_advances hp _)
    (fun k hk => valueBehindComma?_congr h hk) j (by omega)

theorem primary_congr (pos : ValuePosition) (hi : i.rest.length ≤ m) :
    primary p pos i = primary q pos i := by
  refine bind_congr_right ?_
  rw [ensures_position]
  refine bind_congr_right ?_
  rw [ensures_kind]
  cases hk : i.kind with
  | fixed f =>
    by_cases hopen : f = .lparen
    · subst hopen
      have hlt := Input.length_next_lt (Input.rest_ne_nil hk)
      refine bind_congr_right ?_
      rw [ensures_next]
      exact bind_congr_left (values_congr hp h _ _ (by omega))
    · cases f <;> first | rfl | exact absurd rfl hopen
  | _ => rfl

theorem arguments?_congr (hi : i.rest.length ≤ m) : arguments? p i = arguments? q i := by
  refine bind_congr_right ?_
  rw [ensures_position]
  refine bind_congr_right ?_
  rw [ensures_check]
  refine ⟨fun hopen => bind_congr_right ?_, fun _ => bind_congr_right ?_⟩
  · have hlt := Input.length_next_lt (Input.rest_ne_nil hopen)
    rw [ensures_afterNewline]
    split
    · refine bind_congr_right ?_
      rw [ensures_next]
      exact bind_congr_left (values_congr hp h _ _ (by omega))
    · rfl
  · simp only [ensures_afterNewline, Bool.false_and, Bool.false_eq_true, ↓reduceIte]

omit h in
theorem arguments?_advances (m : Nat) : AdvancesUpTo m (arguments? p) := by
  intro i _
  refine (arguments?_reads hp i).mono fun l? rs j h hsome => ?_
  cases l? with
  | none => exact absurd hsome (by simp)
  | some l => exact h.1.moves.ahead.length_lt h.2.2

end Lists

section Chains

variable {p q : ValuePosition → Parser (Expr Run)}
variable (hp : ∀ pos i, (p pos).Ensures i (ReadsExpr i))
variable (h : ∀ pos i, i.rest.length < m → p pos i = q pos i)

include hp

theorem operand_congr (h : ∀ pos i, i.rest.length < m → p pos i = q pos i) (pos : ValuePosition)
    (hi : i.rest.length ≤ m) : operand p pos i = operand q pos i := by
  refine bind_congr_right ((collect_signs_reads i).mono fun signs rs j hsigns => ?_)
  have hij := hsigns.2.1.length_le
  refine bind_congr (primary_congr (hp _) (h _) _ (by omega)) ?_
  refine (primary_reads (hp _) _ j).mono fun callee rs' k hcallee => bind_congr_left ?_
  have hjk := hcallee.1.moves.ahead.length_le
  exact collect_congr (arguments?_advances (hp _) m) (fun l hl => arguments?_congr (hp _) (h _) hl)
    k (by omega)

theorem link?_advances (m : Nat) : AdvancesUpTo m (link? p) := by
  intro i _
  simp only [link?, ensures_bind, ensures_kind]
  cases hop : BinaryOperator.ofKind? i.kind with
  | some op =>
    have hlt := Input.length_next_lt (Input.rest_ne_nil_of_binary hop)
    simp only [ensures_bind, ensures_next, ensures_pure]
    refine (operand_reads hp _ i.next).mono fun right rs j hright _ => ?_
    have hle := hright.1.moves.ahead.length_le
    omega
  | none =>
    rw [ensures_pure]
    exact fun hsome => absurd hsome (by simp)

include h

theorem link?_congr (hi : i.rest.length ≤ m) : link? p i = link? q i := by
  refine bind_congr_right ?_
  rw [ensures_kind]
  cases hop : BinaryOperator.ofKind? i.kind with
  | some op =>
    have hlt := Input.length_next_lt (Input.rest_ne_nil_of_binary hop)
    refine bind_congr_right ?_
    rw [ensures_next]
    exact bind_congr_left (operand_congr hp h _ (by omega))
  | none => rfl

theorem chain_congr (pos : ValuePosition) (hi : i.rest.length ≤ m) :
    chain p pos i = chain q pos i := by
  refine bind_congr (operand_congr hp h pos hi) ?_
  refine (operand_reads hp pos i).mono fun first rs j hfirst => bind_congr_left ?_
  have hle := hfirst.1.moves.ahead.length_le
  exact collect_congr (link?_advances hp m) (fun k hk => link?_congr hp h hk) j (by omega)

end Chains

section Expressions

variable {p q : Reach → ValuePosition → Parser (Expr Run)}
variable (hp : ∀ reach pos i, (p reach pos).Ensures i (ReadsExpr i))
variable (h : ∀ reach pos i, i.rest.length < m → p reach pos i = q reach pos i)

theorem otherwise_congr {branch branch' : Parser (Expr Run)}
    (h : ∀ i, i.rest.length < m → branch i = branch' i) (quiet : Bool) (hi : i.rest.length ≤ m) :
    otherwise branch quiet i = otherwise branch' quiet i := by
  refine bind_congr_right ?_
  simp only [ensures_eat, ↓reduceIte, Bool.false_eq_true, implies_true, and_true]
  intro hcolon
  have hlt := Input.length_next_lt (Input.rest_ne_nil hcolon)
  exact h _ (by omega)

theorem quietly_congr {r s : Parser α} (h : r i = s i) : quietly r i = quietly s i := by
  simp only [quietly, h]

include hp h

theorem ternary_congr (pos : ValuePosition) (hi : i.rest.length ≤ m) :
    ternary p pos i = ternary q pos i := by
  refine bind_congr_right ?_
  rw [ensures_position]
  refine bind_congr (chain_congr (hp _) (h _) pos hi) ?_
  refine (chain_reads (hp _) pos i).mono fun cond rs j hcond => bind_congr_right ?_
  have hij := hcond.1.moves.ahead.length_le
  simp only [ensures_eat, ↓reduceIte, Bool.false_eq_true, implies_true, and_true]
  intro hmark
  have hlt := Input.length_next_lt (Input.rest_ne_nil hmark)
  refine bind_congr (quietly_congr (h _ _ _ (by omega))) ?_
  rw [ensures_quietly]
  refine (hp _ _ _).mono fun whenTrue rs' k htrue => bind_congr_left ?_
  have hjk := htrue.moves.ahead.length_le
  exact otherwise_congr (h _ _) _ (by omega)

theorem assignment_congr (pos : ValuePosition) (hi : i.rest.length ≤ m) :
    assignment p pos i = assignment q pos i := by
  refine bind_congr_right ?_
  rw [ensures_position]
  refine bind_congr (ternary_congr hp h pos hi) ?_
  refine (ternary_reads hp pos i).mono fun target rs j htarget => bind_congr_right ?_
  have hij := htarget.1.moves.ahead.length_le
  simp only [ensures_eat, ↓reduceIte, Bool.false_eq_true, implies_true, and_true]
  intro hmark
  have hlt := Input.length_next_lt (Input.rest_ne_nil hmark)
  exact bind_congr_left (h _ _ _ (by omega))

end Expressions

/-- **More levels than terminals are never used up.**  Any two such numbers give the same. -/
theorem exprWithin_congr : ∀ (n k : Nat) (reach : Reach) (pos : ValuePosition) (i : Input),
    i.rest.length < n → i.rest.length < k → exprWithin n reach pos i = exprWithin k reach pos i
  | 0, _, _, _, _, hn, _ => absurd hn (Nat.not_lt_zero _)
  | _ + 1, 0, _, _, _, _, hk => absurd hk (Nat.not_lt_zero _)
  | n + 1, k + 1, .full, pos, i, hn, hk =>
    assignment_congr (exprWithin_reads n)
      (fun reach pos j hj => exprWithin_congr n k reach pos j (by omega) (by omega)) pos
      (Nat.le_refl _)
  | n + 1, k + 1, .ternary, pos, i, hn, hk =>
    ternary_congr (exprWithin_reads n)
      (fun reach pos j hj => exprWithin_congr n k reach pos j (by omega) (by omega)) pos
      (Nat.le_refl _)

/-- **An expression is an assignment of expressions,** without any bound. -/
theorem expr_full_eq (pos : ValuePosition) : expr .full pos = assignment expr pos := by
  refine Parser.ext fun i => ?_
  rw [expr_full]
  exact assignment_congr (exprWithin_reads _)
    (fun reach pos j hj => exprWithin_congr _ _ reach pos j hj (Nat.lt_succ_self _)) pos
    (Nat.le_refl _)

/-- **A ternary is a ternary of expressions,** without any bound. -/
theorem expr_ternary_eq (pos : ValuePosition) : expr .ternary pos = ternary expr pos := by
  refine Parser.ext fun i => ?_
  rw [expr_ternary]
  exact ternary_congr (exprWithin_reads _)
    (fun reach pos j hj => exprWithin_congr _ _ reach pos j hj (Nat.lt_succ_self _)) pos
    (Nat.le_refl _)

/-- **Induction over expressions.**  The expressions inside one have fewer terminals left. -/
theorem expr_induction {P : Reach → Parser (Expr Run) → Input → Prop}
    (full : ∀ pos i, (∀ reach pos j, j.rest.length < i.rest.length → P reach (expr reach pos) j) →
      P .full (assignment expr pos) i)
    (short : ∀ pos i, (∀ reach pos j, j.rest.length < i.rest.length → P reach (expr reach pos) j) →
      P .ternary (ternary expr pos) i)
    (reach : Reach) (pos : ValuePosition) (i : Input) : P reach (expr reach pos) i := by
  have hinner : ∀ reach pos j, j.rest.length < i.rest.length → P reach (expr reach pos) j :=
    fun reach pos j _ => expr_induction full short reach pos j
  cases reach with
  | full =>
    rw [expr_full_eq]
    exact full pos i hinner
  | ternary =>
    rw [expr_ternary_eq]
    exact short pos i hinner
termination_by i.rest.length

/-! ## 3. Statements -/

section Statements

variable {p q : Parser (Stmt Run)}
variable (hp : ∀ i, i.rest.length < m → p.Ensures i (ReadsStmt i))
variable (h : ∀ i, i.rest.length < m → p i = q i)

include h in
theorem item_congr (c : Construct) (hi : i.rest.length < m) : item p c i = item q c i := by
  refine bind_congr_right ?_
  rw [ensures_kind]
  split
  · exact bind_congr_left (h i hi)
  · rfl

include h in
theorem blockItem?_congr (opener : Nat) (hi : i.rest.length < m) :
    blockItem? p opener i = blockItem? q opener i := by
  refine bind_congr_right ?_
  rw [ensures_eat]
  refine ⟨fun _ => rfl, fun _ => bind_congr_right ?_⟩
  rw [ensures_atEnd]
  exact ⟨fun _ => rfl, fun _ => bind_congr_left (item_congr h _ hi)⟩

include hp h

theorem block_congr (hi : i.rest.length ≤ m) (hopen : i.kind = .fixed .lbrace) :
    block p i = block q i := by
  have hlt := Input.length_next_lt (Input.rest_ne_nil hopen)
  refine bind_congr_right ?_
  rw [ensures_position]
  refine bind_congr_right ?_
  rw [ensures_next]
  refine bind_congr_left (collect_congr ?_ (fun k hk => ?_) i.next (Nat.le_refl _))
  · exact blockItem?_advances hp (Nat.lt_of_lt_of_le hlt hi) _
  · exact blockItem?_congr h _ (by omega)

theorem body_congr (owner : Owner) (hi : i.rest.length ≤ m) : body p owner i = body q owner i := by
  refine bind_congr_right ((headerTail_moves owner _ i).mono fun _ rs j hj => bind_congr_right ?_)
  have hle := hj.ahead.length_le
  simp only [ensures_check, ↓reduceIte, Bool.false_eq_true, implies_true, and_true]
  exact fun hopen => block_congr hp h (by omega) hopen

theorem alternative_congr (hi : i.rest.length < m) : alternative p i = alternative q i := by
  refine bind_congr_right ?_
  rw [ensures_check]
  exact ⟨fun _ => bind_congr_left (h i hi),
    fun _ => bind_congr_left (body_congr hp h _ (Nat.le_of_lt hi))⟩

theorem ifStatement_congr (hi : i.rest.length ≤ m) : ifStatement p i = ifStatement q i := by
  refine bind_congr_right ?_
  rw [ensures_position]
  refine bind_congr_right ?_
  rw [ensures_next]
  have hnext := i.ahead_next.length_le
  refine bind_congr_right ((conditions_reads _ i.next).mono fun cs rs j hcs => ?_)
  have hij := hcs.1.ahead.length_le
  refine bind_congr (body_congr hp h _ (by omega)) ?_
  refine (body_reads hp (by omega) _).mono fun b rs' k hb => bind_congr_right ?_
  have hjk := hb.moves.ahead.length_le
  simp only [ensures_eat, ↓reduceIte, Bool.false_eq_true, implies_true, and_true]
  intro helse
  have hlt := Input.length_next_lt (Input.rest_ne_nil helse)
  exact bind_congr_left (alternative_congr hp h (by omega))

theorem guardBody_congr (hi : i.rest.length ≤ m) : guardBody p i = guardBody q i := by
  refine bind_congr_right ?_
  rw [ensures_eat]
  have hnext := i.ahead_next.length_le
  refine ⟨fun _ => body_congr hp h _ (by omega), fun _ => bind_congr_right ?_⟩
  rw [ensures_reportHere]
  refine bind_congr_right ?_
  simp only [ensures_check, ↓reduceIte, Bool.false_eq_true, implies_true, and_true]
  exact fun hopen => block_congr hp h hi hopen

theorem guardStatement_congr (hi : i.rest.length ≤ m) :
    guardStatement p i = guardStatement q i := by
  refine bind_congr_right ?_
  rw [ensures_position]
  refine bind_congr_right ?_
  rw [ensures_next]
  have hnext := i.ahead_next.length_le
  refine bind_congr_right ((conditions_reads _ i.next).mono fun cs rs j hcs => ?_)
  have hij := hcs.1.ahead.length_le
  refine bind_congr_right ((headerTail_moves _ _ j).mono fun _ rs' k hk => bind_congr_left ?_)
  have hjk := hk.ahead.length_le
  exact guardBody_congr hp h (by omega)

theorem whileStatement_congr (hi : i.rest.length ≤ m) :
    whileStatement p i = whileStatement q i := by
  refine bind_congr_right ?_
  rw [ensures_position]
  refine bind_congr_right ?_
  rw [ensures_next]
  have hnext := i.ahead_next.length_le
  refine bind_congr_right ((conditions_reads _ i.next).mono fun cs rs j hcs => bind_congr_left ?_)
  have hij := hcs.1.ahead.length_le
  exact body_congr hp h _ (by omega)

theorem statement_congr (hi : i.rest.length ≤ m) : statement p i = statement q i := by
  refine bind_congr_right ?_
  rw [ensures_kind]
  cases i.kind with
  | fixed f =>
    cases f with
    | ifWord => exact ifStatement_congr hp h hi
    | guardWord => exact guardStatement_congr hp h hi
    | whileWord => exact whileStatement_congr hp h hi
    | _ => rfl
  | _ => rfl

end Statements

/-- **More levels than terminals are never used up** by statements either. -/
theorem stmtWithin_congr : ∀ (n k : Nat) (i : Input),
    i.rest.length < n → i.rest.length < k → stmtWithin n i = stmtWithin k i
  | 0, _, _, hn, _ => absurd hn (Nat.not_lt_zero _)
  | _ + 1, 0, _, _, hk => absurd hk (Nat.not_lt_zero _)
  | n + 1, k + 1, i, hn, hk => by
    refine statement_congr (m := i.rest.length) (fun j hj => ?_) (fun j hj => ?_) (Nat.le_refl _)
    · exact stmtWithin_reads n j (by omega)
    · exact stmtWithin_congr n k j (by omega) (by omega)

/-- **A statement holds statements,** without any bound. -/
theorem stmt_eq : stmt = statement stmt := by
  refine Parser.ext fun i => ?_
  have hunfold : stmt i = statement (stmtWithin i.rest.length) i := rfl
  rw [hunfold]
  exact statement_congr (stmtWithin_reads _)
    (fun j hj => stmtWithin_congr _ _ j hj (Nat.lt_succ_self _)) (Nat.le_refl _)

/-- **Induction over statements.**  The statements inside one have fewer terminals left. -/
theorem stmt_induction {P : Parser (Stmt Run) → Input → Prop}
    (h : ∀ i, (∀ j, j.rest.length < i.rest.length → P stmt j) → P (statement stmt) i)
    (i : Input) : P stmt i := by
  have hinner : ∀ j, j.rest.length < i.rest.length → P stmt j := fun j _ => stmt_induction h j
  rw [stmt_eq]
  exact h i hinner
termination_by i.rest.length

end Parser

end PlatformGate
