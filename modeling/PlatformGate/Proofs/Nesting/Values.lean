/-
# Expressions are read nested

One statement for each parser of expressions: what it builds stands over exactly the terminals it
took, and its parts stand behind each other inside (`Covers`).  A list of parts that was read stands
in a row (`Fills`), and rows read one after the other make one row; so a node is as it should be as
soon as one terminal of its own was taken.

Grouping a chain by the power of its operators moves operands between nodes.  Between two operands
an operator was taken, which is what keeps the new nodes from being empty (`Across.graft`).
-/
import PlatformGate.Proofs.Parse.Headers
import PlatformGate.Proofs.Nesting.Outline

namespace PlatformGate

/-- What it means to read some parts from `i` up to `j`. -/
structure Fills (i : Input) (os : List (Outline Run)) (j : Input) : Prop where
  ahead : i.Ahead j
  row : Outline.Row i.position j.position os

/-- What it means to read a node from `i` up to `j`. -/
structure Covers (i : Input) (o : Outline Run) (j : Input) : Prop where
  ahead : i.Ahead j
  across : o.Across i.position j.position

section Reading

variable {i j k : Input} {o : Outline Run} {os os' : List (Outline Run)}

/-- Terminals that were taken for nothing make an empty row. -/
theorem Fills.of_ahead (h : i.Ahead j) : Fills i [] j := ⟨h, h.position_le⟩

theorem Fills.append (h : Fills i os j) (h' : Fills j os' k) : Fills i (os ++ os') k :=
  ⟨h.ahead.trans h'.ahead, h.row.append h'.row⟩

theorem Fills.then_ahead (h : Fills i os j) (h' : j.Ahead k) : Fills i os k :=
  ⟨h.ahead.trans h', h.row.widen (Nat.le_refl _) h'.position_le⟩

theorem Fills.after_ahead (h : i.Ahead j) (h' : Fills j os k) : Fills i os k :=
  ⟨h.trans h'.ahead, h'.row.widen h.position_le (Nat.le_refl _)⟩

theorem Fills.position_le (h : Fills i os j) : i.position ≤ j.position := h.ahead.position_le

theorem Covers.fills (h : Covers i o j) : Fills i [o] j := ⟨h.ahead, h.across.row⟩

/-- A node over all that was read, if a terminal was. -/
theorem Fills.covers {hollow : Bool} (h : Fills i os j) (hlt : i.position < j.position) :
    Covers i (.node hollow ⟨i.position, j.position⟩ os) j :=
  ⟨h.ahead, .node hlt h.row⟩

/-- A node over a terminal and what was read behind it. -/
theorem Fills.covers_behind {hollow : Bool} (hne : i.rest ≠ []) (h : Fills i.next os j) :
    Covers i (.node hollow ⟨i.position, j.position⟩ os) j :=
  (Fills.after_ahead i.ahead_next h).covers
    (Nat.lt_of_lt_of_le (Input.position_lt_next hne) h.position_le)

/-- A hollow node in front of the next terminal. -/
theorem Covers.hollow (i : Input) : Covers i (.node true (Run.point i.position) []) i :=
  ⟨.refl i, rfl, fun _ => rfl, Nat.le_refl _⟩

/-- A node over the next terminal. -/
theorem Covers.terminal {hollow : Bool} (h : i.rest ≠ []) :
    Covers i (.node hollow (Run.token i.position) []) i.next := by
  have hcovers : Covers i (.node hollow ⟨i.position, i.next.position⟩ []) i.next :=
    (Fills.of_ahead (.refl i.next)).covers_behind h
  rw [Input.position_next h] at hcovers
  exact hcovers

end Reading

namespace Expr

/-! ## 1. Expressions made of others -/

/-- The outline of grouped values is the values under one node. -/
theorem outline_grouped (place : Run) (es : List (Expr Run)) :
    (Parser.grouped place es).outline = .node false place (es.map outline) := by
  unfold Parser.grouped
  split
  · rfl
  · rw [outline, outlines_eq_map]

/-- A new operator over all of an expression and a right operand behind it. -/
theorem across_operator {op : BinaryOperator} {e right : Expr Run} {lo mid mid' hi : Nat}
    (h : e.outline.Across lo mid) (hmid : mid < mid') (hright : right.outline.Across mid' hi) :
    (Expr.binary op e right (e.place.through right.place)).outline.Across lo hi := by
  have hplace : e.place.through right.place = ⟨lo, hi⟩ := by
    rw [← place_outline e, ← place_outline right, h.place, hright.place]
    rfl
  have hlo := h.le
  have hle := hright.le
  rw [outline, hplace]
  have hrow : Outline.Row mid hi [right.outline] :=
    hright.row.widen (Nat.le_of_lt hmid) (Nat.le_refl _)
  exact .node (by omega) (h.row.append hrow)

/-- **A grafted operator keeps the nodes nested.**  The operator stands between the expression and
its right operand. -/
theorem across_graft {op : BinaryOperator} {right : Expr Run} {mid' hi : Nat}
    (hright : right.outline.Across mid' hi) : ∀ {lo mid : Nat} (e : Expr Run),
      e.outline.Across lo mid → mid < mid' → (graft op right e).outline.Across lo hi
  | lo, mid, .binary o l r p, h, hmid => by
    have hlo := h.le
    have hle := hright.le
    unfold graft
    split
    · obtain rfl : p = ⟨lo, mid⟩ := h.place
      obtain ⟨hfirst, hl, hmiddle, hr, hpast⟩ := h.nested.2
      -- the operator moves into the right operand, wherever that ends
      have hinner : (graft op right r).outline.Across r.outline.place.first hi :=
        across_graft hright r ⟨rfl, hr⟩ (Nat.lt_of_le_of_lt hpast hmid)
      have hplace : (⟨lo, mid⟩ : Run).through right.place = ⟨lo, hi⟩ := by
        rw [← place_outline right, hright.place]
        rfl
      rw [outline, hplace]
      exact .node (by omega)
        ⟨hfirst, hl, hinner.row.widen hmiddle (Nat.le_refl _)⟩
    · exact across_operator h hmid hright
  | _, _, .int .., h, hmid | _, _, .bool .., h, hmid | _, _, .ident .., h, hmid
  | _, _, .discard .., h, hmid | _, _, .paren .., h, hmid | _, _, .tuple .., h, hmid
  | _, _, .call .., h, hmid | _, _, .unary .., h, hmid | _, _, .ternary .., h, hmid
  | _, _, .assign .., h, hmid | _, _, .error .., h, hmid => across_operator h hmid hright

end Expr

namespace Parser

variable {i : Input}

/-! ## 2. Primary values -/

/-- What is asked of a parser of expressions. -/
def CoversExpr (i : Input) (e : Expr Run) (_ : List (Report Run)) (j : Input) : Prop :=
  Covers i e.outline j

theorem leftovers_ahead (c : Construct) (stop : TagSet) (lineSensitive : Bool) (i : Input) :
    (leftovers c stop lineSensitive).Ensures i fun _ _ j => i.Ahead j :=
  (leftovers_moves (C := fun _ => True) trivial stop lineSensitive i).mono fun _ _ _ h => h.ahead

theorem unclosed_ahead (c : Construct) (opener : Nat) (resume : TagSet) (i : Input) :
    (unclosed c opener resume).Ensures i fun _ _ j => i.Ahead j := by
  rw [ensures_unclosed]
  exact Input.ahead_skip (probe_le resume i.rest)

theorem missingValue_covers (pos : ValuePosition) (i : Input) :
    (missingValue pos).Ensures i (CoversExpr i) := .hollow i

section Lists

variable {value : Parser (Expr Run)} (hvalue : ∀ i, value.Ensures i (CoversExpr i))

include hvalue

/-- Values with commas in front of them. -/
theorem collect_values_fills :
    ∀ i, (collect (valueBehindComma? value)).Ensures i fun es _ j =>
      Fills i (es.map Expr.outline) j := by
  refine ensures_collect fun i => ?_
  simp only [valueBehindComma?, ensures_bind, ensures_eat, ensures_pure, ↓reduceIte,
    Bool.false_eq_true]
  refine ⟨fun hcomma => ?_, fun _ => .of_ahead (.refl i)⟩
  have hlt := Input.position_lt_next (Input.rest_ne_nil hcomma)
  refine (hvalue i.next).mono fun e rs j he => ?_
  have hfills := Fills.after_ahead i.ahead_next he.fills
  have hle := he.fills.position_le
  exact ⟨hfills.ahead.length_lt (by omega), fun es rs' k hes => hfills.append hes⟩

theorem values_fills (c : Construct) (opener : Nat) (i : Input) :
    (values value c opener).Ensures i fun es _ j => Fills i (es.map Expr.outline) j := by
  simp only [values, ensures_bind, ensures_eat, ensures_pure, ↓reduceIte, Bool.false_eq_true]
  refine ⟨fun _ => .of_ahead i.ahead_next, fun _ => ?_⟩
  refine (hvalue i).mono fun e rs j he => ?_
  refine (collect_values_fills hvalue j).mono fun es rs₁ k hes => ?_
  refine (leftovers_ahead c _ false k).mono fun _ rs₂ l hl => ?_
  have hfills := (he.fills.append hes).then_ahead hl
  refine ⟨fun _ => hfills.then_ahead l.ahead_next, fun _ => ?_⟩
  exact (unclosed_ahead c opener _ l).mono fun _ _ m hm => hfills.then_ahead hm

/-- **A primary value** covers what was read for it. -/
theorem primary_covers (pos : ValuePosition) (i : Input) :
    (primary value pos).Ensures i (CoversExpr i) := by
  simp only [primary, ensures_bind, ensures_position, ensures_kind]
  split
  case h_1 v hk | h_2 hk | h_3 hk | h_4 name hk | h_5 hk =>
    exact .terminal (Input.rest_ne_nil_of_kind (by simp [hk]))
  case h_6 hk =>
    simp only [ensures_bind, ensures_next, ensures_runFrom, ensures_pure]
    refine (values_fills hvalue .tuple _ i.next).mono fun es rs j hes => ?_
    unfold CoversExpr
    rw [Expr.outline_grouped]
    exact hes.covers_behind (Input.rest_ne_nil hk)
  case h_7 hk => exact .terminal (Input.rest_ne_nil_of_kind (by simp [hk]))
  case h_8 => exact missingValue_covers pos i

end Lists

/-! ## 3. Operands and chains -/

/-- Argument lists behind a callee.  Each takes its opening parenthesis at least. -/
theorem collect_arguments_covers {arg : Parser (Expr Run)}
    (harg : ∀ i, arg.Ensures i (CoversExpr i)) :
    ∀ i, (collect (arguments? arg)).Ensures i fun lists _ j => i.Ahead j ∧
      ∀ lo callee, callee.outline.Across lo i.position →
        (Expr.ofCalls callee lists).outline.Across lo j.position := by
  refine ensures_collect fun i => ?_
  simp only [arguments?, ensures_bind, ensures_position, ensures_check, ensures_afterNewline]
  refine ⟨fun hopen => ?_, fun _ => ⟨.refl i, fun _ _ h => h⟩⟩
  split
  · have hlt := Input.position_lt_next (Input.rest_ne_nil hopen)
    simp only [ensures_bind, ensures_next, ensures_position, ensures_pure]
    refine (values_fills harg .call _ i.next).mono fun es rs j hes => ?_
    have hfills := Fills.after_ahead i.ahead_next hes
    have hle := hes.position_le
    refine ⟨hfills.ahead.length_lt (by omega), fun lists rs' k hlists => ?_⟩
    refine ⟨hfills.ahead.trans hlists.1, fun lo callee hcallee => hlists.2 lo _ ?_⟩
    have hlo := hcallee.le
    have hfirst : callee.place.first = lo := by
      rw [← Expr.place_outline, hcallee.place]
    rw [Expr.outline, Expr.outlines_eq_map, hfirst]
    exact .node (by omega) (hcallee.row.append hfills.row)
  · exact ⟨.refl i, fun _ _ h => h⟩

/-- Signs in front of a value. -/
theorem collect_signs_covers :
    ∀ i, (collect sign?).Ensures i fun signs _ j => i.Ahead j ∧
      ∀ hi e, e.outline.Across j.position hi →
        (Expr.ofSigns signs e).outline.Across i.position hi := by
  refine ensures_collect fun i => ?_
  simp only [sign?, ensures_bind, ensures_position, ensures_kind]
  cases hsign : UnaryOperator.ofKind? i.kind with
  | none => exact ⟨.refl i, fun _ _ h => h⟩
  | some op =>
    simp only [ensures_bind, ensures_next, ensures_pure]
    have hlt := Input.position_lt_next (Input.rest_ne_nil_of_unary hsign)
    refine ⟨i.ahead_next.length_lt hlt, fun signs rs' k h => ?_⟩
    refine ⟨i.ahead_next.trans h.1, fun hi e he => ?_⟩
    have hinner := h.2 hi e he
    have hle := hinner.le
    have hplace : (Expr.ofSigns signs e).place = ⟨i.next.position, hi⟩ := by
      rw [← Expr.place_outline, hinner.place]
    change (Outline.node false ⟨i.position, (Expr.ofSigns signs e).place.past⟩ _).Across _ _
    rw [hplace]
    exact .node (by omega) (hinner.row.widen (Nat.le_of_lt hlt) (Nat.le_refl _))

section Chains

variable {inner : ValuePosition → Parser (Expr Run)}
variable (hinner : ∀ pos i, (inner pos).Ensures i (CoversExpr i))

include hinner

theorem operand_covers (pos : ValuePosition) (i : Input) :
    (operand inner pos).Ensures i (CoversExpr i) := by
  simp only [operand, ensures_bind, ensures_pure]
  refine (collect_signs_covers i).mono fun signs rs j hsigns => ?_
  refine (primary_covers (hinner _) _ j).mono fun callee rs₁ k hcallee => ?_
  refine (collect_arguments_covers (hinner _) k).mono fun lists rs₂ l hlists => ?_
  have hcall := hlists.2 _ _ hcallee.across
  exact ⟨hsigns.1.trans (hcallee.ahead.trans hlists.1), hsigns.2 _ _ hcall⟩

/-- Operators with their right operands. -/
theorem collect_links_covers :
    ∀ i, (collect (link? inner)).Ensures i fun links _ j => i.Ahead j ∧
      ∀ lo first, first.outline.Across lo i.position →
        (Expr.ofChain first links).outline.Across lo j.position := by
  refine ensures_collect fun i => ?_
  simp only [link?, ensures_bind, ensures_kind]
  cases hop : BinaryOperator.ofKind? i.kind with
  | none => exact ⟨.refl i, fun _ _ h => h⟩
  | some op =>
    simp only [ensures_bind, ensures_next, ensures_pure]
    have hlt := Input.position_lt_next (Input.rest_ne_nil_of_binary hop)
    refine (operand_covers hinner _ i.next).mono fun right rs j hright => ?_
    have hle := hright.fills.position_le
    have hahead := i.ahead_next.trans hright.ahead
    refine ⟨hahead.length_lt (by omega), fun links rs' k hlinks => ?_⟩
    refine ⟨hahead.trans hlinks.1, fun lo first hfirst => hlinks.2 lo _ ?_⟩
    exact Expr.across_graft hright.across first hfirst hlt

theorem chain_covers (pos : ValuePosition) (i : Input) :
    (chain inner pos).Ensures i (CoversExpr i) := by
  simp only [chain, ensures_bind, ensures_pure]
  refine (operand_covers hinner pos i).mono fun first rs j hfirst => ?_
  refine (collect_links_covers hinner j).mono fun links rs' k hlinks => ?_
  exact ⟨hfirst.ahead.trans hlinks.1, hlinks.2 _ _ hfirst.across⟩

end Chains

/-! ## 4. Whole expressions -/

section Expressions

variable {inner : Reach → ValuePosition → Parser (Expr Run)}
variable (hinner : ∀ reach pos i, (inner reach pos).Ensures i (CoversExpr i))

/-- What stands behind `:`, or in its place. -/
theorem otherwise_fills {branch : Parser (Expr Run)}
    (hbranch : ∀ i, branch.Ensures i (CoversExpr i)) (quiet : Bool) (i : Input) :
    (otherwise branch quiet).Ensures i fun e _ j => Fills i [e.outline] j := by
  simp only [otherwise, ensures_bind, ensures_eat, ↓reduceIte, Bool.false_eq_true]
  refine ⟨fun hcolon => ?_, fun _ => ?_⟩
  · exact (hbranch i.next).mono fun e rs j he => .after_ahead i.ahead_next he.fills
  · split
    · exact (Covers.hollow i).fills
    · exact (Covers.hollow i).fills

include hinner

theorem ternary_covers (pos : ValuePosition) (i : Input) :
    (ternary inner pos).Ensures i (CoversExpr i) := by
  simp only [ternary, ensures_bind, ensures_position, ensures_eat, ↓reduceIte,
    Bool.false_eq_true, ensures_quietly, ensures_runFrom, ensures_pure]
  refine (chain_covers (hinner .full) pos i).mono fun cond rs j hcond => ?_
  refine ⟨fun hmark => ?_, fun _ => hcond⟩
  refine (hinner .ternary .ternary j.next).mono fun whenTrue rs₁ k htrue => ?_
  refine (otherwise_fills (hinner .ternary .ternary) rs₁.isEmpty k).mono
    fun whenFalse rs₂ l hfalse => ?_
  have hlt := Input.position_lt_next (Input.rest_ne_nil hmark)
  have hij := hcond.fills.position_le
  have hjk := htrue.fills.position_le
  have hkl := hfalse.position_le
  have hparts := hcond.fills.append
    (.after_ahead j.ahead_next (htrue.fills.append hfalse))
  exact hparts.covers (by omega)

theorem assignment_covers (pos : ValuePosition) (i : Input) :
    (assignment inner pos).Ensures i (CoversExpr i) := by
  simp only [assignment, ensures_bind, ensures_position, ensures_eat, ↓reduceIte,
    Bool.false_eq_true, ensures_runFrom, ensures_pure]
  refine (ternary_covers hinner pos i).mono fun target rs j htarget => ?_
  refine ⟨fun hmark => ?_, fun _ => htarget⟩
  refine (hinner .full .assignment j.next).mono fun value rs₁ k hvalue => ?_
  have hlt := Input.position_lt_next (Input.rest_ne_nil hmark)
  have hij := htarget.fills.position_le
  have hjk := hvalue.fills.position_le
  have hparts := htarget.fills.append (.after_ahead j.ahead_next hvalue.fills)
  exact hparts.covers (by omega)

end Expressions

theorem exprWithin_covers (n : Nat) (reach : Reach) (pos : ValuePosition) (i : Input) :
    (exprWithin n reach pos).Ensures i (CoversExpr i) := by
  induction n generalizing reach pos i with
  | zero => exact missingValue_covers pos i
  | succ n ih =>
    cases reach with
    | full => exact assignment_covers ih pos i
    | ternary => exact ternary_covers ih pos i

/-- **Every expression is read nested.** -/
theorem expr_covers (reach : Reach) (pos : ValuePosition) (i : Input) :
    (expr reach pos).Ensures i (CoversExpr i) :=
  (exprWithin_covers _ reach pos i).of_eq rfl

end Parser

end PlatformGate
