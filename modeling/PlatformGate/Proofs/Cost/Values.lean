/-
# An expression pays for itself

The credit that an expression needs is the price of a value that is missing: one report and one
placeholder (`PaysValue`).  An expression that begins with a terminal of its own needs none, and
leaves the price of a statement over (`PaysExpr.starts`), which is what a statement that is nothing
but an expression lives on.

The dearest terminal is `?`: behind it both branches can be missing, and the ternary is a node as
well.  A sign begins an expression even if the value behind it is missing; then one of the signs pays
for that value, and each for its own node.
-/
import PlatformGate.Proofs.Cost.Tariff

namespace PlatformGate

/-! ## 1. Trees -/

namespace Expr

variable {t : Tariff}

/-- Wherever the operator is grafted, it is one more node. -/
theorem cost_graft (op : BinaryOperator) (right : Expr Run) : ∀ e : Expr Run,
    (graft op right e).cost t = e.cost t + right.cost t + t.expr
  | .binary o l r p => by
    unfold graft
    split
    · simp only [cost, cost_graft op right r]
      omega
    · simp only [cost]
  | .int .. | .bool .. | .ident .. | .discard .. | .paren .. | .tuple .. | .call .. | .unary ..
  | .ternary .. | .assign .. | .error .. => rfl

theorem cost_ofSigns (signs : List (UnaryOperator × Nat)) (operand : Expr Run) :
    (ofSigns signs operand).cost t = operand.cost t + t.expr * signs.length := by
  induction signs with
  | nil => rfl
  | cons s signs ih =>
    have hcons :
        (ofSigns (s :: signs) operand).cost t = (ofSigns signs operand).cost t + t.expr := by
      simp only [ofSigns, List.foldr_cons, cost]
    rw [hcons, ih, List.length_cons, Nat.mul_succ, Nat.add_assoc]

end Expr

/-! ## 2. Accounts of expressions -/

/-- An expression is paid for with the credit of one missing value. -/
def PaysValue (t : Tariff) (i : Input) (e : Expr Run) (rs : List (Report Run)) (j : Input) : Prop :=
  Pays t (t.report + t.expr) (e.cost t) i rs j

/-- What it means that an expression is paid for. -/
structure PaysExpr (t : Tariff) (i : Input) (e : Expr Run) (rs : List (Report Run)) (j : Input) :
    Prop where
  value : PaysValue t i e rs j
  /-- What begins an expression pays for it and for a statement. -/
  starts : TagSet.expressionStart.contains i.kind = true → Pays t 0 (e.cost t + t.stmt) i rs j

namespace Parser

variable {t : Tariff} {i : Input}

theorem errorHere_pays (t : Tariff) (i : Input) :
    errorHere.Ensures i fun e rs j => Pays t t.expr (e.cost t) i rs j :=
  Pays.make t.expr i

theorem missingValue_pays (t : Tariff) (pos : ValuePosition) (i : Input) :
    (missingValue pos).Ensures i (PaysValue t i) := by
  simp only [missingValue, ensures_bind, ensures_position, ensures_report, List.nil_append]
  exact (errorHere_pays t i).mono fun e rs j he => ((Pays.report _ i).trans he).mono (by omega)

section Lists

variable {value : Parser (Expr Run)}
variable (hvalue : ∀ i, value.Ensures i (PaysValue t i))

include hvalue

/-- The comma pays for the value behind it. -/
theorem valueBehindComma?_pays (i : Input) :
    (valueBehindComma? value).Ensures i fun e? rs j =>
      match e? with
      | none => rs = [] ∧ j = i
      | some e => Pays t 0 (e.cost t) i rs j ∧ j.rest.length < i.rest.length := by
  simp only [valueBehindComma?, ensures_bind, ensures_eat, ensures_pure, ↓reduceIte,
    Bool.false_eq_true, List.nil_append, List.append_nil]
  refine ⟨fun hcomma => ?_, fun _ => ⟨trivial, trivial⟩⟩
  have hne := Input.rest_ne_nil hcomma
  refine (hvalue i.next).mono fun e rs j he => ⟨(he.next hne).mono ?_, he.length_lt hne⟩
  unfold Tariff.token
  omega

theorem collect_values_pays : ∀ i, (collect (valueBehindComma? value)).Ensures i fun es rs j =>
    Pays t 0 (Expr.costAll t es) i rs j := by
  refine ensures_collect fun i => (valueBehindComma?_pays hvalue i).mono fun e? rs j h => ?_
  cases e? with
  | none =>
    obtain ⟨rfl, rfl⟩ := h
    exact .refl _
  | some e => exact ⟨h.2, fun es rs' k hes => h.1.trans hes⟩

/-- Between parentheses the first value can be missing, and the closing one. -/
theorem values_pays (c : Construct) (opener : Nat) (i : Input) :
    (values value c opener).Ensures i fun es rs j =>
      Pays t (2 * t.report + t.expr) (Expr.costAll t es) i rs j := by
  simp only [values, ensures_bind, ensures_eat, ensures_pure, ↓reduceIte, Bool.false_eq_true,
    List.nil_append, List.append_nil]
  refine ⟨fun _ => ((Pays.refl i).then_next).mono (by simp [Expr.costAll]), fun _ => ?_⟩
  refine (hvalue i).mono fun e rs j he => ?_
  refine (collect_values_pays hvalue j).mono fun es rs₁ k hes => ?_
  refine (leftovers_pays t c _ false k).mono fun _ rs₂ l hl => ?_
  have hall := he.trans (hes.trans hl)
  refine ⟨fun _ => ?_, fun _ => ?_⟩
  · refine hall.then_next.mono ?_
    simp only [Expr.costAll]
    omega
  · refine (unclosed_pays t c opener _ l).mono fun _ rs₃ m hm => ?_
    rw [← List.append_assoc, ← List.append_assoc, List.append_assoc rs]
    refine (hall.trans hm).mono ?_
    simp only [Expr.costAll]
    omega

omit hvalue in
theorem cost_grouped (place : Run) (es : List (Expr Run)) :
    (grouped place es).cost t = Expr.costAll t es + t.expr := by
  unfold grouped
  split <;> rfl

/-- **A primary value.**  The signs in front of it have been read. -/
theorem primary_pays (pos : ValuePosition) (i : Input) :
    (primary value pos).Ensures i fun e rs j => PaysValue t i e rs j ∧
      (UnaryOperator.ofKind? i.kind = none → TagSet.expressionStart.contains i.kind = true →
        Pays t 0 (e.cost t + t.stmt) i rs j) := by
  -- what begins with a terminal needs no credit at all
  have hpaid : ∀ {e : Expr Run} {rs : List (Report Run)} {j : Input},
      Pays t 0 (e.cost t + t.stmt) i rs j → PaysValue t i e rs j ∧
        (UnaryOperator.ofKind? i.kind = none → TagSet.expressionStart.contains i.kind = true →
          Pays t 0 (e.cost t + t.stmt) i rs j) :=
    fun h => ⟨h.mono (by omega), fun _ _ => h⟩
  simp only [primary, ensures_bind, ensures_position, ensures_kind, List.nil_append]
  split
  case h_1 v hk | h_2 hk | h_3 hk | h_4 name hk | h_5 hk =>
    simp only [ensures_bind, ensures_next, ensures_pure, List.nil_append]
    have hne := Input.rest_ne_nil_of_kind (i := i) (by simp [hk])
    refine hpaid (((Pays.refl i.next).next hne).mono ?_)
    simp only [Expr.cost, Tariff.token]
    omega
  case h_6 hk =>
    have hne := Input.rest_ne_nil hk
    simp only [ensures_bind, ensures_next, ensures_runFrom, ensures_pure, List.nil_append,
      List.append_nil]
    refine (values_pays hvalue .tuple _ i.next).mono fun es rs j h => hpaid ((h.next hne).mono ?_)
    simp only [cost_grouped, Tariff.token]
    omega
  case h_7 hk =>
    simp only [ensures_bind, ensures_pure, List.append_nil]
    refine (invalidToken_pays t hk).mono fun place rs j h => hpaid (h.mono ?_)
    simp only [Expr.cost, Tariff.token]
    omega
  case h_8 hnum htrue hfalse hword hdiscard hparen hinvalid =>
    refine (missingValue_pays t pos i).mono fun e rs j h => ⟨h, fun hsign hstart => ?_⟩
    have hnone := not_expressionStart hsign hnum hword htrue hfalse hdiscard hparen hinvalid
    exact absurd (hnone.symm.trans hstart) Bool.false_ne_true

/-! ## 3. Operands and chains -/

/-- The parenthesis of a call pays for the call. -/
theorem arguments?_pays (i : Input) :
    (arguments? value).Ensures i fun l? rs j =>
      match l? with
      | none => rs = [] ∧ j = i
      | some l => Pays t 0 (Expr.costAll t l.1 + t.expr) i rs j ∧
          j.rest.length < i.rest.length := by
  simp only [arguments?, ensures_bind, ensures_position, ensures_check, ensures_afterNewline,
    List.nil_append]
  refine ⟨fun hopen => ?_, fun _ => ?_⟩
  · split
    · have hne := Input.rest_ne_nil hopen
      simp only [ensures_bind, ensures_next, ensures_position, ensures_pure, List.nil_append,
        List.append_nil]
      refine (values_pays hvalue .call _ i.next).mono fun es rs j h => ?_
      refine ⟨(h.next hne).mono ?_, h.length_lt hne⟩
      unfold Tariff.token
      omega
    · exact ⟨rfl, rfl⟩
  · exact ⟨rfl, rfl⟩

/-- Argument lists behind a callee. -/
theorem collect_arguments_pays :
    ∀ i, (collect (arguments? value)).Ensures i fun lists rs j => ∃ cost, Pays t 0 cost i rs j ∧
      ∀ callee, (Expr.ofCalls callee lists).cost t = callee.cost t + cost := by
  refine ensures_collect fun i => (arguments?_pays hvalue i).mono fun l? rs j h => ?_
  cases l? with
  | none =>
    obtain ⟨rfl, rfl⟩ := h
    exact ⟨0, .refl _, fun callee => rfl⟩
  | some l =>
    obtain ⟨hl, hlt⟩ := h
    refine ⟨hlt, fun lists rs' k hlists => ?_⟩
    obtain ⟨cost, hpays, hcost⟩ := hlists
    refine ⟨_, hl.trans hpays, fun callee => (hcost _).trans ?_⟩
    simp only [Expr.cost]
    omega

end Lists

/-- Each sign pays for its own node, and for a missing value and a statement besides. -/
theorem collect_signs_pays (t : Tariff) :
    ∀ i, (collect sign?).Ensures i fun signs rs j =>
      Pays t 0 ((t.report + 2 * t.expr + t.stmt) * signs.length) i rs j := by
  refine ensures_collect fun i => ?_
  simp only [sign?, ensures_bind, ensures_position, ensures_kind, List.nil_append]
  cases hsign : UnaryOperator.ofKind? i.kind with
  | none => exact .refl i
  | some op =>
    simp only [ensures_bind, ensures_next, ensures_pure, List.nil_append]
    have hne := Input.rest_ne_nil_of_unary hsign
    refine ⟨Input.length_next_lt hne, fun signs rs' k h => (h.next hne).mono ?_⟩
    rw [List.length_cons, Nat.mul_succ]
    unfold Tariff.token
    omega

section Chains

variable {inner : ValuePosition → Parser (Expr Run)}
variable (hinner : ∀ pos i, (inner pos).Ensures i (PaysValue t i))

include hinner

theorem operand_pays (pos : ValuePosition) (i : Input) :
    (operand inner pos).Ensures i (PaysExpr t i) := by
  simp only [operand, ensures_bind, ensures_pure, List.append_nil]
  refine ((collect_signs_reads i).and (collect_signs_pays t i)).mono fun signs rs j hsigns => ?_
  obtain ⟨⟨rfl, -, hnone, hnil, -, -⟩, hsigns⟩ := hsigns
  refine (primary_pays (hinner _) _ j).mono fun callee rs₁ k hcallee => ?_
  obtain ⟨hcallee, hstarts⟩ := hcallee
  refine (collect_arguments_pays (hinner _) k).mono fun lists rs₂ l hlists => ?_
  obtain ⟨calls, hcalls, hcost⟩ := hlists
  rw [List.nil_append]
  cases signs with
  | nil =>
    obtain rfl := hnil rfl
    refine ⟨(hcallee.trans hcalls).mono ?_, fun hstart => ?_⟩
    · simp only [Expr.ofSigns, List.foldr_nil, hcost]
      omega
    · refine ((hstarts hnone hstart).trans hcalls).mono ?_
      simp only [Expr.ofSigns, List.foldr_nil, hcost]
      omega
  | cons s signs =>
    -- the first sign pays for the value if that is missing
    have hall : Pays t 0 ((Expr.ofSigns (s :: signs) (Expr.ofCalls callee lists)).cost t + t.stmt) i
        (rs₁ ++ rs₂) l := by
      refine (hsigns.trans (hcallee.trans hcalls)).mono ?_
      have hle : t.expr * signs.length ≤ (t.report + 2 * t.expr + t.stmt) * signs.length :=
        Nat.mul_le_mul_right _ (by omega)
      rw [Expr.cost_ofSigns, hcost, List.length_cons, Nat.mul_succ, Nat.mul_succ]
      omega
    exact ⟨hall.mono (by omega), fun _ => hall⟩

/-- Operators with their right operands pay for themselves. -/
theorem collect_links_pays :
    ∀ i, (collect (link? inner)).Ensures i fun links rs j => ∃ cost, Pays t 0 cost i rs j ∧
      ∀ first, (Expr.ofChain first links).cost t = first.cost t + cost := by
  refine ensures_collect fun i => ?_
  simp only [link?, ensures_bind, ensures_kind, List.nil_append]
  cases hop : BinaryOperator.ofKind? i.kind with
  | none => exact ⟨0, .refl i, fun first => rfl⟩
  | some op =>
    simp only [ensures_bind, ensures_next, ensures_pure, List.nil_append, List.append_nil]
    have hne := Input.rest_ne_nil_of_binary hop
    refine (operand_pays hinner _ i.next).mono fun right rs j hright => ?_
    have hlink : Pays t 0 (right.cost t + t.expr) i rs j := by
      refine (hright.value.next hne).mono ?_
      unfold Tariff.token
      omega
    refine ⟨hright.value.length_lt hne, fun links rs' k hlinks => ?_⟩
    obtain ⟨cost, hpays, hcost⟩ := hlinks
    refine ⟨_, hlink.trans hpays, fun first => (hcost _).trans ?_⟩
    rw [Expr.cost_graft, Nat.add_assoc, Nat.add_assoc, Nat.add_assoc]

theorem chain_pays (pos : ValuePosition) (i : Input) :
    (chain inner pos).Ensures i (PaysExpr t i) := by
  simp only [chain, ensures_bind, ensures_pure, List.append_nil]
  refine (operand_pays hinner pos i).mono fun first rs j hfirst => ?_
  refine (collect_links_pays hinner j).mono fun links rs' k hlinks => ?_
  obtain ⟨cost, hpays, hcost⟩ := hlinks
  refine ⟨(hfirst.value.trans hpays).mono ?_, fun hstart => ?_⟩
  · rw [hcost]
    omega
  · refine ((hfirst.starts hstart).trans hpays).mono ?_
    rw [hcost]
    omega

end Chains

/-! ## 4. Whole expressions -/

/-- What is missing behind another part is reported if that part was quiet. -/
theorem placeholder_pays (t : Tariff) (quiet : Bool) (cause : Cause Run) (i : Input) :
    (if quiet then (do reportHere cause; errorHere) else errorHere : Parser (Expr Run)).Ensures i
      (PaysValue t i) := by
  split
  · simp only [ensures_bind, ensures_reportHere]
    exact (errorHere_pays t i).mono fun e rs j he => ((Pays.report _ i).trans he).mono (by omega)
  · exact (errorHere_pays t i).mono fun e rs j he => he.mono (by omega)

theorem otherwise_pays {branch : Parser (Expr Run)}
    (hbranch : ∀ i, branch.Ensures i (PaysValue t i)) (quiet : Bool) (i : Input) :
    (otherwise branch quiet).Ensures i (PaysValue t i) := by
  simp only [otherwise, ensures_bind, ensures_eat, ↓reduceIte, Bool.false_eq_true,
    List.nil_append]
  refine ⟨fun hcolon => ?_, fun _ => placeholder_pays t quiet .missingColon i⟩
  have hne := Input.rest_ne_nil hcolon
  exact (hbranch i.next).mono fun e rs j he => (he.next hne).mono (by omega)

section Expressions

variable {inner : Reach → ValuePosition → Parser (Expr Run)}
variable (hinner : ∀ reach pos i, (inner reach pos).Ensures i (PaysValue t i))

include hinner

/-- **The mark of a ternary pays for the ternary and for both branches.** -/
theorem ternary_pays (pos : ValuePosition) (i : Input) :
    (ternary inner pos).Ensures i (PaysExpr t i) := by
  simp only [ternary, ensures_bind, ensures_position, ensures_eat, List.nil_append, ↓reduceIte,
    Bool.false_eq_true, ensures_quietly, ensures_runFrom, ensures_pure, List.append_nil]
  refine (chain_pays (hinner .full) pos i).mono fun cond rs j hcond => ?_
  refine ⟨fun hmark => ?_, fun _ => hcond⟩
  have hne := Input.rest_ne_nil hmark
  refine (hinner .ternary .ternary j.next).mono fun whenTrue rs₁ k htrue => ?_
  refine (otherwise_pays (hinner .ternary .ternary) rs₁.isEmpty k).mono
    fun whenFalse rs₂ l hfalse => ?_
  have hbranches : Pays t 0 (whenTrue.cost t + whenFalse.cost t + t.expr) j (rs₁ ++ rs₂) l := by
    refine ((Pays.trans htrue hfalse).next hne).mono ?_
    unfold Tariff.token
    omega
  refine ⟨(hcond.value.trans hbranches).mono ?_, fun hstart => ?_⟩
  · simp only [Expr.cost]
    omega
  · refine ((hcond.starts hstart).trans hbranches).mono ?_
    simp only [Expr.cost]
    omega

theorem assignment_pays (pos : ValuePosition) (i : Input) :
    (assignment inner pos).Ensures i (PaysExpr t i) := by
  simp only [assignment, ensures_bind, ensures_position, ensures_eat, List.nil_append, ↓reduceIte,
    Bool.false_eq_true, ensures_runFrom, ensures_pure, List.append_nil]
  refine (ternary_pays hinner pos i).mono fun target rs j htarget => ?_
  refine ⟨fun hmark => ?_, fun _ => htarget⟩
  have hne := Input.rest_ne_nil hmark
  refine (hinner .full .assignment j.next).mono fun value rs₁ k hvalue => ?_
  have hassigned : Pays t 0 (value.cost t + t.expr) j rs₁ k := by
    refine (hvalue.next hne).mono ?_
    unfold Tariff.token
    omega
  refine ⟨(htarget.value.trans hassigned).mono ?_, fun hstart => ?_⟩
  · simp only [Expr.cost]
    omega
  · refine ((htarget.starts hstart).trans hassigned).mono ?_
    simp only [Expr.cost]
    omega

end Expressions

/-- At every bound on the nesting an expression is paid for. -/
theorem exprWithin_pays (n : Nat) (reach : Reach) (pos : ValuePosition) (i : Input) :
    (exprWithin n reach pos).Ensures i (PaysValue t i) := by
  induction n generalizing reach pos i with
  | zero => exact missingValue_pays t pos i
  | succ n ih =>
    cases reach with
    | full => exact (assignment_pays ih pos i).mono fun _ _ _ h => h.value
    | ternary => exact (ternary_pays ih pos i).mono fun _ _ _ h => h.value

/-- **An expression pays for itself,** but for the price of a missing value. -/
theorem expr_pays (t : Tariff) (reach : Reach) (pos : ValuePosition) (i : Input) :
    (expr reach pos).Ensures i (PaysExpr t i) := by
  cases reach with
  | full => exact (assignment_pays (exprWithin_pays _) pos i).of_eq (expr_full pos i)
  | ternary => exact (ternary_pays (exprWithin_pays _) pos i).of_eq (expr_ternary pos i)

end Parser

end PlatformGate
