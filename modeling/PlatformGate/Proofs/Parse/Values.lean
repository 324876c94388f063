/-
# Reading an expression moves forward

One statement for each parser of expressions: it moves forward, every node it builds stands between
the first terminal it took and the last, and the root stands over all of them (`ReadsExpr`).  An
expression that can begin with the next terminal takes at least that one (`Starts`), which is what
keeps the loops around it going.

`exprWithin` recurs on a number of levels.  `ReadsExpr` holds at level 0 as well, where a value is
merely missing; so one induction on that number carries it to `expr_reads`.
-/
import PlatformGate.Proofs.Parse.Motion
import PlatformGate.Proofs.Parse.Places

namespace PlatformGate

/-- What can be wrong inside a line: anything but leftovers between statements. -/
def Cause.Inner {ρ : Type} : Cause ρ → Prop
  | .leftover .block | .leftover .topLevel => False
  | _ => True

/-- What it means to read an expression from `i` up to `j`. -/
structure ReadsExpr (i : Input) (e : Expr Run) (rs : List (Report Run)) (j : Input) : Prop where
  moves : Moves Cause.Inner i rs j
  spans : e.Spans i.position j.position

/-- What it means to read a list of expressions. -/
structure ReadsList (i : Input) (es : List (Expr Run)) (rs : List (Report Run)) (j : Input) :
    Prop where
  moves : Moves Cause.Inner i rs j
  inside : Expr.EverywhereAll (Run.Within i.position j.position) es

/-- A terminal that can begin an expression has been taken. -/
def Starts (i j : Input) : Prop :=
  TagSet.expressionStart.contains i.kind = true → i.position < j.position

namespace Parser

variable {i : Input}

/-! ## 1. Primary values -/

theorem missingValue_reads (pos : ValuePosition) (i : Input) :
    (missingValue pos).Ensures i fun e rs j => ReadsExpr i e rs j ∧ j = i :=
  ⟨⟨.single (.refl i) ⟨Nat.le_refl _, Nat.le_refl _, rfl⟩ trivial,
    ⟨rfl, Run.within_self (Nat.le_refl _)⟩⟩, rfl⟩

/-- A value that is one terminal. -/
theorem reads_terminal {e : Expr Run} (h : i.rest ≠ [])
    (hplace : e.place = ⟨i.position, i.position + 1⟩)
    (hinside : e.Everywhere (Run.Within i.position (i.position + 1))) :
    ReadsExpr i e [] i.next where
  moves := .next i
  spans := by
    rw [Input.position_next h]
    exact ⟨hplace, hinside⟩

section Lists

variable {value : Parser (Expr Run)}

theorem valueBehindComma?_reads (hvalue : ∀ i, value.Ensures i (ReadsExpr i)) (i : Input) :
    (valueBehindComma? value).Ensures i fun e? rs j =>
      match e? with
      | none => rs = [] ∧ j = i
      | some e => Moves Cause.Inner i rs j ∧ i.position < j.position ∧
          e.Everywhere (Run.Within i.position j.position) := by
  simp only [valueBehindComma?, ensures_bind, ensures_eat, ensures_pure, ↓reduceIte,
    Bool.false_eq_true, List.nil_append, List.append_nil]
  refine ⟨fun hcomma => ?_, fun _ => ⟨trivial, trivial⟩⟩
  have hp := Input.position_next (Input.rest_ne_nil hcomma)
  refine (hvalue i.next).mono fun e rs j he => ?_
  have hle := he.spans.le
  exact ⟨.after_ahead i.ahead_next he.moves, by omega, he.spans.inside.widen (by omega)
    (Nat.le_refl _)⟩

/-- Values with commas in front of them. -/
theorem collect_values_reads (hvalue : ∀ i, value.Ensures i (ReadsExpr i)) :
    ∀ i, (collect (valueBehindComma? value)).Ensures i (ReadsList i) := by
  refine ensures_collect fun i => (valueBehindComma?_reads hvalue i).mono fun e? rs j h => ?_
  cases e? with
  | none =>
    obtain ⟨rfl, rfl⟩ := h
    exact ⟨.refl _, trivial⟩
  | some e =>
    obtain ⟨hm, hlt, he⟩ := h
    refine ⟨hm.ahead.length_lt hlt, fun es rs' k hes => ⟨hm.trans hes.moves, ?_, ?_⟩⟩
    · exact he.widen (Nat.le_refl _) hes.moves.ahead.position_le
    · exact hes.inside.widen (by omega) (Nat.le_refl _)

theorem values_reads (hvalue : ∀ i, value.Ensures i (ReadsExpr i)) {c : Construct}
    (hc : Cause.Inner (.leftover c : Cause Run)) {opener : Nat} (h : opener < i.position) :
    (values value c opener).Ensures i (ReadsList i) := by
  simp only [values, ensures_bind, ensures_eat, ensures_pure, ↓reduceIte, Bool.false_eq_true,
    List.nil_append, List.append_nil]
  refine ⟨fun _ => ⟨.next i, trivial⟩, fun _ => ?_⟩
  refine (hvalue i).mono fun e rs j he => ?_
  refine (collect_values_reads hvalue j).mono fun es rs₁ k hes => ?_
  refine (leftovers_moves hc _ false k).mono fun _ rs₂ l hl => ?_
  have hij := he.moves.ahead.position_le
  have hjk := hes.moves.ahead.position_le
  have hkl := hl.ahead.position_le
  have hmoves := he.moves.trans (hes.moves.trans hl)
  -- all members were read before the end of the list
  have hinside : ∀ {m : Input}, l.Ahead m →
      Expr.EverywhereAll (Run.Within i.position m.position) (e :: es) := by
    intro m hm
    have hlm := hm.position_le
    exact ⟨he.spans.inside.widen (Nat.le_refl _) (by omega), hes.inside.widen hij (by omega)⟩
  refine ⟨fun _ => ⟨by simpa using hmoves.then_ahead l.ahead_next, hinside l.ahead_next⟩,
    fun _ => ?_⟩
  refine (unclosed_moves (C := Cause.Inner) trivial _ (by omega)).mono fun _ rs₃ m hm => ?_
  exact ⟨by simpa using hmoves.trans hm, hinside hm.ahead⟩

theorem grouped_everywhere {P : Run → Prop} {place : Run} {es : List (Expr Run)} (hp : P place)
    (hes : Expr.EverywhereAll P es) : (grouped place es).Everywhere P := by
  unfold grouped
  split
  · exact ⟨hes.1, hp⟩
  · exact ⟨hes, hp⟩

theorem grouped_place (place : Run) (es : List (Expr Run)) : (grouped place es).place = place := by
  unfold grouped
  split <;> rfl

/-- Without a sign no other kind begins an expression. -/
theorem not_expressionStart {k : Kind String} (hsign : UnaryOperator.ofKind? k = none)
    (hnum : ∀ v, k ≠ .number v) (hword : ∀ name, k ≠ .word name) (htrue : k ≠ .fixed .trueWord)
    (hfalse : k ≠ .fixed .falseWord) (hdiscard : k ≠ .fixed .underscore)
    (hparen : k ≠ .fixed .lparen) (hinvalid : k ≠ .invalid) :
    TagSet.expressionStart.contains k = false := by
  cases k with
  | number v => exact absurd rfl (hnum v)
  | word name => exact absurd rfl (hword name)
  | invalid => exact absurd rfl hinvalid
  | poundWord | endOfFile => rfl
  | fixed f =>
    cases f <;> first
      | rfl | exact absurd hsign (by decide) | exact absurd rfl htrue | exact absurd rfl hfalse
      | exact absurd rfl hdiscard | exact absurd rfl hparen

/-- **A primary value.**  The signs in front of it have been read. -/
theorem primary_reads (hvalue : ∀ i, value.Ensures i (ReadsExpr i)) (pos : ValuePosition)
    (i : Input) :
    (primary value pos).Ensures i fun e rs j => ReadsExpr i e rs j ∧
      (UnaryOperator.ofKind? i.kind = none → Starts i j) := by
  simp only [primary, ensures_bind, ensures_position, ensures_kind, List.nil_append]
  have hone : (⟨i.position, i.position + 1⟩ : Run).Within i.position (i.position + 1) :=
    Run.within_self (Nat.le_succ _)
  split
  case h_1 v hk | h_2 hk | h_3 hk | h_4 name hk | h_5 hk =>
    simp only [ensures_bind, ensures_next, ensures_pure, List.nil_append]
    have hne := Input.rest_ne_nil_of_kind (i := i) (by rw [hk]; nofun)
    exact ⟨reads_terminal hne rfl hone, fun _ _ => Input.position_lt_next hne⟩
  case h_6 hk =>
    have hp := Input.position_next (Input.rest_ne_nil hk)
    simp only [ensures_bind, ensures_next, ensures_runFrom, ensures_pure, List.nil_append,
      List.append_nil]
    refine (values_reads hvalue (c := .tuple) trivial (by omega)).mono fun es rs j h => ?_
    have hle := h.moves.ahead.position_le
    refine ⟨⟨.after_ahead i.ahead_next h.moves, grouped_place _ _, ?_⟩, fun _ _ => by omega⟩
    exact grouped_everywhere (Run.within_self (by omega))
      (h.inside.widen (by omega) (Nat.le_refl _))
  case h_7 hk =>
    simp only [ensures_bind, ensures_pure, List.append_nil]
    refine (invalidToken_moves (C := Cause.Inner) trivial hk).mono fun place rs j h => ?_
    obtain ⟨hm, rfl, hlt⟩ := h
    exact ⟨⟨hm, rfl, Run.within_self (Nat.le_of_lt hlt)⟩, fun _ _ => hlt⟩
  case h_8 hnum htrue hfalse hword hdiscard hparen hinvalid =>
    refine (missingValue_reads pos i).mono fun e rs j h => ⟨h.1, fun hsign hstart => ?_⟩
    have hnone := not_expressionStart hsign hnum hword htrue hfalse hdiscard hparen hinvalid
    exact absurd (hnone.symm.trans hstart) Bool.false_ne_true

end Lists

/-! ## 2. Operands and chains -/

theorem arguments?_reads {arg : Parser (Expr Run)} (harg : ∀ i, arg.Ensures i (ReadsExpr i))
    (i : Input) :
    (arguments? arg).Ensures i fun l? rs j =>
      match l? with
      | none => rs = [] ∧ j = i
      | some l => ReadsList i l.1 rs j ∧ l.2 = j.position ∧ i.position < j.position := by
  simp only [arguments?, ensures_bind, ensures_position, ensures_check, ensures_afterNewline,
    List.nil_append]
  refine ⟨fun hopen => ?_, fun _ => ?_⟩
  · split
    · have hp := Input.position_next (Input.rest_ne_nil hopen)
      simp only [ensures_bind, ensures_next, ensures_position, ensures_pure, List.nil_append,
        List.append_nil]
      refine (values_reads harg (c := .call) trivial (by omega)).mono fun es rs j h => ?_
      have hle := h.moves.ahead.position_le
      exact ⟨⟨.after_ahead i.ahead_next h.moves, h.inside.widen (by omega) (Nat.le_refl _)⟩,
        trivial, by omega⟩
    · exact ⟨rfl, rfl⟩
  · exact ⟨rfl, rfl⟩

/-- Argument lists behind a callee. -/
theorem collect_arguments_reads {arg : Parser (Expr Run)}
    (harg : ∀ i, arg.Ensures i (ReadsExpr i)) :
    ∀ i, (collect (arguments? arg)).Ensures i fun lists rs j => Moves Cause.Inner i rs j ∧
      ∀ lo callee, callee.Spans lo i.position →
        (Expr.ofCalls callee lists).Spans lo j.position := by
  refine ensures_collect fun i => (arguments?_reads harg i).mono fun l? rs j h => ?_
  cases l? with
  | none =>
    obtain ⟨rfl, rfl⟩ := h
    exact ⟨.refl _, fun lo callee hcallee => hcallee⟩
  | some l =>
    obtain ⟨hl, hstop, hlt⟩ := h
    refine ⟨hl.moves.ahead.length_lt hlt, fun lists rs' k hlists => ?_⟩
    refine ⟨hl.moves.trans hlists.1, fun lo callee hcallee => hlists.2 lo _ ?_⟩
    have hcall := hcallee.call (Nat.le_of_lt hlt) hl.inside
    rw [← hstop] at hcall ⊢
    exact hcall

theorem sign?_advances (m : Nat) : AdvancesUpTo m sign? := by
  intro i _
  simp only [sign?, ensures_bind, ensures_position, ensures_kind]
  cases hsign : UnaryOperator.ofKind? i.kind with
  | none => exact fun hsome => absurd hsome Bool.false_ne_true
  | some op =>
    intro _
    exact i.ahead_next.length_lt (Input.position_lt_next (Input.rest_ne_nil_of_unary hsign))

/-- Signs in front of a value.  Where they end no sign comes next. -/
theorem collect_signs_reads :
    ∀ i, (collect sign?).Ensures i fun signs rs j => rs = [] ∧ i.Ahead j ∧
      UnaryOperator.ofKind? j.kind = none ∧
      (signs = [] → j = i) ∧ (signs ≠ [] → i.position < j.position) ∧
      ∀ hi e, e.Spans j.position hi → (Expr.ofSigns signs e).Spans i.position hi := by
  refine ensures_collect fun i => ?_
  simp only [sign?, ensures_bind, ensures_position, ensures_kind, List.nil_append]
  cases hsign : UnaryOperator.ofKind? i.kind with
  | none => exact ⟨rfl, .refl i, hsign, fun _ => rfl, fun h => absurd rfl h, fun _ _ h => h⟩
  | some op =>
    simp only [ensures_bind, ensures_next, ensures_pure, List.nil_append]
    have hlt := Input.position_lt_next (Input.rest_ne_nil_of_unary hsign)
    refine ⟨i.ahead_next.length_lt hlt, fun signs rs' k h => ?_⟩
    obtain ⟨rfl, hahead, hnone, -, -, hspans⟩ := h
    have hle := hahead.position_le
    refine ⟨rfl, i.ahead_next.trans hahead, hnone, nofun, fun _ => by omega, fun hi e he => ?_⟩
    exact (hspans hi e he).unary (Nat.le_of_lt hlt)

section Chains

variable {inner : ValuePosition → Parser (Expr Run)}
variable (hinner : ∀ pos i, (inner pos).Ensures i (ReadsExpr i))

include hinner

theorem operand_reads (pos : ValuePosition) (i : Input) :
    (operand inner pos).Ensures i fun e rs j => ReadsExpr i e rs j ∧ Starts i j := by
  simp only [operand, ensures_bind, ensures_pure, List.append_nil]
  refine (collect_signs_reads i).mono fun signs rs j hsigns => ?_
  obtain ⟨rfl, hij, hnone, hnil, hcons, hspans⟩ := hsigns
  refine (primary_reads (hinner _) _ j).mono fun callee rs₁ k hcallee => ?_
  obtain ⟨hcallee, hstarts⟩ := hcallee
  refine (collect_arguments_reads (hinner _) k).mono fun lists rs₂ l hlists => ?_
  have hjk := hcallee.moves.ahead.position_le
  have hkl := hlists.1.ahead.position_le
  refine ⟨⟨.after_ahead hij (hcallee.moves.trans hlists.1), ?_⟩, fun hstart => ?_⟩
  · exact hspans _ _ (hlists.2 _ _ hcallee.spans)
  · -- either a sign was taken or the value itself
    by_cases hs : signs = []
    · obtain rfl := hnil hs
      have := hstarts hnone hstart
      omega
    · have := hcons hs
      omega

/-- Operators with their right operands. -/
theorem collect_links_reads :
    ∀ i, (collect (link? inner)).Ensures i fun links rs j => Moves Cause.Inner i rs j ∧
      ∀ lo first, first.Spans lo i.position →
        (Expr.ofChain first links).Spans lo j.position := by
  refine ensures_collect fun i => ?_
  simp only [link?, ensures_bind, ensures_kind, List.nil_append]
  cases hop : BinaryOperator.ofKind? i.kind with
  | none => exact ⟨.refl i, fun _ _ h => h⟩
  | some op =>
    simp only [ensures_bind, ensures_next, ensures_pure, List.nil_append, List.append_nil]
    have hlt := Input.position_lt_next (Input.rest_ne_nil_of_binary hop)
    refine (operand_reads hinner _ i.next).mono fun right rs j hright => ?_
    obtain ⟨hright, -⟩ := hright
    have hle := hright.moves.ahead.position_le
    have hmoves := Moves.after_ahead i.ahead_next hright.moves
    refine ⟨hmoves.ahead.length_lt (by omega), fun links rs' k hlinks => ?_⟩
    refine ⟨hmoves.trans hlinks.1, fun lo first hfirst => hlinks.2 lo _ ?_⟩
    exact hfirst.graft (Nat.le_of_lt hlt) hright.spans

theorem chain_reads (pos : ValuePosition) (i : Input) :
    (chain inner pos).Ensures i fun e rs j => ReadsExpr i e rs j ∧ Starts i j := by
  simp only [chain, ensures_bind, ensures_pure, List.append_nil]
  refine (operand_reads hinner pos i).mono fun first rs j hfirst => ?_
  obtain ⟨hfirst, hstarts⟩ := hfirst
  refine (collect_links_reads hinner j).mono fun links rs' k hlinks => ?_
  have hle := hlinks.1.ahead.position_le
  refine ⟨⟨hfirst.moves.trans hlinks.1, hlinks.2 _ _ hfirst.spans⟩, fun hstart => ?_⟩
  have := hstarts hstart
  omega

end Chains

/-! ## 3. Whole expressions -/

section Expressions

variable {inner : Reach → ValuePosition → Parser (Expr Run)}
variable (hinner : ∀ reach pos i, (inner reach pos).Ensures i (ReadsExpr i))

theorem errorHere_reads (i : Input) :
    errorHere.Ensures i (ReadsExpr i) :=
  ⟨.refl i, rfl, Run.within_self (Nat.le_refl _)⟩

theorem otherwise_reads {branch : Parser (Expr Run)} (hbranch : ∀ i, branch.Ensures i (ReadsExpr i))
    (quiet : Bool) (i : Input) :
    (otherwise branch quiet).Ensures i fun e rs j => Moves Cause.Inner i rs j ∧
      e.Everywhere (Run.Within i.position j.position) := by
  simp only [otherwise, ensures_bind, ensures_eat, ↓reduceIte, Bool.false_eq_true,
    List.nil_append]
  refine ⟨fun hcolon => ?_, fun _ => ?_⟩
  · refine (hbranch i.next).mono fun e rs j he => ?_
    exact ⟨.after_ahead i.ahead_next he.moves,
      he.spans.inside.widen i.ahead_next.position_le (Nat.le_refl _)⟩
  · split
    · simp only [ensures_bind, ensures_reportHere]
      refine (errorHere_reads i).mono fun e rs j he => ?_
      exact ⟨Moves.trans (.here trivial trivial) he.moves, he.spans.inside⟩
    · exact (errorHere_reads i).mono fun e rs j he => ⟨he.moves, he.spans.inside⟩

include hinner

theorem ternary_reads (pos : ValuePosition) (i : Input) :
    (ternary inner pos).Ensures i fun e rs j => ReadsExpr i e rs j ∧ Starts i j := by
  simp only [ternary, ensures_bind, ensures_position, ensures_eat, List.nil_append, ↓reduceIte,
    Bool.false_eq_true, ensures_quietly, ensures_runFrom, ensures_pure, List.append_nil]
  refine (chain_reads (hinner .full) pos i).mono fun cond rs j hcond => ?_
  obtain ⟨hcond, hstarts⟩ := hcond
  refine ⟨fun hmark => ?_, fun _ => ⟨hcond, hstarts⟩⟩
  refine (hinner .ternary .ternary j.next).mono fun whenTrue rs₁ k htrue => ?_
  refine (otherwise_reads (hinner .ternary .ternary) rs₁.isEmpty k).mono
    fun whenFalse rs₂ l hfalse => ?_
  have hij := hcond.spans.le
  have hjj := j.ahead_next.position_le
  have hjk := htrue.spans.le
  have hkl := hfalse.1.ahead.position_le
  refine ⟨⟨hcond.moves.trans (.after_ahead j.ahead_next (htrue.moves.trans hfalse.1)), rfl, ?_⟩,
    fun hstart => ?_⟩
  · exact ⟨hcond.spans.inside.widen (Nat.le_refl _) (by omega),
      htrue.spans.inside.widen (by omega) hkl, hfalse.2.widen (by omega) (Nat.le_refl _),
      Run.within_self (by omega)⟩
  · have := hstarts hstart
    omega

theorem assignment_reads (pos : ValuePosition) (i : Input) :
    (assignment inner pos).Ensures i fun e rs j => ReadsExpr i e rs j ∧ Starts i j := by
  simp only [assignment, ensures_bind, ensures_position, ensures_eat, List.nil_append, ↓reduceIte,
    Bool.false_eq_true, ensures_runFrom, ensures_pure, List.append_nil]
  refine (ternary_reads hinner pos i).mono fun target rs j htarget => ?_
  obtain ⟨htarget, hstarts⟩ := htarget
  refine ⟨fun hmark => ?_, fun _ => ⟨htarget, hstarts⟩⟩
  refine (hinner .full .assignment j.next).mono fun value rs₁ k hvalue => ?_
  have hij := htarget.spans.le
  have hjj := j.ahead_next.position_le
  have hjk := hvalue.spans.le
  refine ⟨⟨htarget.moves.trans (.after_ahead j.ahead_next hvalue.moves), rfl, ?_⟩,
    fun hstart => ?_⟩
  · exact ⟨htarget.spans.inside.widen (Nat.le_refl _) (by omega),
      hvalue.spans.inside.widen (by omega) (Nat.le_refl _), Run.within_self (by omega)⟩
  · have := hstarts hstart
    omega

end Expressions

/-- At every bound on the nesting an expression is read forward. -/
theorem exprWithin_reads (n : Nat) (reach : Reach) (pos : ValuePosition) (i : Input) :
    (exprWithin n reach pos).Ensures i (ReadsExpr i) := by
  induction n generalizing reach pos i with
  | zero => exact (missingValue_reads pos i).mono fun _ _ _ h => h.1
  | succ n ih =>
    cases reach with
    | full => exact (assignment_reads ih pos i).mono fun _ _ _ h => h.1
    | ternary => exact (ternary_reads ih pos i).mono fun _ _ _ h => h.1

theorem expr_full (pos : ValuePosition) (i : Input) :
    expr .full pos i = assignment (exprWithin i.rest.length) pos i := by
  rw [expr, exprWithin]

theorem expr_ternary (pos : ValuePosition) (i : Input) :
    expr .ternary pos i = ternary (exprWithin i.rest.length) pos i := by
  rw [expr, exprWithin]

/-- **An expression is read forward,** and takes a terminal that can begin it. -/
theorem expr_reads (reach : Reach) (pos : ValuePosition) (i : Input) :
    (expr reach pos).Ensures i fun e rs j => ReadsExpr i e rs j ∧ Starts i j := by
  cases reach with
  | full => exact (assignment_reads (exprWithin_reads _) pos i).of_eq (expr_full pos i)
  | ternary => exact (ternary_reads (exprWithin_reads _) pos i).of_eq (expr_ternary pos i)

theorem readsExpr_expr (reach : Reach) (pos : ValuePosition) (i : Input) :
    (expr reach pos).Ensures i (ReadsExpr i) :=
  (expr_reads reach pos i).mono fun _ _ _ h => h.1

end Parser

end PlatformGate
