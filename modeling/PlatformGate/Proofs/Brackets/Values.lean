/-
# Brackets of expressions

In an expression brackets nest, and its constructs are those of the tree that is built.  Behind an
opening bracket the values are read one by one, so that all they blame stands further behind.

The bracket of a call is told from its callee: it comes next where the callee ends.  A callee that
is missing ends at a terminal that begins no value, and so at no bracket.
-/
import PlatformGate.Proofs.Brackets.Nest

namespace PlatformGate

theorem Input.Ahead.eq_of_position_eq {i j : Input} (h : i.Ahead j)
    (heq : i.position = j.position) : i = j := by
  obtain ⟨ts, hts, hposition⟩ := h
  obtain rfl : ts = [] := List.eq_nil_of_length_eq_zero (by omega)
  cases i
  cases j
  simp_all

namespace Parser

variable {P : Input → Prop}

/-! ## 1. Lists -/

theorem nests_missingValue (pos : ValuePosition) :
    Nests P (missingValue pos) fun e bs => bs = e.brackets :=
  fun i _ => ⟨[], .quiet (.refl i) (List.forall_mem_singleton.mpr rfl), rfl⟩

section Lists

variable {value : Parser (Expr Run)}
variable (h : Nests Input.Any value fun e bs => bs = e.brackets)

include h

theorem nests_valueBehindComma? :
    Nests P (valueBehindComma? value) fun e? bs => bs = e?.elim [] Expr.brackets := by
  refine nests_eat ?_ (nests_pure rfl)
  refine h.bind fun e bs hbs => nests_pure ?_
  rw [hbs, List.append_nil]
  rfl

/-- **The values behind a bracket,** up to where they are closed or reported to be left open. -/
theorem values_ends {c : Construct} (hc : c ≠ .block) (n : Nat) (i : Input) :
    (values value c n).Ensures i fun es rs j => c.Ends n i (Expr.bracketsAll es) rs j := by
  simp only [values, ensures_bind, ensures_eat, ensures_pure, ↓reduceIte, Bool.false_eq_true,
    List.nil_append, List.append_nil]
  refine ⟨fun _ => .closed (.quiet i.ahead_next (List.forall_mem_nil _)), fun _ => ?_⟩
  refine (h i trivial).mono fun e rs j he => ?_
  have hothers : Nests Input.Any (collect (valueBehindComma? value)) _ :=
    nests_collect (nests_valueBehindComma? h)
  refine (hothers j trivial).mono fun es rs₁ k hes => ?_
  refine (quiet_leftovers (P := Input.Any) c _ false k trivial).mono fun _ rs₂ l hl => ?_
  obtain ⟨_, he, rfl⟩ := he
  obtain ⟨_, hes, rfl⟩ := hes
  have hall : Nest i (Expr.bracketsAll (e :: es)) (rs ++ (rs₁ ++ rs₂)) l := by
    rw [Expr.bracketsAll, Expr.bracketsAll_eq_flatMap, ← List.append_nil (es.flatMap _)]
    exact he.append (hes.append (.quiet hl.1 hl.2))
  refine ⟨fun _ => ?_, fun _ => ?_⟩
  · rw [← List.append_nil (Expr.bracketsAll _), ← List.append_nil (rs ++ _)]
    exact .closed (hall.append (.quiet l.ahead_next (List.forall_mem_nil _)))
  · rw [ensures_unclosed, ← List.append_assoc, ← List.append_assoc, List.append_assoc rs]
    exact .leftOpen hall (probe_le _ _) fun hblock => absurd hblock hc

theorem nests_primary (pos : ValuePosition) :
    Nests P (primary value pos) fun e bs => bs = e.brackets := by
  refine nests_position fun start => ?_
  refine nests_kind fun k => ?_
  -- a value that is one token
  have hone : ∀ {e : Expr Run}, e.brackets = [] →
      Nests (fun i => (P i ∧ i.position = start) ∧ i.kind = k) (do next; return e)
        fun e bs => bs = e.brackets :=
    fun he => quiet_next.then fun _ => nests_pure he.symm
  cases k with
  | number v => exact hone rfl
  | word name => exact hone rfl
  | invalid =>
    exact quiet_invalidToken.then fun place => nests_pure rfl
  | fixed f =>
    cases f with
    | trueWord | falseWord | underscore => exact hone rfl
    | lparen =>
      rintro i ⟨⟨-, rfl⟩, hopen⟩
      simp only [ensures_bind, ensures_next, ensures_runFrom, ensures_pure, List.nil_append,
        List.append_nil]
      refine (values_ends h (c := .tuple) nofun i.position i.next).mono fun es rs j hes => ?_
      refine ⟨_, hes.nest (p := ⟨i.position, j.position⟩) (.bracket nofun hopen) rfl, ?_⟩
      exact (brackets_grouped ⟨i.position, j.position⟩ es).symm
    | _ => exact nests_missingValue pos
  | _ => exact nests_missingValue pos

end Lists

/-! ## 2. Calls -/

section Calls

variable {arg : Parser (Expr Run)}
variable (h : Nests Input.Any arg fun e bs => bs = e.brackets)

include h

/-- **Calls behind a callee.**  The bracket of the first comes next, if there is one. -/
theorem calls_nest (i : Input) {callee : Expr Run} (hpast : callee.place.past = i.position)
    (hsolid : i.kind = .fixed .lparen → callee.place.first < callee.place.past) :
    (collect (arguments? arg)).Ensures i fun lists rs j => ∃ bs, Nest i bs rs j ∧
      (Expr.ofCalls callee lists).brackets = callee.brackets ++ bs := by
  have hwithin : ∀ (n : Nat) (i : Input) (callee : Expr Run), callee.place.past = i.position →
      (i.kind = .fixed .lparen → callee.place.first < callee.place.past) →
      (collectWithin (arguments? arg) n).Ensures i fun lists rs j => ∃ bs, Nest i bs rs j ∧
        (Expr.ofCalls callee lists).brackets = callee.brackets ++ bs := by
    intro n
    induction n with
    | zero =>
      intro i callee _ _
      exact ⟨[], .quiet (.refl i) (List.forall_mem_nil _), (List.append_nil _).symm⟩
    | succ n ih =>
      intro i callee hpast hsolid
      have hnone : ∃ bs, Nest i bs [] i ∧
          (Expr.ofCalls callee []).brackets = callee.brackets ++ bs :=
        ⟨[], .quiet (.refl i) (List.forall_mem_nil _), (List.append_nil _).symm⟩
      rw [collectWithin_succ, round, ensures_bind]
      simp only [arguments?, ensures_bind, ensures_position, ensures_check, ensures_afterNewline,
        List.nil_append]
      refine ⟨fun hopen => ?_, fun _ => hnone⟩
      split
      · simp only [ensures_bind, ensures_next, ensures_position, ensures_pure, List.nil_append,
          List.append_nil]
        refine (values_ends h (c := .call) (by simp) i.position i.next).mono fun es rs j hes => ?_
        have hcall : Nest i ((.call, callee.place) :: Expr.bracketsAll es) rs j :=
          hes.nest (.bracket (by simp) hopen) ⟨hsolid hopen, hpast.symm⟩
        have hlt := hsolid hopen
        have hle := hcall.ahead.position_le
        refine (ih j (.call callee es ⟨callee.place.first, j.position⟩) rfl fun _ => ?_).mono
          fun lists rs' k hlists => ?_
        · change callee.place.first < j.position
          omega
        · obtain ⟨bs, hnest, hbs⟩ := hlists
          refine ⟨_, hcall.append hnest, ?_⟩
          rw [Expr.ofCalls_cons, hbs, Expr.brackets, List.append_assoc]
      · exact hnone
  exact hwithin _ i callee hpast hsolid

end Calls

/-! ## 3. Operators -/

section Chains

variable {inner : ValuePosition → Parser (Expr Run)}
variable (hreads : ∀ pos i, (inner pos).Ensures i (ReadsExpr i))
variable (h : ∀ pos, Nests Input.Any (inner pos) fun e bs => bs = e.brackets)

include hreads h

theorem nests_operand (pos : ValuePosition) :
    Nests P (operand inner pos) fun e bs => bs = e.brackets := by
  refine quiet_signs.then fun signs => ?_
  intro i _
  simp only [ensures_bind, ensures_pure, List.append_nil]
  have hprimary := fun pos => (primary_reads (hreads .tuple) pos i).and
    (nests_primary (P := Input.Any) (h .tuple) pos i trivial)
  refine (hprimary _).mono fun callee rs j hcallee => ?_
  obtain ⟨⟨hread, hstarts⟩, _, hnest, rfl⟩ := hcallee
  have hplace := hread.spans.place
  refine (calls_nest (h .call) j (by rw [hplace]) fun hopen => ?_).mono fun lists rs' k hlists => ?_
  · -- a bracket in front of which nothing was read would have been read
    rw [hplace]
    refine Nat.lt_of_le_of_ne hread.spans.le fun heq => ?_
    obtain rfl := hread.moves.ahead.eq_of_position_eq heq
    exact Nat.lt_irrefl _ (hstarts (by rw [hopen]; rfl) (by rw [hopen]; rfl))
  · obtain ⟨bs, hnest', hbs⟩ := hlists
    refine ⟨_, hnest.append hnest', ?_⟩
    rw [Expr.brackets_ofSigns, hbs]

theorem nests_link? :
    Nests P (link? inner) fun l? bs => bs = l?.elim [] fun l => l.2.brackets := by
  refine nests_kind fun k => ?_
  cases BinaryOperator.ofKind? k with
  | none => exact nests_pure rfl
  | some op =>
    refine quiet_next.then fun _ => ?_
    refine (nests_operand hreads h .infixOperand).bind fun right bs hbs => nests_pure ?_
    rw [hbs, List.append_nil]
    rfl

theorem nests_chain (pos : ValuePosition) :
    Nests P (chain inner pos) fun e bs => bs = e.brackets := by
  refine (nests_operand hreads h pos).bind fun first bs hbs => ?_
  refine (nests_collect (nests_link? hreads h)).bind fun links bs' hbs' => nests_pure ?_
  rw [hbs, hbs', List.append_nil, Expr.brackets_ofChain]

end Chains

/-! ## 4. Whole expressions -/

theorem nests_errorHere : Nests P errorHere fun e bs => bs = e.brackets :=
  looks_position.nests fun _ => nests_pure rfl

theorem nests_otherwise {branch : Parser (Expr Run)}
    (h : Nests Input.Any branch fun e bs => bs = e.brackets) (quiet : Bool) :
    Nests P (otherwise branch quiet) fun e bs => bs = e.brackets := by
  refine nests_eat h ?_
  cases quiet with
  | false => exact nests_errorHere
  | true => exact (quiet_report rfl).then fun _ => nests_errorHere

section Whole

variable {inner : Reach → ValuePosition → Parser (Expr Run)}
variable (hreads : ∀ reach pos i, (inner reach pos).Ensures i (ReadsExpr i))
variable (h : ∀ reach pos, Nests Input.Any (inner reach pos) fun e bs => bs = e.brackets)

include hreads h

theorem nests_ternary (pos : ValuePosition) :
    Nests P (ternary inner pos) fun e bs => bs = e.brackets := by
  refine looks_position.nests fun start => ?_
  refine (nests_chain (hreads .full) (h .full) pos).bind fun cond bs hbs => ?_
  have hbranch := h .ternary .ternary
  refine nests_eat ?_ (nests_pure (by rw [hbs, List.append_nil]))
  refine hbranch.quietly.bind fun whenTrue bs₁ hbs₁ => ?_
  refine (nests_otherwise hbranch _).bind fun whenFalse bs₂ hbs₂ => ?_
  refine (looks_runFrom start).nests fun place => nests_pure ?_
  rw [hbs, hbs₁, hbs₂, List.append_nil]
  rfl

theorem nests_assignment (pos : ValuePosition) :
    Nests P (assignment inner pos) fun e bs => bs = e.brackets := by
  refine looks_position.nests fun start => ?_
  refine (nests_ternary hreads h pos).bind fun target bs hbs => ?_
  refine nests_eat ?_ (nests_pure (by rw [hbs, List.append_nil]))
  refine (h .full .assignment).bind fun value bs' hbs' => ?_
  refine (looks_runFrom start).nests fun place => nests_pure ?_
  rw [hbs, hbs', List.append_nil]
  rfl

end Whole

theorem nests_exprWithin (n : Nat) (reach : Reach) (pos : ValuePosition) :
    Nests Input.Any (exprWithin n reach pos) fun e bs => bs = e.brackets := by
  induction n generalizing reach pos with
  | zero => exact nests_missingValue pos
  | succ n ih =>
    cases reach with
    | full => exact nests_assignment (exprWithin_reads n) ih pos
    | ternary => exact nests_ternary (exprWithin_reads n) ih pos

/-- **Brackets of an expression nest.** -/
theorem nests_expr (reach : Reach) (pos : ValuePosition) :
    Nests P (expr reach pos) fun e bs => bs = e.brackets :=
  fun i _ => Ensures.of_eq (nests_exprWithin (i.rest.length + 1) reach pos i trivial) rfl

end Parser

end PlatformGate
