/-
# Reading in front of a new line

Let more terminals follow an input, beginning on a line of their own with a keyword of a statement or
with `}`.  A parser that had nothing to report does not notice: it gives the same value, again
without a report, and stops at the same place (`Carries`).  Where it looked at the end of file it now
looks at that line, and neither of them goes on with anything inside a statement.

A parser that scans ahead does so only to recover, and reports; so nothing is said of it.
-/
import PlatformGate.Proofs.Parse.Unbounded

namespace PlatformGate

/-! ## 1. Lines -/

/-- The tokens that end all that stands in front of them, if they begin a line. -/
def Fixed.opensLine (f : Fixed) : Bool := f.isStatementKeyword || f == .rbrace

theorem opensLine_of_keyword {k : Kind String} (h : k.isStatementKeyword = true) :
    k.isFixed Fixed.opensLine = true := by
  cases k with
  | fixed f =>
    have hf : f.isStatementKeyword = true := h
    simp [Kind.isFixed, Fixed.opensLine, hf]
  | _ => exact absurd h Bool.false_ne_true

/-- The terminals begin a line with such a token. -/
structure Separate (line : List Terminal) : Prop where
  begins : ∃ t ts, line = t :: ts ∧ t.lineStart = true ∧ t.kind.isFixed Fixed.opensLine = true

/-- The input with more terminals behind it. -/
def Input.onto (line : List Terminal) (i : Input) : Input := ⟨i.position, i.rest ++ line⟩

section Lines

variable {line : List Terminal} {i : Input}

theorem Input.kind_of_nil (h : i.rest = []) : i.kind = .endOfFile := by
  unfold kind
  rw [h]

theorem Input.kind_onto (h : i.rest ≠ []) : (i.onto line).kind = i.kind := by
  obtain ⟨t, ts, hts⟩ := List.exists_cons_of_ne_nil h
  unfold onto kind
  rw [hts]
  rfl

theorem Input.next_onto (h : i.rest ≠ []) : (i.onto line).next = i.next.onto line := by
  obtain ⟨t, ts, hts⟩ := List.exists_cons_of_ne_nil h
  unfold onto next
  rw [hts]
  rfl

/-- At the end the line comes next. -/
theorem Separate.kind_onto (hline : Separate line) (h : i.rest = []) :
    (i.onto line).kind.isFixed Fixed.opensLine = true := by
  obtain ⟨t, ts, rfl, -, hkind⟩ := hline.begins
  unfold Input.onto Input.kind
  rw [h]
  exact hkind

/-- A token that opens no line comes next only if it did. -/
theorem Separate.kind_onto_eq_iff (hline : Separate line) {f : Fixed}
    (hf : f.opensLine = false ∨ i.rest ≠ []) :
    (i.onto line).kind = .fixed f ↔ i.kind = .fixed f := by
  by_cases h : i.rest = []
  · have hopens := hline.kind_onto h
    rw [Input.kind_of_nil h]
    refine ⟨fun hk => ?_, fun hk => absurd hk nofun⟩
    rw [hk] at hopens
    rcases hf with hf | hf
    · exact absurd (hf.symm.trans hopens) Bool.false_ne_true
    · exact absurd h hf
  · rw [Input.kind_onto h]

end Lines

namespace Parser

variable {α β : Type} {line : List Terminal} {i : Input}

/-! ## 2. One rule for each step -/

/-- Without a report the parser does the same in front of the line. -/
def Carries (line : List Terminal) (p : Parser α) (i : Input) : Prop :=
  (p i).reports = [] → p (i.onto line) = ⟨(p i).value, [], (p i).next.onto line⟩

section Rules

variable {p : Parser α} {f : α → Parser β}

theorem Carries.of_loud (h : p.Ensures i fun _ rs _ => rs ≠ []) : Carries line p i :=
  fun hquiet => absurd hquiet h

theorem Carries.of_eq {q : Parser α} (h : Carries line q i) (hi : p i = q i)
    (honto : p (i.onto line) = q (i.onto line)) : Carries line p i := by
  unfold Carries
  rw [hi, honto]
  exact h

theorem carries_pure {a : α} : Carries line (pure a) i := fun _ => rfl

theorem Carries.bind (h : Carries line p i)
    (hf : p.Ensures i fun a _ j => Carries line (f a) j) : Carries line (p >>= f) i := by
  intro hquiet
  obtain ⟨hp, hfa⟩ := List.append_eq_nil_iff.mp hquiet
  rw [bind_apply, h hp]
  simp only [hf hfa, List.nil_append]
  rfl

theorem Carries.then_pure {b : α → β} (h : Carries line p i) :
    Carries line (p >>= fun a => pure (b a)) i := h.bind carries_pure

theorem Carries.quietly (h : Carries line p i) : Carries line (quietly p) i := by
  intro hquiet
  have hquiet : (p i).reports = [] := hquiet
  have hsame : ∀ j, Parser.quietly p j =
      ⟨((p j).value, (p j).reports.isEmpty), (p j).reports, (p j).next⟩ := fun _ => rfl
  rw [hsame, hsame, h hquiet, hquiet]

theorem ensures_of_bind_loud (h : p.Ensures i fun _ rs _ => rs ≠ []) :
    (p >>= f).Ensures i fun _ rs _ => rs ≠ [] :=
  fun hnil => h (List.append_eq_nil_iff.mp hnil).1

theorem carries_position : Carries line position i := fun _ => rfl

theorem carries_runFrom {start : Nat} : Carries line (runFrom start) i := fun _ => rfl

/-- The rule of what is written down with its place. -/
theorem Carries.placed {b : α → Run → β} {start : Nat} (h : Carries line p i) :
    Carries line (do let a ← p; return b a (← runFrom start)) i :=
  h.bind carries_runFrom.then_pure

theorem carries_next (h : i.rest ≠ []) : Carries line next i := by
  intro _
  unfold next
  rw [Input.next_onto h]

/-- A kind that is looked at; at the end the line must be answered like the end of file. -/
theorem carries_kind {g : Kind String → Parser β} (hline : Separate line)
    (h : Carries line (g i.kind) i)
    (hend : i.rest = [] → ∀ k : Kind String, k.isFixed Fixed.opensLine = true →
      g k = g .endOfFile) : Carries line (kind >>= g) i := by
  have hkind : g (i.onto line).kind = g i.kind := by
    by_cases hnil : i.rest = []
    · rw [Input.kind_of_nil hnil, hend hnil _ (hline.kind_onto hnil)]
    · rw [Input.kind_onto hnil]
  refine h.of_eq rfl ?_
  rw [bind_apply]
  simp only [kind, hkind, List.nil_append]

theorem carries_check (hline : Separate line) {f : Fixed}
    (hf : f.opensLine = false ∨ i.rest ≠ []) : Carries line (check f) i := by
  intro _
  have hkind := hline.kind_onto_eq_iff hf
  unfold check
  by_cases h : i.kind = .fixed f
  · simp [h, hkind.mpr h]
  · simp [beq_false_of_ne h, beq_false_of_ne (mt hkind.mp h)]

theorem carries_eat (hline : Separate line) {f : Fixed}
    (hf : f.opensLine = false ∨ i.rest ≠ []) : Carries line (eat f) i := by
  intro _
  have hkind := hline.kind_onto_eq_iff hf
  unfold eat
  by_cases h : i.kind = .fixed f
  · simp [h, hkind.mpr h, Input.next_onto (Input.rest_ne_nil h)]
  · simp [h, mt hkind.mp h]

/-- The rule of a position that is written down. -/
theorem carries_from {g : Nat → Parser β} (h : Carries line (g i.position) i) :
    Carries line (position >>= g) i := carries_position.bind h

/-- The rule of a terminal that is taken. -/
theorem carries_behind {g : Unit → Parser β} (hne : i.rest ≠ []) (h : Carries line (g ()) i.next) :
    Carries line (next >>= g) i := (carries_next hne).bind h

section Branches

variable {q : Parser α} (hline : Separate line) {f : Fixed}
variable (hf : f.opensLine = false ∨ i.rest ≠ [])

include hline hf

/-- The rule of a token that is taken if it comes next. -/
theorem carries_if_eat (h : i.kind = .fixed f → Carries line p i.next)
    (h' : i.kind ≠ .fixed f → Carries line q i) :
    Carries line (do if ← eat f then p else q) i := by
  refine (carries_eat hline hf).bind ?_
  simp only [ensures_eat, ↓reduceIte, Bool.false_eq_true]
  exact ⟨h, h'⟩

/-- The rule of a token that is looked for. -/
theorem carries_if_check (h : i.kind = .fixed f → Carries line p i)
    (h' : i.kind ≠ .fixed f → Carries line q i) :
    Carries line (do if ← check f then p else q) i := by
  refine (carries_check hline hf).bind ?_
  simp only [ensures_check, ↓reduceIte, Bool.false_eq_true]
  exact ⟨h, h'⟩

end Branches

theorem carries_atEnd (h : i.rest ≠ []) : Carries line atEnd i := by
  intro _
  obtain ⟨t, ts, hts⟩ := List.exists_cons_of_ne_nil h
  simp [atEnd, Input.onto, hts]

/-- The rule of what is done unless the source has ended. -/
theorem carries_unless_end {q : Parser α} (hne : i.rest ≠ []) (h : Carries line q i) :
    Carries line (do if ← atEnd then p else q) i := by
  refine (carries_atEnd hne).bind ?_
  rw [ensures_atEnd]
  refine ⟨fun hnil => absurd hnil hne, fun _ => ?_⟩
  simp only [Bool.false_eq_true, ↓reduceIte]
  exact h

theorem carries_atLineStart (h : i.rest ≠ []) : Carries line atLineStart i := by
  intro _
  obtain ⟨t, ts, hts⟩ := List.exists_cons_of_ne_nil h
  simp [atLineStart, Input.onto, hts]

theorem carries_afterNewline (h : i.rest ≠ []) : Carries line afterNewline i := by
  intro _
  obtain ⟨t, ts, hts⟩ := List.exists_cons_of_ne_nil h
  simp [afterNewline, Input.onto, hts]

/-- Leftovers that are reported nowhere are none, and a stop is seen at once. -/
theorem carries_leftovers (c : Construct) (stop : TagSet) (lineSensitive : Bool)
    (h : i.rest ≠ []) : Carries line (leftovers c stop lineSensitive) i := by
  obtain ⟨t, ts, hts⟩ := List.exists_cons_of_ne_nil h
  have hleft : ∀ more : List Terminal, endsCapture stop lineSensitive 0 false t = true →
      leftovers c stop lineSensitive ⟨i.position, t :: more⟩ =
        ⟨(), [], ⟨i.position, t :: more⟩⟩ := by
    intro more hends
    have hlength : captureLength stop lineSensitive 0 false (t :: more) = 0 := by
      rw [captureLength, if_pos hends]
    simp only [leftovers, bind_apply, position, rest, hlength, ↓reduceIte, pure_apply]
    rfl
  obtain ⟨position, rest⟩ := i
  obtain rfl : rest = t :: ts := hts
  by_cases hends : endsCapture stop lineSensitive 0 false t = true
  · intro _
    rw [hleft ts hends]
    exact hleft _ hends
  · refine .of_loud (ensures_leftovers.mpr ⟨fun hzero => ?_, fun _ _ _ => List.cons_ne_nil _ _⟩)
    rw [captureLength, if_neg hends] at hzero
    exact absurd hzero (Nat.succ_ne_zero _)

theorem unclosed_loud (c : Construct) (opener : Nat) (resume : TagSet) :
    (unclosed c opener resume).Ensures i fun _ rs _ => rs ≠ [] :=
  ensures_unclosed.mpr (List.cons_ne_nil _ _)

/-- **A loop does the same** if its item does wherever the loop comes. -/
theorem carries_collect {item : Parser (Option α)} {m : Nat}
    (hadv : ∀ n, AdvancesUpTo n item)
    (hitem : ∀ i, i.rest.length ≤ m → Carries line item i) :
    ∀ i, i.rest.length ≤ m → Carries line (collect item) i := by
  suffices H : ∀ (n : Nat) (i : Input), i.rest.length < n → i.rest.length ≤ m →
      Carries line (collect item) i from fun i => H _ i (Nat.lt_succ_self _)
  intro n
  induction n with
  | zero => exact fun i hi => absurd hi (Nat.not_lt_zero _)
  | succ n ih =>
    intro i hi him
    refine Carries.of_eq ?_ (collect_eq (hadv _)) (collect_eq (hadv _))
    refine (hitem i him).bind ((hadv _ i (Nat.le_refl _)).mono fun a? _ j hlt => ?_)
    cases a? with
    | none => exact carries_pure
    | some a =>
      have hlt := hlt rfl
      exact (ih j (by omega) (by omega)).then_pure

end Rules

/-! ## 3. Expressions -/

/-- A line that opens anew has no sign in front. -/
theorem unary_of_opensLine {k : Kind String} (h : k.isFixed Fixed.opensLine = true) :
    UnaryOperator.ofKind? k = none := by
  cases k with
  | fixed f => cases f <;> first | rfl | exact absurd h Bool.false_ne_true
  | _ => rfl

/-- A line that opens anew has no operator in front. -/
theorem binary_of_opensLine {k : Kind String} (h : k.isFixed Fixed.opensLine = true) :
    BinaryOperator.ofKind? k = none := by
  cases k with
  | fixed f => cases f <;> first | rfl | exact absurd h Bool.false_ne_true
  | _ => rfl

theorem missingValue_loud (pos : ValuePosition) :
    (missingValue pos).Ensures i fun _ rs _ => rs ≠ [] := List.cons_ne_nil _ _

theorem carries_errorHere : Carries line errorHere i := fun _ => rfl

variable (hline : Separate line) {m : Nat}

section Lists

variable {value : Parser (Expr Run)} (hreads : ∀ i, value.Ensures i (ReadsExpr i))
variable (h : ∀ i, i.rest.length < m → Carries line value i)

include hline

include h in
theorem valueBehindComma?_carries (hi : i.rest.length ≤ m) :
    Carries line (valueBehindComma? value) i := by
  refine carries_if_eat hline (.inl rfl) (fun hcomma => ?_) fun _ => carries_pure
  have hlt := Input.length_next_lt (Input.rest_ne_nil hcomma)
  exact (h _ (by omega)).then_pure

include hreads h

theorem values_carries (c : Construct) (opener : Nat) (hi : i.rest.length < m) :
    Carries line (values value c opener) i := by
  refine carries_if_eat hline (.inl rfl) (fun _ => carries_pure)
    fun _ => (h i hi).bind ((hreads i).mono fun e rs j he => ?_)
  have hij := he.moves.ahead.length_le
  have hloop := carries_collect (valueBehindComma?_advances hreads)
    (fun k hk => valueBehindComma?_carries hline h hk) j (by omega)
  refine hloop.bind ((collect_values_reads hreads j).mono fun es rs' k hes => ?_)
  by_cases hend : k.rest = []
  · -- at the end the list is not closed
    have hkind : k.kind ≠ .fixed .rparen := by
      intro hk
      exact Input.rest_ne_nil hk hend
    refine .of_loud ?_
    simp only [ensures_bind, ensures_leftovers, ensures_eat, hend, captureLength]
    refine ⟨fun _ => ⟨fun hk => absurd hk hkind, fun _ => ?_⟩,
      fun n hzero hn => absurd hzero.symm hn⟩
    exact fun hnil => unclosed_loud c opener _ (List.append_eq_nil_iff.mp
      (List.append_eq_nil_iff.mp (List.append_eq_nil_iff.mp hnil).2).2).1
  · refine (carries_leftovers c _ false hend).bind ?_
    refine (leftovers_moves (C := fun _ => True) trivial _ false k).mono fun _ rs'' l hl => ?_
    exact carries_if_eat hline (.inl rfl) (fun _ => carries_pure)
      fun _ => .of_loud (ensures_of_bind_loud (unclosed_loud _ _ _))

theorem primary_carries (pos : ValuePosition) (hi : i.rest.length ≤ m) :
    Carries line (primary value pos) i := by
  refine carries_from ?_
  by_cases hend : i.rest = []
  · refine .of_loud ?_
    rw [ensures_bind, ensures_kind, Input.kind_of_nil hend]
    exact missingValue_loud pos
  · refine carries_kind hline ?_ fun hnil => absurd hnil hend
    cases hk : i.kind with
    | fixed f =>
      by_cases hopen : f = .lparen
      · subst hopen
        have hlt := Input.length_next_lt hend
        refine carries_behind hend ?_
        exact (values_carries hline hreads h _ _ (by omega)).placed
      · cases f <;> first
          | exact (carries_next hend).then_pure
          | exact .of_loud (missingValue_loud pos)
          | exact absurd rfl hopen
    | number v => exact (carries_next hend).then_pure
    | word name => exact (carries_next hend).then_pure
    | invalid => exact .of_loud (List.cons_ne_nil _ _)
    | _ => exact .of_loud (missingValue_loud pos)

theorem arguments?_carries (hi : i.rest.length ≤ m) : Carries line (arguments? value) i := by
  refine carries_from ?_
  refine (carries_check hline (.inl rfl)).bind ?_
  rw [ensures_check]
  refine ⟨fun hopen => ?_, fun _ => ?_⟩
  · have hne := Input.rest_ne_nil hopen
    have hlt := Input.length_next_lt hne
    refine (carries_afterNewline hne).bind ?_
    rw [ensures_afterNewline]
    split
    · refine carries_behind hne ?_
      exact (values_carries hline hreads h _ _ (by omega)).bind carries_position.then_pure
    · exact carries_pure
  · simp only [Bool.false_and, Bool.false_eq_true, ↓reduceIte]
    exact fun _ => rfl

end Lists

include hline

theorem collect_signs_carries (i : Input) : Carries line (collect sign?) i := by
  refine carries_collect sign?_advances (fun j _ => ?_) i (Nat.le_refl _)
  refine carries_from ?_
  refine carries_kind hline ?_ fun _ k hk => by rw [unary_of_opensLine hk]; rfl
  cases hsign : UnaryOperator.ofKind? j.kind with
  | some op => exact (carries_next (Input.rest_ne_nil_of_unary hsign)).then_pure
  | none => exact carries_pure

section Expressions

variable (h : ∀ reach pos i, i.rest.length < m → Carries line (expr reach pos) i)

include h

theorem operand_carries (pos : ValuePosition) (hi : i.rest.length ≤ m) :
    Carries line (operand (expr .full) pos) i := by
  refine (collect_signs_carries hline i).bind ((collect_signs_reads i).mono fun signs rs j hs => ?_)
  have hij := hs.2.1.length_le
  have hprimary := primary_carries hline (readsExpr_expr .full .tuple) (h .full .tuple)
    (if signs.isEmpty then pos else .prefixOperand) (i := j) (by omega)
  refine hprimary.bind ((primary_reads (readsExpr_expr .full .tuple) _ j).mono
    fun callee rs' k hcallee => ?_)
  have hjk := hcallee.1.moves.ahead.length_le
  have hloop := carries_collect (arguments?_advances (readsExpr_expr .full .call))
    (fun l hl => arguments?_carries hline (readsExpr_expr .full .call) (h .full .call) hl) k
    (by omega)
  exact hloop.then_pure

theorem chain_carries (pos : ValuePosition) (hi : i.rest.length ≤ m) :
    Carries line (chain (expr .full) pos) i := by
  have hlink : ∀ j : Input, j.rest.length ≤ m → Carries line (link? (expr .full)) j := by
    intro j hj
    refine carries_kind hline ?_ fun _ k hk => by rw [binary_of_opensLine hk]; rfl
    cases hop : BinaryOperator.ofKind? j.kind with
    | some op =>
      have hne := Input.rest_ne_nil_of_binary hop
      have hlt := Input.length_next_lt hne
      refine carries_behind hne ?_
      exact (operand_carries hline h _ (by omega)).then_pure
    | none => exact carries_pure
  refine (operand_carries hline h pos hi).bind ((operand_reads (readsExpr_expr .full) pos i).mono
    fun first rs j hfirst => ?_)
  have hij := hfirst.1.moves.ahead.length_le
  exact (carries_collect (link?_advances (readsExpr_expr .full)) hlink j (by omega)).then_pure

theorem otherwise_carries (quiet : Bool) (hi : i.rest.length ≤ m) :
    Carries line (otherwise (expr .ternary .ternary) quiet) i := by
  refine carries_if_eat hline (.inl rfl) (fun hcolon => ?_) fun _ => ?_
  · have hlt := Input.length_next_lt (Input.rest_ne_nil hcolon)
    exact h _ _ _ (by omega)
  · split
    · exact .of_loud (List.cons_ne_nil _ _)
    · exact carries_errorHere

theorem ternary_carries (pos : ValuePosition) (hi : i.rest.length ≤ m) :
    Carries line (ternary expr pos) i := by
  refine carries_from ?_
  refine (chain_carries hline h pos hi).bind ((chain_reads (readsExpr_expr .full) pos i).mono
    fun cond rs j hcond => ?_)
  have hij := hcond.1.moves.ahead.length_le
  refine carries_if_eat hline (.inl rfl) (fun hmark => ?_) fun _ => carries_pure
  have hlt := Input.length_next_lt (Input.rest_ne_nil hmark)
  refine (h .ternary .ternary _ (by omega)).quietly.bind ?_
  rw [ensures_quietly]
  refine (readsExpr_expr .ternary .ternary j.next).mono fun whenTrue rs' k htrue => ?_
  have hjk := htrue.moves.ahead.length_le
  exact (otherwise_carries hline h _ (by omega)).placed

theorem assignment_carries (pos : ValuePosition) (hi : i.rest.length ≤ m) :
    Carries line (assignment expr pos) i := by
  refine carries_from ?_
  refine (ternary_carries hline h pos hi).bind ((ternary_reads readsExpr_expr pos i).mono
    fun target rs j htarget => ?_)
  have hij := htarget.1.moves.ahead.length_le
  refine carries_if_eat hline (.inl rfl) (fun hmark => ?_) fun _ => carries_pure
  have hlt := Input.length_next_lt (Input.rest_ne_nil hmark)
  exact (h .full .assignment _ (by omega)).placed

end Expressions

/-- **An expression without a report does not notice the line.** -/
theorem expr_carries (reach : Reach) (pos : ValuePosition) (i : Input) :
    Carries line (expr reach pos) i := by
  refine expr_induction (P := fun _ p i => Carries line p i) (fun pos i ih => ?_)
    (fun pos i ih => ?_) reach pos i
  · exact assignment_carries hline ih pos (Nat.le_refl _)
  · exact ternary_carries hline ih pos (Nat.le_refl _)

end Parser

end PlatformGate
