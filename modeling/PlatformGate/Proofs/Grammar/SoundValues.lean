/-
# Reading in silence is deriving

Where a parser reports nothing, what it has read is derived by the grammar.  Each way of going on
after a problem reports that problem, so it has no part in a silent reading; what is left of the
parser are the productions themselves.  The lemma about each parser says so for inputs with at most
`m` terminals, given the same for the expressions and statements inside, which have fewer.
-/
import PlatformGate.Proofs.Grammar.Joins
import PlatformGate.Proofs.Parse.Unbounded

namespace PlatformGate

open Grammar

namespace Input

variable {i : Input}

theorem headKind_rest (i : Input) : headKind i.rest = i.kind := by
  unfold headKind Input.kind
  rfl

theorem onSameLine_rest (i : Input) : onSameLine i.rest = !i.afterNewline := rfl

theorem rest_next (i : Input) : i.next.rest = i.rest.tail := by
  unfold next
  split
  · rename_i hnil
    rw [hnil]
    rfl
  · rename_i hcons
    rw [hcons]
    rfl

end Input

namespace Parser

variable {α β : Type} {i : Input} {m : Nat}

/-! ## 1. Loops -/

/-- A loop reads in silence what its item reads, round by round, and ends as its item does. -/
theorem collect_sound_to {item : Parser (Option α)} {r : Rule} {Q : List Terminal → Input → Prop}
    (hadv : AdvancesUpTo m item)
    (h : ∀ i, i.rest.length ≤ m → item.Ensures i fun a? rs j => rs = [] →
      match a? with
      | none => Q i.rest j
      | some _ => Derives r i.rest j.rest)
    (hi : i.rest.length ≤ m) :
    (collect item).Ensures i fun _ rs j => rs = [] →
      ∃ ms, Derives (.many r) i.rest ms ∧ Q ms j := by
  refine ensures_collect_upTo (R := fun i _ rs j => rs = [] →
    ∃ ms, Derives (.many r) i.rest ms ∧ Q ms j) (fun i hi => ?_) i hi
  refine ((hadv i hi).and (h i hi)).mono fun a? rs j hj => ?_
  obtain ⟨hlt, hround⟩ := hj
  cases a? with
  | none => exact fun hrs => ⟨_, .done, hround hrs⟩
  | some a =>
    refine ⟨hlt rfl, fun as rs' k hagain hrs => ?_⟩
    obtain ⟨hrs, hrs'⟩ := List.append_eq_nil_iff.mp hrs
    obtain ⟨ms, hms, hQ⟩ := hagain hrs'
    exact ⟨ms, .more (hround hrs) hms, hQ⟩

/-- The same for an item that takes nothing where it gives nothing. -/
theorem collect_sound {item : Parser (Option α)} {r : Rule} (hadv : AdvancesUpTo m item)
    (h : ∀ i, i.rest.length ≤ m → item.Ensures i fun a? rs j => rs = [] →
      match a? with
      | none => i.rest = j.rest
      | some _ => Derives r i.rest j.rest)
    (hi : i.rest.length ≤ m) :
    (collect item).Ensures i fun _ rs j => rs = [] → Derives (.many r) i.rest j.rest := by
  refine (collect_sound_to (Q := fun ms j => ms = j.rest) hadv h hi).mono fun _ rs j hj hrs => ?_
  obtain ⟨ms, hms, rfl⟩ := hj hrs
  exact hms

/-! ## 2. Expressions -/

section Expressions

/-- A missing value is always reported. -/
theorem missingValue_reports (pos : ValuePosition) (i : Input) :
    (missingValue pos).Ensures i fun _ rs _ => rs ≠ [] :=
  List.cons_ne_nil _ _

theorem unclosed_reports (c : Construct) (opener : Nat) (resume : TagSet) (i : Input) :
    (unclosed c opener resume).Ensures i fun _ rs _ => rs ≠ [] := by
  rw [ensures_unclosed]
  exact List.cons_ne_nil _ _

/-- Leftovers that are not reported were not there. -/
theorem leftovers_sound (c : Construct) (stop : TagSet) (lineSensitive : Bool) (i : Input) :
    (leftovers c stop lineSensitive).Ensures i fun _ rs j => rs = [] → j = i := by
  rw [ensures_leftovers]
  exact ⟨fun _ _ => rfl, fun n _ _ hrs => absurd hrs (List.cons_ne_nil _ _)⟩

variable (hexpr : ∀ pos i, i.rest.length < m →
  (expr .full pos).Ensures i fun _ rs j => rs = [] → Derives (.ref .expr) i.rest j.rest)

include hexpr in
theorem collect_values_sound (pos : ValuePosition) (hi : i.rest.length < m) :
    (collect (valueBehindComma? (expr .full pos))).Ensures i fun _ rs j => rs = [] →
      Derives (.many (.seq [.token .comma, .ref .expr])) i.rest j.rest := by
  have hreads : ∀ i, (expr .full pos).Ensures i (ReadsExpr i) :=
    fun i => (expr_reads _ _ i).mono fun _ _ _ h => h.1
  refine collect_sound (valueBehindComma?_advances hreads _) (fun k hk => ?_) (Nat.le_refl _)
  simp only [valueBehindComma?, ensures_bind, ensures_eat, ensures_pure, ↓reduceIte,
    Bool.false_eq_true, List.nil_append, List.append_nil]
  refine ⟨fun hcomma => ?_, fun _ _ => trivial⟩
  have hle := k.ahead_next.length_le
  refine (hexpr pos k.next (by omega)).mono fun e rs j he hrs => ?_
  rw [Input.rest_next] at he
  exact derives_behindComma.mpr ⟨hcomma, he hrs⟩

include hexpr in
/-- Values and the closing parenthesis behind them. -/
theorem values_sound (pos : ValuePosition) (c : Construct) (opener : Nat)
    (hi : i.rest.length < m) :
    (values (expr .full pos) c opener).Ensures i fun _ rs j => rs = [] →
      ∃ ms, Derives (.ref .values) i.rest ms ∧ headKind ms = .fixed .rparen ∧ ms.tail = j.rest := by
  simp only [values, ensures_bind, ensures_eat, ensures_pure, ↓reduceIte, Bool.false_eq_true,
    List.nil_append, List.append_nil]
  refine ⟨fun hclose _ => ⟨i.rest, derives_values.mpr (.inl rfl), hclose, (i.rest_next).symm⟩,
    fun _ => ?_⟩
  refine ((expr_reads .full pos i).and (hexpr pos i hi)).mono fun e rs j he => ?_
  obtain ⟨⟨hread, -⟩, he⟩ := he
  have hij := hread.moves.ahead.length_le
  refine (collect_values_sound hexpr pos (by omega)).mono fun es rs₁ k hes => ?_
  refine (leftovers_sound c _ false k).mono fun _ rs₂ l hl => ?_
  refine ⟨fun hclose hrs => ?_, fun _ => ?_⟩
  · simp only [List.append_eq_nil_iff] at hrs
    obtain ⟨hrs, hrs₁, hrs₂⟩ := hrs
    obtain rfl := hl hrs₂
    exact ⟨l.rest, derives_values.mpr (.inr ⟨j.rest, he hrs, hes hrs₁⟩), hclose,
      (l.rest_next).symm⟩
  · refine (unclosed_reports c opener _ l).mono fun _ rs₃ _ h hrs => ?_
    simp only [List.append_eq_nil_iff] at hrs
    exact absurd hrs.2.2.2 h

include hexpr in
theorem primary_sound (pos pos' : ValuePosition) (hi : i.rest.length ≤ m) :
    (primary (expr .full pos) pos').Ensures i fun _ rs j => rs = [] →
      Derives (.ref .primary) i.rest j.rest := by
  simp only [primary, ensures_bind, ensures_position, ensures_kind, List.nil_append]
  split
  case h_1 | h_2 | h_3 | h_4 | h_5 =>
    rename_i hk
    simp only [ensures_bind, ensures_next, ensures_pure]
    intro _
    refine derives_primary.mpr (.inl ⟨?_, (i.rest_next).symm⟩)
    rw [Input.headKind_rest, hk]
    rfl
  case h_6 hk =>
    have hlt := Input.length_next_lt (Input.rest_ne_nil hk)
    simp only [ensures_bind, ensures_next, ensures_runFrom, ensures_pure, List.nil_append,
      List.append_nil]
    refine (values_sound hexpr pos .tuple _ (by omega)).mono fun es rs j h hrs => ?_
    rw [Input.rest_next] at h
    exact derives_primary.mpr (.inr ⟨hk, h hrs⟩)
  case h_7 =>
    simp only [ensures_bind, ensures_invalidToken, ensures_pure]
    exact fun hrs => absurd hrs (List.cons_ne_nil _ _)
  case h_8 =>
    exact (missingValue_reports pos' i).mono fun _ _ _ h hrs => absurd hrs h

/-- Signs are always read in silence. -/
theorem collect_signs_sound (i : Input) :
    (collect sign?).Ensures i fun _ _ j => Derives (.many (.one isUnary)) i.rest j.rest := by
  have hloop : (collect sign?).Ensures i fun _ rs j => rs = [] →
      Derives (.many (.one isUnary)) i.rest j.rest := by
    refine ensures_collect (R := fun i _ rs j => rs = [] →
      Derives (.many (.one isUnary)) i.rest j.rest) (fun k => ?_) i
    simp only [sign?, ensures_bind, ensures_position, ensures_kind, List.nil_append]
    cases hsign : UnaryOperator.ofKind? k.kind with
    | none => exact fun _ => .done
    | some op =>
      simp only [ensures_bind, ensures_next, ensures_pure, List.nil_append]
      have hne := Input.rest_ne_nil_of_unary hsign
      refine ⟨Input.length_next_lt hne, fun ops rs' j h hrs => .more ?_ (h hrs)⟩
      rw [derives_one_iff rfl, Input.headKind_rest, isUnary, hsign]
      exact ⟨rfl, (k.rest_next).symm⟩
  exact (hloop.and (collect_signs_reads i)).mono fun _ rs j h => h.1 h.2.1

theorem prefixed_of_signs {ts ms us : List Terminal} (h : Derives (.many (.one isUnary)) ts ms)
    (h' : Derives (.ref .postfixed) ms us) : Derives (.ref .prefixed) ts us := by
  refine Derives.many_induction (P := fun ts ms => Derives (.ref .postfixed) ms us →
    Derives (.ref .prefixed) ts us) (fun ts h => derives_prefixed.mpr (.inr h)) ?_ h h'
  intro ts ns ms hsign _ ih h
  obtain ⟨hunary, rfl⟩ := (derives_one_iff rfl).mp hsign
  exact derives_prefixed.mpr (.inl ⟨hunary, ih h⟩)

include hexpr

theorem collect_arguments_sound (pos : ValuePosition) (hi : i.rest.length ≤ m) :
    (collect (arguments? (expr .full pos))).Ensures i fun _ rs j => rs = [] →
      Derives (.many (.ref .call)) i.rest j.rest := by
  have hreads : ∀ i, (expr .full pos).Ensures i (ReadsExpr i) :=
    fun i => (expr_reads _ _ i).mono fun _ _ _ h => h.1
  refine collect_sound (arguments?_advances hreads m) (fun k hk => ?_) hi
  simp only [arguments?, ensures_bind, ensures_position, ensures_check, ensures_afterNewline,
    List.nil_append]
  refine ⟨fun hopen => ?_, fun _ _ => rfl⟩
  split
  · rename_i hline
    have hlt := Input.length_next_lt (Input.rest_ne_nil hopen)
    simp only [ensures_bind, ensures_next, ensures_position, ensures_pure, List.nil_append,
      List.append_nil]
    refine (values_sound hexpr pos .call _ (by omega)).mono fun es rs j h hrs => ?_
    rw [Input.rest_next] at h
    exact derives_call.mpr ⟨by simpa [Input.onSameLine_rest] using hline, hopen, h hrs⟩
  · exact fun _ => rfl

theorem operand_sound (pos : ValuePosition) (hi : i.rest.length ≤ m) :
    (operand (expr .full) pos).Ensures i fun _ rs j => rs = [] →
      Derives (.ref .prefixed) i.rest j.rest := by
  have hreads : ∀ pos i, (expr .full pos).Ensures i (ReadsExpr i) :=
    fun pos i => (expr_reads _ pos i).mono fun _ _ _ h => h.1
  simp only [operand, ensures_bind, ensures_pure, List.append_nil]
  refine ((collect_signs_reads i).and (collect_signs_sound i)).mono fun signs rs j h => ?_
  obtain ⟨⟨-, hij, -⟩, hsigns⟩ := h
  have hij := hij.length_le
  refine ((primary_reads (hreads _) _ j).and (primary_sound hexpr _ _ (by omega))).mono
    fun callee rs₁ k h => ?_
  obtain ⟨⟨hread, -⟩, hcallee⟩ := h
  have hjk := hread.moves.ahead.length_le
  refine (collect_arguments_sound hexpr _ (by omega)).mono fun lists rs₂ l hlists hrs => ?_
  simp only [List.append_eq_nil_iff] at hrs
  obtain ⟨-, hrs₁, hrs₂⟩ := hrs
  exact prefixed_of_signs hsigns (derives_postfixed.mpr ⟨k.rest, hcallee hrs₁, hlists hrs₂⟩)

theorem chain_sound (pos : ValuePosition) (hi : i.rest.length ≤ m) :
    (chain (expr .full) pos).Ensures i fun _ rs j => rs = [] →
      Derives (.ref .binary) i.rest j.rest := by
  have hreads : ∀ pos i, (expr .full pos).Ensures i (ReadsExpr i) :=
    fun pos i => (expr_reads _ pos i).mono fun _ _ _ h => h.1
  simp only [chain, ensures_bind, ensures_pure, List.append_nil]
  refine ((operand_reads hreads pos i).and (operand_sound hexpr pos hi)).mono fun first rs j h => ?_
  obtain ⟨⟨hread, -⟩, hfirst⟩ := h
  have hij := hread.moves.ahead.length_le
  have hlinks : (collect (link? (expr .full))).Ensures j fun _ rs k => rs = [] →
      Derives (.many (.seq [.one isBinary, .ref .prefixed])) j.rest k.rest := by
    refine collect_sound (link?_advances hreads m) (fun k hk => ?_) (by omega)
    simp only [link?, ensures_bind, ensures_kind, List.nil_append]
    cases hop : BinaryOperator.ofKind? k.kind with
    | none => exact fun _ => rfl
    | some op =>
      have hle := k.ahead_next.length_le
      simp only [ensures_bind, ensures_next, ensures_pure, List.nil_append, List.append_nil]
      refine (operand_sound hexpr _ (by omega)).mono fun right rs l hright hrs => ?_
      rw [Input.rest_next] at hright
      refine derives_link.mpr ⟨?_, hright hrs⟩
      rw [Input.headKind_rest, isBinary, hop]
      rfl
  refine hlinks.mono fun links rs' k hk hrs => ?_
  obtain ⟨hrs, hrs'⟩ := List.append_eq_nil_iff.mp hrs
  exact derives_binary.mpr ⟨j.rest, hfirst hrs, hk hrs'⟩

/-- A ternary.  Both branches are behind the `?`. -/
theorem ternary_sound (hternary : ∀ pos i, i.rest.length < m →
      (expr .ternary pos).Ensures i fun _ rs j => rs = [] → Derives (.ref .ternary) i.rest j.rest)
    (pos : ValuePosition) (hi : i.rest.length ≤ m) :
    (ternary expr pos).Ensures i fun _ rs j => rs = [] →
      Derives (.ref .ternary) i.rest j.rest := by
  have hreads : ∀ pos i, (expr .full pos).Ensures i (ReadsExpr i) :=
    fun pos i => (expr_reads _ pos i).mono fun _ _ _ h => h.1
  simp only [ternary, ensures_bind, ensures_position, ensures_eat, List.nil_append, ↓reduceIte,
    Bool.false_eq_true, ensures_quietly, ensures_runFrom, ensures_pure, List.append_nil]
  refine ((chain_reads hreads pos i).and (chain_sound hexpr pos hi)).mono fun cond rs j h => ?_
  obtain ⟨⟨hread, -⟩, hcond⟩ := h
  have hij := hread.moves.ahead.length_le
  refine ⟨fun hmark => ?_, fun _ hrs => derives_ternary.mpr ⟨j.rest, hcond hrs, .inl rfl⟩⟩
  have hlt := Input.length_next_lt (Input.rest_ne_nil hmark)
  have htrue := hternary .ternary j.next (by omega)
  refine ((expr_reads .ternary .ternary j.next).and htrue).mono fun whenTrue rs₁ k h => ?_
  obtain ⟨⟨hread', -⟩, htrue⟩ := h
  have hjk := hread'.moves.ahead.length_le
  have hkk := k.ahead_next.length_le
  simp only [otherwise, ensures_bind, ensures_eat, ↓reduceIte, Bool.false_eq_true,
    List.nil_append]
  refine ⟨fun hcolon => ?_, fun _ => ?_⟩
  · refine (hternary .ternary k.next (by omega)).mono fun whenFalse rs₂ l hfalse hrs => ?_
    simp only [List.append_eq_nil_iff] at hrs
    obtain ⟨hrs, hrs₁, hrs₂⟩ := hrs
    rw [Input.rest_next] at htrue hfalse
    exact derives_ternary.mpr ⟨j.rest, hcond hrs, .inr ⟨hmark, k.rest, htrue hrs₁, hcolon,
      hfalse hrs₂⟩⟩
  · -- a silent first branch makes the missing `:` a problem
    split
    · simp only [ensures_bind, ensures_reportHere]
      intro hrs
      simp only [List.append_eq_nil_iff] at hrs
      exact absurd hrs.2.2.1 (List.cons_ne_nil _ _)
    · rename_i hquiet
      intro hrs
      simp only [List.append_eq_nil_iff] at hrs
      exact absurd (List.isEmpty_iff.mpr hrs.2.1) hquiet

/-- An assignment.  The value is behind the `=`. -/
theorem assignment_sound (hternary : ∀ pos i, i.rest.length < m →
      (expr .ternary pos).Ensures i fun _ rs j => rs = [] → Derives (.ref .ternary) i.rest j.rest)
    (pos : ValuePosition) (hi : i.rest.length ≤ m) :
    (assignment expr pos).Ensures i fun _ rs j => rs = [] →
      Derives (.ref .expr) i.rest j.rest := by
  simp only [assignment, ensures_bind, ensures_position, ensures_eat, List.nil_append,
    ↓reduceIte, Bool.false_eq_true, ensures_runFrom, ensures_pure, List.append_nil]
  have hread := ternary_reads (fun reach pos i => (expr_reads reach pos i).mono
    fun _ _ _ h => h.1) pos i
  refine (hread.and (ternary_sound hexpr hternary pos hi)).mono fun target rs j h => ?_
  obtain ⟨⟨hread, -⟩, htarget⟩ := h
  have hij := hread.moves.ahead.length_le
  refine ⟨fun hmark => ?_, fun _ hrs => derives_expr.mpr ⟨j.rest, htarget hrs, .inl rfl⟩⟩
  have hlt := Input.length_next_lt (Input.rest_ne_nil hmark)
  refine (hexpr .assignment j.next (by omega)).mono fun value rs₁ k hvalue hrs => ?_
  obtain ⟨hrs, hrs₁⟩ := List.append_eq_nil_iff.mp hrs
  rw [Input.rest_next] at hvalue
  exact derives_expr.mpr ⟨j.rest, htarget hrs, .inr ⟨hmark, hvalue hrs₁⟩⟩

end Expressions

/-- The nonterminal for an expression of the given reach. -/
def symbolOf : Reach → Symbol
  | .full => .expr
  | .ternary => .ternary

/-- **Expressions read in silence are derived.** -/
theorem expr_sound (reach : Reach) (pos : ValuePosition) (i : Input) :
    (expr reach pos).Ensures i fun _ rs j => rs = [] →
      Derives (.ref (symbolOf reach)) i.rest j.rest := by
  refine expr_induction (P := fun reach p i => p.Ensures i fun _ rs j => rs = [] →
    Derives (.ref (symbolOf reach)) i.rest j.rest) (fun pos i ih => ?_) (fun pos i ih => ?_)
    reach pos i
  · exact assignment_sound (ih .full) (ih .ternary) pos (Nat.le_refl _)
  · exact ternary_sound (ih .full) (ih .ternary) pos (Nat.le_refl _)

end Parser

end PlatformGate
