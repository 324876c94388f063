/-
# Derived expressions are read in silence

The converse for expressions.  A parser takes all that it can, so a derivation is followed to its
end only where nothing behind it could go on with it; `EndsExpr` and its kin say so of what comes
next.  Inside an expression that is always the case: what follows there is a bracket, a comma, a
colon or an operator that binds less.
-/
import PlatformGate.Proofs.Grammar.SoundValues

namespace PlatformGate

namespace Grammar

variable {ts ms us : List Terminal}

/-! ## 1. What ends an expression -/

/-- No argument list comes next. -/
def EndsOperand (us : List Terminal) : Prop :=
  onSameLine us = true → headKind us ≠ .fixed .lparen

/-- ... and no binary operator. -/
def EndsBinary (us : List Terminal) : Prop := EndsOperand us ∧ isBinary (headKind us) = false

/-- ... and no `?`. -/
def EndsTernary (us : List Terminal) : Prop := EndsBinary us ∧ headKind us ≠ .fixed .question

/-- ... and no `=`. -/
def EndsExpr (us : List Terminal) : Prop := EndsTernary us ∧ headKind us ≠ .fixed .eq

/-- A fixed token that is no operator and opens no argument list ends an expression. -/
theorem endsExpr_of_token {f : Fixed} (h : headKind us = .fixed f)
    (hf : f ∉ [.lparen, .question, .eq]) (hop : isBinary (.fixed f) = false) : EndsExpr us := by
  have hne : ∀ g ∈ [Fixed.lparen, .question, .eq], headKind us ≠ .fixed g := by
    intro g hg heq
    rw [h] at heq
    cases heq
    exact hf hg
  exact ⟨⟨⟨fun _ => hne _ (by decide), by rw [h]; exact hop⟩, hne _ (by decide)⟩, hne _ (by decide)⟩

theorem endsTernary_of_eq (h : headKind us = .fixed .eq) : EndsTernary us := by
  refine ⟨⟨fun _ => ?_, ?_⟩, ?_⟩ <;> rw [h]
  · nofun
  · rfl
  · nofun

theorem endsBinary_of_question (h : headKind us = .fixed .question) : EndsBinary us := by
  refine ⟨fun _ => ?_, ?_⟩ <;> rw [h]
  · nofun
  · rfl

theorem endsOperand_of_binary (h : isBinary (headKind us) = true) : EndsOperand us := by
  intro _ hopen
  rw [hopen] at h
  exact absurd h Bool.false_ne_true

/-- Repetition behind commas stops, or goes on with a comma. -/
theorem head_of_behindCommas {s : Symbol}
    (h : Derives (.many (.seq [.token .comma, .ref s])) ms us) :
    ms = us ∨ headKind ms = .fixed .comma := by
  cases h with
  | done => exact .inl rfl
  | more h _ => exact .inr (derives_behindComma.mp h).1

/-- An operand's signs, and what they stand in front of. -/
theorem signs_of_prefixed {ts us : List Terminal} (h : Derives (.ref .prefixed) ts us) :
    ∃ ms, Derives (.many (.one isUnary)) ts ms ∧ Derives (.ref .postfixed) ms us := by
  rcases derives_prefixed.mp h with ⟨hsign, h⟩ | h
  · have hlt := (begins_tail hsign rfl).2
    obtain ⟨ms, hsigns, hms⟩ := signs_of_prefixed h
    exact ⟨ms, .more ((derives_one_iff rfl).mpr ⟨hsign, rfl⟩) hsigns, hms⟩
  · exact ⟨ts, .done, h⟩
termination_by ts.length
decreasing_by exact hlt

/-- A value is no sign. -/
theorem no_sign_of_primary (h : Derives (.ref .primary) ts us) :
    isUnary (headKind ts) = false := by
  rcases derives_primary.mp h with ⟨hvalue, -⟩ | ⟨hopen, -⟩
  · cases hk : headKind ts with
    | fixed f =>
      rw [hk] at hvalue
      cases f <;> first | rfl | exact absurd hvalue (by decide)
    | _ => rfl
  · rw [hopen]
    rfl

end Grammar

open Grammar

namespace Parser

variable {α β : Type} {i : Input} {m : Nat} {us : List Terminal}

/-! ## 2. Loops -/

/-- Reading `i` reports nothing and leaves `us`. -/
def Accepts (p : Parser α) (i : Input) (us : List Terminal) : Prop :=
  p.Ensures i fun _ rs j => rs = [] ∧ j.rest = us

/-- A loop follows a repetition to its end, if each round follows it and what comes behind it stops
the loop. -/
theorem collect_complete_to {item : Parser (Option α)} {r : Rule} {F : List Terminal → Prop}
    {Q : List Terminal → Input → Prop} (hadv : AdvancesUpTo m item)
    (hmore : ∀ i ms us, i.rest.length ≤ m → Derives r i.rest ms → Derives (.many r) ms us →
      F us → item.Ensures i fun a? rs j => a?.isSome ∧ rs = [] ∧ j.rest = ms)
    (hdone : ∀ i, i.rest.length ≤ m → F i.rest →
      item.Ensures i fun a? rs j => a? = none ∧ rs = [] ∧ Q i.rest j)
    (hi : i.rest.length ≤ m) (h : Derives (.many r) i.rest us) (hus : F us) :
    (collect item).Ensures i fun _ rs j => rs = [] ∧ Q us j := by
  refine Derives.many_induction (P := fun ts us => ∀ i : Input, i.rest = ts →
    i.rest.length ≤ m → F us → (collect item).Ensures i fun _ rs j => rs = [] ∧ Q us j)
    ?_ ?_ h i rfl hi hus
  · rintro _ i rfl hi hus
    refine Ensures.of_eq ?_ (collect_eq fun j hj => hadv j (Nat.le_trans hj hi))
    rw [round, ensures_bind]
    refine (hdone i hi hus).mono fun a? rs j h => ?_
    obtain ⟨rfl, rfl, hj⟩ := h
    exact ⟨rfl, hj⟩
  · rintro _ ms us h hs ih i rfl hi hus
    refine Ensures.of_eq ?_ (collect_eq fun j hj => hadv j (Nat.le_trans hj hi))
    rw [round, ensures_bind]
    refine ((hadv i hi).and (hmore i ms us hi h hs hus)).mono fun a? rs j h => ?_
    obtain ⟨hlt, hsome, rfl, hj⟩ := h
    have hlt := hlt hsome
    cases a? with
    | none => exact absurd hsome (by simp)
    | some a =>
      simp only [ensures_bind, ensures_pure, List.nil_append, List.append_nil]
      exact ih j hj (by omega) hus

/-- The same for an item that takes nothing where it gives nothing. -/
theorem collect_complete {item : Parser (Option α)} {r : Rule} {F : List Terminal → Prop}
    (hadv : AdvancesUpTo m item)
    (hmore : ∀ i ms us, i.rest.length ≤ m → Derives r i.rest ms → Derives (.many r) ms us →
      F us → item.Ensures i fun a? rs j => a?.isSome ∧ rs = [] ∧ j.rest = ms)
    (hdone : ∀ i, F i.rest → item.Ensures i fun a? rs j => a? = none ∧ rs = [] ∧ j = i)
    (hi : i.rest.length ≤ m) (h : Derives (.many r) i.rest us) (hus : F us) :
    Accepts (collect item) i us := by
  refine collect_complete_to (Q := fun us j => j.rest = us) hadv hmore (fun i _ hF => ?_) hi h hus
  refine (hdone i hF).mono fun a? rs j h => ?_
  obtain ⟨rfl, rfl, rfl⟩ := h
  exact ⟨rfl, rfl, rfl⟩

/-! ## 3. Expressions -/

/-- There are no leftovers in front of a token that ends them. -/
theorem leftovers_quiet {c : Construct} {stop : TagSet} {lineSensitive : Bool}
    (h : stop.contains i.kind = true) (hne : i.rest ≠ []) :
    (leftovers c stop lineSensitive).Ensures i fun _ rs j => rs = [] ∧ j = i := by
  rw [ensures_leftovers]
  refine ⟨fun _ => ⟨rfl, rfl⟩, fun n hn hn0 => absurd hn (Ne.symm ?_)⟩
  obtain ⟨t, ts, hts⟩ := List.exists_cons_of_ne_nil hne
  rw [Input.kind_eq_head hts] at h
  rw [hts]
  simpa [captureLength, endsCapture, h] using hn0

section Expressions

variable (hexpr : ∀ pos i us, i.rest.length < m → Derives (.ref .expr) i.rest us → EndsExpr us →
  Accepts (expr .full pos) i us)

include hexpr in
theorem collect_values_complete (pos : ValuePosition) (hi : i.rest.length < m)
    (h : Derives (.many (.seq [.token .comma, .ref .expr])) i.rest us)
    (hus : headKind us = .fixed .rparen) :
    Accepts (collect (valueBehindComma? (expr .full pos))) i us := by
  have hreads : ∀ i, (expr .full pos).Ensures i (ReadsExpr i) :=
    fun i => (expr_reads _ _ i).mono fun _ _ _ h => h.1
  refine collect_complete (F := fun us => headKind us = .fixed .rparen)
    (valueBehindComma?_advances hreads _) (fun k ms us hk h hs hus => ?_) (fun k hk => ?_)
    (Nat.le_refl _) h hus <;>
    simp only [valueBehindComma?, ensures_bind, ensures_eat, ensures_pure, ↓reduceIte,
      Bool.false_eq_true, List.nil_append, List.append_nil]
  · obtain ⟨hcomma, h⟩ := derives_behindComma.mp h
    refine ⟨fun _ => ?_, fun hne => absurd hcomma hne⟩
    have hms : EndsExpr ms := by
      rcases head_of_behindCommas hs with rfl | hms
      · exact endsExpr_of_token hus (by decide) rfl
      · exact endsExpr_of_token hms (by decide) rfl
    have hle := k.ahead_next.length_le
    rw [← Input.rest_next] at h
    exact (hexpr pos k.next ms (by omega) h hms).mono fun _ _ _ h => ⟨rfl, h⟩
  · exact ⟨fun hcomma => absurd (hk.symm.trans hcomma) (by decide), fun _ => ⟨trivial, trivial, trivial⟩⟩

include hexpr in
theorem values_complete (pos : ValuePosition) (c : Construct) (opener : Nat)
    (hi : i.rest.length < m) (h : Derives (.ref .values) i.rest us)
    (hus : headKind us = .fixed .rparen) :
    Accepts (values (expr .full pos) c opener) i us.tail := by
  simp only [Accepts, values, ensures_bind, ensures_eat, ensures_pure, ↓reduceIte,
    Bool.false_eq_true, List.nil_append, List.append_nil]
  rcases derives_values.mp h with rfl | ⟨ms, hfirst, hothers⟩
  · exact ⟨fun _ => ⟨trivial, i.rest_next⟩, fun hne => absurd hus hne⟩
  refine ⟨fun hclose => ?_, fun _ => ?_⟩
  · have hstart := (expr_begins hfirst).1
    rw [Input.headKind_rest, hclose] at hstart
    exact absurd hstart Bool.false_ne_true
  have hms : EndsExpr ms := by
    rcases head_of_behindCommas hothers with rfl | hms
    · exact endsExpr_of_token hus (by decide) rfl
    · exact endsExpr_of_token hms (by decide) rfl
  refine (hexpr pos i ms hi hfirst hms).mono fun e rs j h => ?_
  obtain ⟨rfl, rfl⟩ := h
  have hle := hfirst.length_le
  refine (collect_values_complete hexpr pos (by omega) hothers hus).mono fun es rs k h => ?_
  obtain ⟨rfl, rfl⟩ := h
  have hk : k.kind = .fixed .rparen := hus
  refine (leftovers_quiet (by rw [hk]; rfl) (Input.rest_ne_nil hk)).mono fun _ rs l h => ?_
  obtain ⟨rfl, rfl⟩ := h
  exact ⟨fun _ => ⟨rfl, l.rest_next⟩, fun hne => absurd hk hne⟩

include hexpr in
theorem primary_complete (pos pos' : ValuePosition) (hi : i.rest.length ≤ m)
    (h : Derives (.ref .primary) i.rest us) : Accepts (primary (expr .full pos) pos') i us := by
  simp only [Accepts, primary, ensures_bind, ensures_position, ensures_kind, List.nil_append]
  rcases derives_primary.mp h with ⟨hvalue, rfl⟩ | ⟨hopen, ms, hvalues, hclose, rfl⟩
  · rw [Input.headKind_rest] at hvalue
    split
    case h_1 | h_2 | h_3 | h_4 | h_5 => exact ⟨rfl, i.rest_next⟩
    case h_6 hk | h_7 hk => rw [hk] at hvalue; exact absurd hvalue Bool.false_ne_true
    case h_8 hnum htrue hfalse hword hdiscard _ _ =>
      cases hk : i.kind with
      | number v => exact absurd hk (hnum v)
      | word name => exact absurd hk (hword name)
      | poundWord | invalid | endOfFile =>
        rw [hk] at hvalue
        exact absurd hvalue Bool.false_ne_true
      | fixed f =>
        rw [hk] at hvalue
        cases f <;> first
          | exact absurd hvalue (by decide) | exact absurd hk htrue | exact absurd hk hfalse
          | exact absurd hk hdiscard
  · have hk : i.kind = .fixed .lparen := hopen
    have hlt := Input.length_next_lt (Input.rest_ne_nil hk)
    rw [← Input.rest_next] at hvalues
    rw [hk]
    simp only [ensures_bind, ensures_next, ensures_runFrom, ensures_pure, List.nil_append,
      List.append_nil]
    exact values_complete hexpr pos .tuple _ (by omega) hvalues hclose

theorem collect_signs_complete (h : Derives (.many (.one isUnary)) i.rest us)
    (hus : isUnary (headKind us) = false) : Accepts (collect sign?) i us := by
  refine collect_complete (m := i.rest.length) (F := fun us => isUnary (headKind us) = false)
    (fun k _ => ?_) (fun k ms us hk h _ _ => ?_) (fun k hk => ?_) (Nat.le_refl _) h hus <;>
    simp only [sign?, ensures_bind, ensures_position, ensures_kind, List.nil_append]
  · cases hsign : UnaryOperator.ofKind? k.kind with
    | none => exact fun h => absurd h (by simp [pure_apply])
    | some op => exact fun _ => Input.length_next_lt (Input.rest_ne_nil_of_unary hsign)
  · obtain ⟨hunary, rfl⟩ := (derives_one_iff rfl).mp h
    obtain ⟨op, hop⟩ := Option.isSome_iff_exists.mp hunary
    rw [Input.headKind_rest] at hop
    rw [hop]
    exact ⟨rfl, rfl, k.rest_next⟩
  · rw [Input.headKind_rest, isUnary, Option.isSome_eq_false_iff, Option.isNone_iff_eq_none] at hk
    rw [hk]
    exact ⟨rfl, rfl, rfl⟩

include hexpr

theorem collect_arguments_complete (pos : ValuePosition) (hi : i.rest.length ≤ m)
    (h : Derives (.many (.ref .call)) i.rest us) (hus : EndsOperand us) :
    Accepts (collect (arguments? (expr .full pos))) i us := by
  have hreads : ∀ i, (expr .full pos).Ensures i (ReadsExpr i) :=
    fun i => (expr_reads _ _ i).mono fun _ _ _ h => h.1
  refine collect_complete (F := EndsOperand) (arguments?_advances hreads m)
    (fun k ms us hk h _ _ => ?_) (fun k hk => ?_) hi h hus <;>
    simp only [arguments?, ensures_bind, ensures_position, ensures_check, ensures_afterNewline,
      List.nil_append]
  · obtain ⟨hline, hopen, ns, hvalues, hclose, rfl⟩ := derives_call.mp h
    refine ⟨fun hk' => ?_, fun hne => absurd hopen hne⟩
    have hlt := Input.length_next_lt (Input.rest_ne_nil hk')
    rw [Input.onSameLine_rest, Bool.not_eq_true'] at hline
    rw [← Input.rest_next] at hvalues
    simp only [hline, Bool.not_false, Bool.and_self, ↓reduceIte, ensures_bind, ensures_next,
      ensures_position, ensures_pure, List.nil_append, List.append_nil]
    exact (values_complete hexpr pos .call _ (by omega) hvalues hclose).mono
      fun _ _ _ h => ⟨rfl, h⟩
  · refine ⟨fun hopen => ?_, fun _ => ⟨rfl, rfl, rfl⟩⟩
    cases hline : k.afterNewline with
    | true =>
      simp only [Bool.not_true, Bool.and_false, Bool.false_eq_true, ↓reduceIte]
      exact ⟨rfl, rfl, rfl⟩
    | false =>
      have hsame : onSameLine k.rest = true := by rw [Input.onSameLine_rest, hline, Bool.not_false]
      exact absurd hopen (hk hsame)

theorem operand_complete (pos : ValuePosition) (hi : i.rest.length ≤ m)
    (h : Derives (.ref .prefixed) i.rest us) (hus : EndsOperand us) :
    Accepts (operand (expr .full) pos) i us := by
  obtain ⟨ms, hsigns, hpostfixed⟩ := signs_of_prefixed h
  obtain ⟨ns, hprimary, hcalls⟩ := derives_postfixed.mp hpostfixed
  have hms := hsigns.length_le
  have hns := hprimary.length_le
  simp only [Accepts, operand, ensures_bind, ensures_pure, List.append_nil]
  refine (collect_signs_complete hsigns (no_sign_of_primary hprimary)).mono fun signs rs j h => ?_
  obtain ⟨rfl, rfl⟩ := h
  refine (primary_complete hexpr _ _ (by omega) hprimary).mono fun callee rs k h => ?_
  obtain ⟨rfl, rfl⟩ := h
  exact collect_arguments_complete hexpr _ (by omega) hcalls hus

theorem chain_complete (pos : ValuePosition) (hi : i.rest.length ≤ m)
    (h : Derives (.ref .binary) i.rest us) (hus : EndsBinary us) :
    Accepts (chain (expr .full) pos) i us := by
  have hreads : ∀ pos i, (expr .full pos).Ensures i (ReadsExpr i) :=
    fun pos i => (expr_reads _ pos i).mono fun _ _ _ h => h.1
  obtain ⟨ms, hfirst, hlinks⟩ := derives_binary.mp h
  have hends : ∀ {ms us : List Terminal},
      Derives (.many (.seq [.one isBinary, .ref .prefixed])) ms us → EndsBinary us →
        EndsOperand ms := by
    intro ms us h hus
    cases h with
    | done => exact hus.1
    | more h _ => exact endsOperand_of_binary (derives_link.mp h).1
  have hms := hfirst.length_le
  simp only [Accepts, chain, ensures_bind, ensures_pure, List.append_nil]
  refine (operand_complete hexpr pos hi hfirst (hends hlinks hus)).mono fun first rs j h => ?_
  obtain ⟨rfl, rfl⟩ := h
  refine collect_complete (F := EndsBinary) (link?_advances hreads m)
    (fun k ns us hk h hs hus => ?_) (fun k hk => ?_) (by omega) hlinks hus <;>
    simp only [link?, ensures_bind, ensures_kind, List.nil_append]
  · obtain ⟨hbinary, hright⟩ := derives_link.mp h
    obtain ⟨op, hop⟩ := Option.isSome_iff_exists.mp hbinary
    rw [Input.headKind_rest] at hop
    have hle := k.ahead_next.length_le
    rw [← Input.rest_next] at hright
    simp only [hop, ensures_bind, ensures_next, ensures_pure, List.nil_append, List.append_nil]
    exact (operand_complete hexpr _ (by omega) hright (hends hs hus)).mono fun _ _ _ h => ⟨rfl, h⟩
  · have hnone := hk.2
    rw [Input.headKind_rest, isBinary, Option.isSome_eq_false_iff, Option.isNone_iff_eq_none]
      at hnone
    rw [hnone]
    exact ⟨rfl, rfl, rfl⟩

theorem ternary_complete (hternary : ∀ pos i us, i.rest.length < m →
      Derives (.ref .ternary) i.rest us → EndsTernary us → Accepts (expr .ternary pos) i us)
    (pos : ValuePosition) (hi : i.rest.length ≤ m) (h : Derives (.ref .ternary) i.rest us)
    (hus : EndsTernary us) : Accepts (ternary expr pos) i us := by
  obtain ⟨ms, hcond, htail⟩ := derives_ternary.mp h
  have hms : EndsBinary ms := by
    rcases htail with rfl | ⟨hmark, -⟩
    · exact hus.1
    · exact endsBinary_of_question hmark
  have hle := hcond.length_le
  simp only [Accepts, ternary, ensures_bind, ensures_position, ensures_eat, List.nil_append,
    ↓reduceIte, Bool.false_eq_true, ensures_quietly, ensures_runFrom, ensures_pure,
    List.append_nil]
  refine (chain_complete hexpr pos hi hcond hms).mono fun cond rs j h => ?_
  obtain ⟨rfl, rfl⟩ := h
  rcases htail with rfl | ⟨hmark, ns, htrue, hcolon, hfalse⟩
  · exact ⟨fun hmark => absurd hmark hus.2, fun _ => ⟨rfl, rfl⟩⟩
  refine ⟨fun hj => ?_, fun hne => absurd hmark hne⟩
  have hlt := Input.length_next_lt (Input.rest_ne_nil hj)
  rw [← Input.rest_next] at htrue
  refine (hternary .ternary j.next ns (by omega) htrue (endsExpr_of_token hcolon (by decide) rfl).1).mono
    fun whenTrue rs k h => ?_
  obtain ⟨rfl, rfl⟩ := h
  have hk := htrue.length_le
  have hkk := k.ahead_next.length_le
  simp only [otherwise, ensures_bind, ensures_eat, ↓reduceIte, Bool.false_eq_true,
    List.nil_append]
  refine ⟨fun _ => ?_, fun hne => absurd hcolon hne⟩
  rw [← Input.rest_next] at hfalse
  exact hternary .ternary k.next us (by omega) hfalse hus

theorem assignment_complete (hternary : ∀ pos i us, i.rest.length < m →
      Derives (.ref .ternary) i.rest us → EndsTernary us → Accepts (expr .ternary pos) i us)
    (pos : ValuePosition) (hi : i.rest.length ≤ m) (h : Derives (.ref .expr) i.rest us)
    (hus : EndsExpr us) : Accepts (assignment expr pos) i us := by
  obtain ⟨ms, htarget, htail⟩ := derives_expr.mp h
  have hms : EndsTernary ms := by
    rcases htail with rfl | ⟨heq, -⟩
    · exact hus.1
    · exact endsTernary_of_eq heq
  have hle := htarget.length_le
  simp only [Accepts, assignment, ensures_bind, ensures_position, ensures_eat, List.nil_append,
    ↓reduceIte, Bool.false_eq_true, ensures_runFrom, ensures_pure, List.append_nil]
  refine (ternary_complete hexpr hternary pos hi htarget hms).mono fun target rs j h => ?_
  obtain ⟨rfl, rfl⟩ := h
  rcases htail with rfl | ⟨heq, hvalue⟩
  · exact ⟨fun heq => absurd heq hus.2, fun _ => ⟨rfl, rfl⟩⟩
  refine ⟨fun hj => ?_, fun hne => absurd heq hne⟩
  have hlt := Input.length_next_lt (Input.rest_ne_nil hj)
  rw [← Input.rest_next] at hvalue
  exact hexpr .assignment j.next us (by omega) hvalue hus

end Expressions

/-- What ends an expression of the given reach. -/
def Ends : Reach → List Terminal → Prop
  | .full => EndsExpr
  | .ternary => EndsTernary

/-- **Derived expressions are read in silence,** and to their end. -/
theorem expr_complete (reach : Reach) (pos : ValuePosition) (i : Input) (us : List Terminal)
    (h : Derives (.ref (symbolOf reach)) i.rest us) (hus : Ends reach us) :
    Accepts (expr reach pos) i us := by
  refine expr_induction (P := fun reach p i => ∀ us, Derives (.ref (symbolOf reach)) i.rest us →
    Ends reach us → Accepts p i us) (fun pos i ih => ?_) (fun pos i ih => ?_) reach pos i us h hus
  · intro us h hus
    exact assignment_complete (fun pos j us hj => ih .full pos j hj us)
      (fun pos j us hj => ih .ternary pos j hj us) pos (Nat.le_refl _) h hus
  · intro us h hus
    exact ternary_complete (fun pos j us hj => ih .full pos j hj us)
      (fun pos j us hj => ih .ternary pos j hj us) pos (Nat.le_refl _) h hus

end Parser

end PlatformGate
