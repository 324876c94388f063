/-
# Expressions read in silence are read as they are written

Where an expression was read and nothing was reported, the expression has no hole, and the terminals
that were taken are those of the expression as it is written (`Parser.Writes`).  Grouping a chain of
operands changes the tree and not what is written: `Expr.graft` puts an operator and an operand
behind all that stands in front.
-/
import PlatformGate.Proofs.Grammar.SoundValues
import PlatformGate.Proofs.Printing.Marks

namespace PlatformGate

open Mark

/-! ## 1. Terminals that are taken -/

namespace Input

variable {i j k : Input} {ms ms' : List Mark}

/-- Between `i` and `j` the terminals of the marks were taken. -/
def Reads (ms : List Mark) (i j : Input) : Prop :=
  ∃ us, i.rest = us ++ j.rest ∧ Yields ms (us.map Terminal.kind)

theorem Reads.refl (i : Input) : i.Reads [] i := ⟨[], rfl, rfl⟩

theorem Reads.trans (h : Reads ms i j) (h' : Reads ms' j k) : Reads (ms ++ ms') i k := by
  obtain ⟨us, hus, hms⟩ := h
  obtain ⟨vs, hvs, hms'⟩ := h'
  refine ⟨us ++ vs, ?_, ?_⟩
  · rw [hus, hvs, List.append_assoc]
  · rw [List.map_append]
    exact hms.append hms'

/-- A terminal and what is taken behind it. -/
theorem Reads.cons (hne : i.rest ≠ []) (h : Reads ms i.next j) :
    Reads (.one i.kind :: ms) i j := by
  obtain ⟨t, ts, hts⟩ := List.exists_cons_of_ne_nil hne
  obtain ⟨us, hus, hms⟩ := h
  rw [next_eq_of_rest hts] at hus
  refine ⟨t :: us, ?_, us.map Terminal.kind, ?_, hms⟩
  · rw [hts, show ts = us ++ j.rest from hus, List.cons_append]
  · rw [kind_eq_head hts, List.map_cons]

/-- A token of fixed spelling and what is taken behind it. -/
theorem Reads.fixed {f : Fixed} (hkind : i.kind = .fixed f) (h : Reads ms i.next j) :
    Reads (Mark.fixed f :: ms) i j := by
  have := h.cons (rest_ne_nil hkind)
  rwa [hkind] at this

theorem reads_kind {k : Kind String} (hkind : i.kind = k) (hk : (k != .endOfFile) = true) :
    Reads [.one k] i i.next := by
  subst hkind
  exact .cons (rest_ne_nil_of_kind (bne_iff_ne.mp hk)) (.refl _)

theorem reads_fixed {f : Fixed} (hkind : i.kind = .fixed f) : Reads [Mark.fixed f] i i.next :=
  .fixed hkind (.refl _)

/-- Marks with a token among them take a terminal. -/
theorem Reads.length_lt {k : Kind String} (h : Reads (.one k :: ms) i j) :
    j.rest.length < i.rest.length := by
  obtain ⟨us, hus, rest, hrest, -⟩ := h
  have hlength := congrArg List.length hrest
  rw [List.length_map, List.length_cons] at hlength
  rw [hus, List.length_append]
  omega

end Input

/-! ## 2. Silence -/

namespace Parser

/-- If nothing was reported, what was read is complete, and was read as the marks say. -/
def Writes (complete : Bool) (ms : List Mark) (i : Input) (rs : List (Report Run)) (j : Input) :
    Prop :=
  rs = [] → complete = true ∧ i.Reads ms j

namespace Writes

variable {b b' : Bool} {ms ms' : List Mark} {i j k : Input} {rs rs' : List (Report Run)}

theorem nothing (i : Input) : Writes true [] i [] i := fun _ => ⟨rfl, .refl i⟩

theorem kind {k : Kind String} (hkind : i.kind = k) (hk : (k != .endOfFile) = true) :
    Writes true [.one k] i [] i.next := fun _ => ⟨rfl, Input.reads_kind hkind hk⟩

/-- Nothing is said of what was reported. -/
theorem of_ne (h : rs ≠ []) : Writes b ms i rs j := fun hrs => absurd hrs h

theorem mono (h : Writes b ms i rs j) (hb : b = true → b' = true) : Writes b' ms i rs j :=
  fun hrs => (h hrs).imp_left hb

theorem append (h : Writes b ms i rs j) (h' : Writes b' ms' j rs' k) :
    Writes (b && b') (ms ++ ms') i (rs ++ rs') k := by
  intro hrs
  obtain ⟨hrs, hrs'⟩ := List.append_eq_nil_iff.mp hrs
  obtain ⟨hb, hreads⟩ := h hrs
  obtain ⟨hb', hreads'⟩ := h' hrs'
  exact ⟨Bool.and_eq_true_iff.mpr ⟨hb, hb'⟩, hreads.trans hreads'⟩

theorem fixed {f : Fixed} (h : Writes b ms i.next rs j) (hkind : i.kind = .fixed f) :
    Writes b (Mark.fixed f :: ms) i rs j := by
  intro hrs
  obtain ⟨hb, hreads⟩ := h hrs
  exact ⟨hb, hreads.fixed hkind⟩

theorem before_fixed {f : Fixed} (h : Writes b ms i rs j) (hkind : j.kind = .fixed f) :
    Writes b (ms ++ [Mark.fixed f]) i rs j.next := by
  intro hrs
  obtain ⟨hb, hreads⟩ := h hrs
  exact ⟨hb, hreads.trans (Input.reads_fixed hkind)⟩

/-- What stays where it is in silence is not written. -/
theorem behind_quiet (h : rs = [] → j = i) (h' : Writes b ms j rs' k) :
    Writes b ms i (rs ++ rs') k := by
  intro hrs
  obtain ⟨hrs, hrs'⟩ := List.append_eq_nil_iff.mp hrs
  obtain rfl := h hrs
  exact h' hrs'

theorem before_quiet (h : Writes b ms i rs j) (h' : rs' = [] → k = j) :
    Writes b ms i (rs ++ rs') k := by
  intro hrs
  obtain ⟨hrs, hrs'⟩ := List.append_eq_nil_iff.mp hrs
  obtain rfl := h' hrs'
  exact h hrs

end Writes

/-! ## 3. Loops -/

section Loop

variable {α : Type}

/-- A round of a loop writes back what it gives.  The last round gives nothing and writes `last`. -/
def WritesItem (complete : α → Bool) (M : α → List Mark) (last : List Mark) (i : Input)
    (a? : Option α) (rs : List (Report Run)) (j : Input) : Prop :=
  Writes (a?.all complete) (a?.elim last M) i rs j

/-- **The rule of the loop.**  If every round writes back what it gives, so does the loop, with
`last` behind it. -/
theorem collect_writes {item : Parser (Option α)} {complete : α → Bool} {M : α → List Mark}
    {last : List Mark} (h : ∀ i, item.Ensures i (WritesItem complete M last i))
    (hM : ∀ a, complete a = true → ∃ k ms, M a = .one k :: ms) (i : Input) :
    (collect item).Ensures i fun as rs j =>
      Writes (as.all complete) (as.flatMap M ++ last) i rs j := by
  have hwithin : ∀ n i, i.rest.length < n →
      (collectWithin item n).Ensures i fun as rs j =>
        Writes (as.all complete) (as.flatMap M ++ last) i rs j := by
    intro n
    induction n with
    | zero => exact fun i hi => absurd hi (Nat.not_lt_zero _)
    | succ n ih =>
      intro i hi
      rw [collectWithin_succ, round, ensures_bind]
      refine (h i).mono fun a? rs j hround => ?_
      cases a? with
      | none =>
        simp only [ensures_pure, List.append_nil]
        exact hround
      | some a =>
        by_cases hrs : rs = []
        · -- a silent round has taken a terminal
          obtain ⟨ha, hreads⟩ := hround hrs
          obtain ⟨k, ms, hk⟩ := hM a ha
          have hlt := (hk ▸ hreads : i.Reads (.one k :: ms) j).length_lt
          rw [ensures_bind]
          refine (ih j (by omega)).mono fun as rs' k hagain => ?_
          simp only [ensures_pure, List.append_nil, List.flatMap_cons, List.append_assoc]
          exact Writes.append hround hagain
        · exact .of_ne fun h => hrs (List.append_eq_nil_iff.mp h).1
  exact hwithin (i.rest.length + 1) i (Nat.lt_succ_self _)

end Loop

end Parser

/-! ## 4. Grouping -/

namespace Expr

/-- **The operator and its operand are written behind the expression.** -/
theorem marks_graft (op : BinaryOperator) (right : Expr Run) :
    ∀ e : Expr Run, (graft op right e).marks = e.marks ++ fixed op.token :: right.marks
  | .binary o l r p => by
    unfold graft
    split
    · rw [marks, marks, marks_graft op right r, List.append_assoc]
      rfl
    · rw [marks]
  | .int .. | .bool .. | .ident .. | .discard .. | .paren .. | .tuple .. | .call .. | .unary ..
  | .ternary .. | .assign .. | .error .. => rfl

theorem isComplete_graft (op : BinaryOperator) (right : Expr Run) :
    ∀ e : Expr Run, (graft op right e).isComplete = (e.isComplete && right.isComplete)
  | .binary o l r p => by
    unfold graft
    split
    · rw [isComplete, isComplete, isComplete_graft op right r, Bool.and_assoc]
    · rw [isComplete]
  | .int .. | .bool .. | .ident .. | .discard .. | .paren .. | .tuple .. | .call .. | .unary ..
  | .ternary .. | .assign .. | .error .. => rfl

/-- A link of a chain as it is written. -/
def linkMarks (link : BinaryOperator × Expr Run) : List Mark :=
  fixed link.1.token :: link.2.marks

theorem marks_ofChain (first : Expr Run) (links : List (BinaryOperator × Expr Run)) :
    (ofChain first links).marks = first.marks ++ links.flatMap linkMarks := by
  unfold ofChain
  induction links generalizing first with
  | nil => exact (List.append_nil _).symm
  | cons link links ih =>
    rw [List.foldl_cons, ih, marks_graft, List.flatMap_cons, List.append_assoc]
    rfl

theorem isComplete_ofChain (first : Expr Run) (links : List (BinaryOperator × Expr Run)) :
    (ofChain first links).isComplete =
      (first.isComplete && links.all fun link => link.2.isComplete) := by
  unfold ofChain
  induction links generalizing first with
  | nil => exact (Bool.and_true _).symm
  | cons link links ih => rw [List.foldl_cons, ih, isComplete_graft, List.all_cons, Bool.and_assoc]

theorem marks_ofSigns (signs : List (UnaryOperator × Nat)) (operand : Expr Run) :
    (ofSigns signs operand).marks =
      signs.flatMap (fun s => [fixed s.1.token]) ++ operand.marks := by
  unfold ofSigns
  induction signs with
  | nil => rfl
  | cons s signs ih =>
    rw [List.foldr_cons, marks, ih]
    rfl

theorem isComplete_ofSigns (signs : List (UnaryOperator × Nat)) (operand : Expr Run) :
    (ofSigns signs operand).isComplete = operand.isComplete := by
  unfold ofSigns
  induction signs with
  | nil => rfl
  | cons s signs ih => rw [List.foldr_cons, isComplete, ih]

/-- A list of arguments as it is written. -/
def callMarks (l : List (Expr Run) × Nat) : List Mark :=
  fixed .lparen :: (separated .comma (allMarks l.1) ++ [fixed .rparen])

theorem marks_ofCalls (callee : Expr Run) (lists : List (List (Expr Run) × Nat)) :
    (ofCalls callee lists).marks = callee.marks ++ lists.flatMap callMarks := by
  unfold ofCalls
  induction lists generalizing callee with
  | nil => exact (List.append_nil _).symm
  | cons l lists ih =>
    rw [List.foldl_cons, ih, marks, List.flatMap_cons, List.append_assoc]
    rfl

theorem isComplete_ofCalls (callee : Expr Run) (lists : List (List (Expr Run) × Nat)) :
    (ofCalls callee lists).isComplete =
      (callee.isComplete && lists.all fun l => allComplete l.1) := by
  unfold ofCalls
  induction lists generalizing callee with
  | nil => exact (Bool.and_true _).symm
  | cons l lists ih => rw [List.foldl_cons, ih, isComplete, List.all_cons, Bool.and_assoc]

/-- One value in parentheses is written as a tuple of one would be. -/
theorem marks_grouped (es : List (Expr Run)) (place : Run) :
    (Parser.grouped place es).marks =
      fixed .lparen :: (separated .comma (allMarks es) ++ [fixed .rparen]) := by
  match es with
  | [] => rfl
  | [e] =>
    rw [Parser.grouped, marks, allMarks, allMarks, separated, List.flatMap_nil, List.append_nil]
  | e :: e' :: es => rfl

theorem isComplete_grouped (es : List (Expr Run)) (place : Run) :
    (Parser.grouped place es).isComplete = allComplete es := by
  match es with
  | [] => rfl
  | [e] => rw [Parser.grouped, isComplete, allComplete, allComplete, Bool.and_true]
  | e :: e' :: es => rfl

end Expr

/-! ## 5. Expressions -/

namespace Parser

variable {i : Input}

/-- The expression is written back. -/
def WritesExpr (i : Input) (e : Expr Run) (rs : List (Report Run)) (j : Input) : Prop :=
  Writes e.isComplete e.marks i rs j

theorem missingValue_writes (pos : ValuePosition) (i : Input) :
    (missingValue pos).Ensures i (WritesExpr i) := Writes.of_ne (List.cons_ne_nil _ _)

section Values

variable {value : Parser (Expr Run)} (hvalue : ∀ i, value.Ensures i (WritesExpr i))

include hvalue

theorem valueBehindComma?_writes (i : Input) :
    (valueBehindComma? value).Ensures i
      (WritesItem Expr.isComplete (fun e => fixed .comma :: e.marks) [] i) := by
  simp only [valueBehindComma?, ensures_bind, ensures_eat, ensures_pure, ↓reduceIte,
    Bool.false_eq_true, List.nil_append, List.append_nil]
  refine ⟨fun hcomma => ?_, fun _ => Writes.nothing i⟩
  exact (hvalue i.next).mono fun e rs j he => Writes.fixed he hcomma

theorem values_writes (c : Construct) (opener : Nat) (i : Input) :
    (values value c opener).Ensures i fun es rs j =>
      Writes (Expr.allComplete es) (separated .comma (Expr.allMarks es) ++ [fixed .rparen]) i rs
        j := by
  have hloop := collect_writes (valueBehindComma?_writes hvalue) fun e _ => ⟨_, _, rfl⟩
  simp only [values, ensures_bind, ensures_eat, ensures_pure, ↓reduceIte, Bool.false_eq_true,
    List.nil_append, List.append_nil]
  refine ⟨fun hclose => (Writes.nothing i).before_fixed hclose, fun _ => ?_⟩
  refine (hvalue i).mono fun first rs j hfirst => ?_
  refine (hloop j).mono fun others rs₁ k hothers => ?_
  refine (leftovers_sound c _ false k).mono fun _ rs₂ l hl => ?_
  refine ⟨fun hclose => ?_, fun _ => ?_⟩
  · rw [Expr.allComplete_eq_all, Expr.allMarks_eq_map, separated_map_cons, List.all_cons]
    rw [List.append_nil] at hothers
    exact (Writes.append hfirst (hothers.before_quiet hl)).before_fixed hclose
  · exact (unclosed_reports c opener _ l).mono fun _ rs₃ _ h => .of_ne (by simp [h])

theorem primary_writes (pos : ValuePosition) (i : Input) :
    (primary value pos).Ensures i (WritesExpr i) := by
  simp only [primary, ensures_bind, ensures_position, ensures_kind, List.nil_append]
  split
  case h_1 hk | h_2 hk | h_3 hk | h_4 hk | h_5 hk =>
    simp only [ensures_bind, ensures_next, ensures_pure]
    exact Writes.kind hk rfl
  case h_6 hk =>
    simp only [ensures_bind, ensures_next, ensures_runFrom, ensures_pure, List.nil_append,
      List.append_nil]
    refine (values_writes hvalue .tuple _ i.next).mono fun es rs j h => ?_
    rw [WritesExpr, Expr.isComplete_grouped, Expr.marks_grouped]
    exact h.fixed hk
  case h_7 =>
    simp only [ensures_bind, ensures_invalidToken, ensures_pure]
    exact Writes.of_ne (List.cons_ne_nil _ _)
  case h_8 => exact missingValue_writes pos i

theorem arguments?_writes (i : Input) :
    (arguments? value).Ensures i
      (WritesItem (fun l => Expr.allComplete l.1) Expr.callMarks [] i) := by
  simp only [arguments?, ensures_bind, ensures_position, ensures_check, ensures_afterNewline,
    List.nil_append]
  refine ⟨fun hopen => ?_, fun _ => Writes.nothing i⟩
  split
  · simp only [ensures_bind, ensures_next, ensures_position, ensures_pure, List.nil_append,
      List.append_nil]
    exact (values_writes hvalue .call _ i.next).mono fun es rs j h => h.fixed hopen
  · exact Writes.nothing i

end Values

theorem token_of_unary {k : Kind String} {op : UnaryOperator}
    (h : UnaryOperator.ofKind? k = some op) : k = .fixed op.token := by
  cases k with
  | fixed f =>
    cases f with
    | bang | minus =>
      obtain rfl := Option.some.inj h
      rfl
    | _ => exact absurd h nofun
  | _ => exact absurd h nofun

theorem token_of_binary {k : Kind String} {op : BinaryOperator}
    (h : BinaryOperator.ofKind? k = some op) : k = .fixed op.token := by
  cases k with
  | fixed f =>
    have htoken := List.find?_some h
    rw [beq_iff_eq.mp htoken]
  | _ => exact absurd h nofun

theorem sign?_writes (i : Input) :
    sign?.Ensures i (WritesItem (fun _ => true) (fun s => [fixed s.1.token]) [] i) := by
  simp only [sign?, ensures_bind, ensures_position, ensures_kind, List.nil_append]
  cases hop : UnaryOperator.ofKind? i.kind with
  | none => exact Writes.nothing i
  | some op => exact (Writes.nothing i.next).fixed (token_of_unary hop)

section Chains

variable {inner : ValuePosition → Parser (Expr Run)}
variable (hinner : ∀ pos i, (inner pos).Ensures i (WritesExpr i))

include hinner

theorem operand_writes (pos : ValuePosition) (i : Input) :
    (operand inner pos).Ensures i (WritesExpr i) := by
  have hsigns := collect_writes sign?_writes fun s _ => ⟨_, _, rfl⟩
  have hcalls := collect_writes (arguments?_writes (hinner .call)) fun l _ => ⟨_, _, rfl⟩
  simp only [operand, ensures_bind, ensures_pure, List.append_nil]
  refine (hsigns i).mono fun signs rs j hsigns => ?_
  refine (primary_writes (hinner .tuple) _ j).mono fun callee rs₁ k hcallee => ?_
  refine (hcalls k).mono fun lists rs₂ l hlists => ?_
  rw [WritesExpr, Expr.isComplete_ofSigns, Expr.isComplete_ofCalls, Expr.marks_ofSigns,
    Expr.marks_ofCalls]
  rw [List.append_nil] at hlists
  rw [List.append_nil, List.all_eq_true.mpr fun _ _ => rfl] at hsigns
  exact hsigns.append (Writes.append hcallee hlists)

theorem link?_writes (i : Input) :
    (link? inner).Ensures i
      (WritesItem (fun link => link.2.isComplete) Expr.linkMarks [] i) := by
  simp only [link?, ensures_bind, ensures_kind, List.nil_append]
  cases hop : BinaryOperator.ofKind? i.kind with
  | none => exact Writes.nothing i
  | some op =>
    simp only [ensures_bind, ensures_next, ensures_pure, List.nil_append, List.append_nil]
    refine (operand_writes hinner _ i.next).mono fun right rs j hright => ?_
    exact Writes.fixed hright (token_of_binary hop)

theorem chain_writes (pos : ValuePosition) (i : Input) :
    (chain inner pos).Ensures i (WritesExpr i) := by
  have hlinks := collect_writes (link?_writes hinner) fun link _ => ⟨_, _, rfl⟩
  simp only [chain, ensures_bind, ensures_pure, List.append_nil]
  refine (operand_writes hinner pos i).mono fun first rs j hfirst => ?_
  refine (hlinks j).mono fun links rs₁ k hlinks => ?_
  rw [WritesExpr, Expr.isComplete_ofChain, Expr.marks_ofChain]
  rw [List.append_nil] at hlinks
  exact Writes.append hfirst hlinks

end Chains

section Whole

variable {inner : Reach → ValuePosition → Parser (Expr Run)}
variable (hinner : ∀ reach pos i, (inner reach pos).Ensures i (WritesExpr i))

include hinner

theorem ternary_writes (pos : ValuePosition) (i : Input) :
    (ternary inner pos).Ensures i (WritesExpr i) := by
  simp only [ternary, ensures_bind, ensures_position, ensures_eat, List.nil_append, ↓reduceIte,
    Bool.false_eq_true, ensures_quietly, ensures_runFrom, ensures_pure, List.append_nil]
  refine (chain_writes (hinner .full) pos i).mono fun cond rs j hcond => ?_
  refine ⟨fun hmark => ?_, fun _ => hcond⟩
  refine (hinner .ternary .ternary j.next).mono fun whenTrue rs₁ k htrue => ?_
  simp only [otherwise, ensures_bind, ensures_eat, ↓reduceIte, Bool.false_eq_true,
    List.nil_append]
  refine ⟨fun hcolon => ?_, fun _ => ?_⟩
  · refine (hinner .ternary .ternary k.next).mono fun whenFalse rs₂ l hfalse => ?_
    have hbranches := Writes.append htrue (Writes.fixed hfalse hcolon)
    exact Writes.append hcond (hbranches.fixed hmark)
  · -- a silent first branch makes the missing `:` a problem
    split
    · simp only [ensures_bind, ensures_reportHere]
      exact Writes.of_ne (by simp)
    · rename_i hquiet
      exact Writes.of_ne fun hrs => hquiet (List.isEmpty_iff.mpr (List.append_eq_nil_iff.mp
        (List.append_eq_nil_iff.mp hrs).2).1)

theorem assignment_writes (pos : ValuePosition) (i : Input) :
    (assignment inner pos).Ensures i (WritesExpr i) := by
  simp only [assignment, ensures_bind, ensures_position, ensures_eat, List.nil_append,
    ↓reduceIte, Bool.false_eq_true, ensures_runFrom, ensures_pure, List.append_nil]
  refine (ternary_writes hinner pos i).mono fun target rs j htarget => ?_
  refine ⟨fun hmark => ?_, fun _ => htarget⟩
  refine (hinner .full .assignment j.next).mono fun value rs₁ k hvalue => ?_
  exact Writes.append htarget (Writes.fixed hvalue hmark)

end Whole

/-- **Expressions read in silence are read as they are written.** -/
theorem expr_writes (reach : Reach) (pos : ValuePosition) (i : Input) :
    (expr reach pos).Ensures i (WritesExpr i) := by
  have hwithin : ∀ (n : Nat) (reach : Reach) (pos : ValuePosition) (i : Input),
      (exprWithin n reach pos).Ensures i (WritesExpr i) := by
    intro n
    induction n with
    | zero => exact fun _ pos i => missingValue_writes pos i
    | succ n ih =>
      intro reach pos i
      cases reach with
      | full => exact assignment_writes ih pos i
      | ternary => exact ternary_writes ih pos i
  exact (hwithin (i.rest.length + 1) reach pos i).of_eq rfl

end Parser

end PlatformGate
