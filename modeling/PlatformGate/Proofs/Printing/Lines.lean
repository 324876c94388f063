/-
# What was read in silence is written back

Statements, and with them whole sources.  Between statements silence means that nothing was left
over, so the terminals of a block are those of its statements and its braces.  For a source without
a diagnostic it follows that its tree has no hole and is written as the tokens of the source
(`Outcome.written_back`).
-/
import PlatformGate.Proofs.Arena.Holds
import PlatformGate.Proofs.Grammar.SoundLines
import PlatformGate.Proofs.Printing.Headers
import PlatformGate.Proofs.Session.Limits
import PlatformGate.Proofs.Token.Spans

namespace PlatformGate

open Mark

namespace Stmt

/-- An item of a block or of the top level as it is written.  Where no statement began there is
nothing. -/
def itemMarks (s? : Option (Stmt Run)) : List Mark := (s?.map marks).getD []

theorem allMarks_filterMap (items : List (Option (Stmt Run))) :
    allMarks (items.filterMap id) = items.flatMap itemMarks := by
  induction items with
  | nil => rfl
  | cons s? items ih =>
    cases s? with
    | none => exact ih
    | some s => exact congrArg (marks s ++ ·) ih

theorem allComplete_filterMap (items : List (Option (Stmt Run)))
    (h : (items.all fun s? => s?.any isComplete) = true) :
    allComplete (items.filterMap id) = true := by
  induction items with
  | nil => rfl
  | cons s? items ih =>
    obtain ⟨hs, hitems⟩ := Bool.and_eq_true_iff.mp h
    cases s? with
    | none => exact absurd hs Bool.false_ne_true
    | some s => exact Bool.and_eq_true_iff.mpr ⟨hs, ih hitems⟩

theorem exists_itemMark (s? : Option (Stmt Run)) (h : s?.any isComplete = true) :
    ∃ k ms, itemMarks s? = .one k :: ms := by
  cases s? with
  | none => exact absurd h Bool.false_ne_true
  | some s => exact exists_mark s h

end Stmt

namespace Parser

variable {i : Input}

/-- The statement is written back. -/
def WritesStmt (i : Input) (s : Stmt Run) (rs : List (Report Run)) (j : Input) : Prop :=
  Writes s.isComplete s.marks i rs j

/-! ## 1. Statements without blocks -/

theorem declaration_writes (mutable : Bool)
    (hword : i.kind = .fixed (if mutable then .varWord else .letWord)) :
    (declaration mutable).Ensures i (WritesStmt i) := by
  simp only [declaration, ensures_bind, ensures_position, ensures_next, List.nil_append,
    ensures_runFrom, ensures_pure, List.append_nil]
  exact binding_writes .declared mutable hword

theorem returnValue?_writes (i : Input) :
    returnValue?.Ensures i fun e? rs j =>
      Writes (e?.all Expr.isComplete) ((e?.map Expr.marks).getD []) i rs j := by
  simp only [returnValue?, ensures_bind, ensures_atEnd, ensures_atLineStart, ↓reduceIte,
    Bool.false_eq_true, List.nil_append]
  refine ⟨fun _ => Writes.nothing i, fun _ => ?_⟩
  split
  · exact Writes.nothing i
  · simp only [ensures_bind, ensures_check, ↓reduceIte, Bool.false_eq_true, List.nil_append]
    refine ⟨fun _ => Writes.nothing i, fun _ => ?_⟩
    simp only [ensures_pure, List.append_nil]
    exact expr_writes .full .returned i

theorem returnStatement_writes (hword : i.kind = .fixed .returnWord) :
    returnStatement.Ensures i (WritesStmt i) := by
  simp only [returnStatement, ensures_bind, ensures_position, ensures_next, List.nil_append,
    ensures_runFrom, ensures_pure, List.append_nil]
  exact (returnValue?_writes i.next).mono fun e? rs j he => he.fixed hword

theorem expressionStatement_writes (i : Input) :
    expressionStatement.Ensures i (WritesStmt i) := by
  simp only [expressionStatement, ensures_bind, ensures_position, ensures_runFrom, ensures_pure,
    List.nil_append, List.append_nil]
  exact expr_writes .full .statement i

/-! ## 2. Blocks -/

section Statements

variable {stmt : Parser (Stmt Run)} (hstmt : ∀ i, stmt.Ensures i (WritesStmt i))

include hstmt

theorem item_writes (c : Construct) (hne : i.rest ≠ []) :
    (item stmt c).Ensures i fun s? rs j =>
      Writes (s?.any Stmt.isComplete) (Stmt.itemMarks s?) i rs j := by
  simp only [item, ensures_bind, ensures_kind, List.nil_append]
  split
  · simp only [ensures_bind, ensures_pure, List.append_nil]
    refine (hstmt i).mono fun s rs j hs => ?_
    refine (restOfLine_sound c j).mono fun _ rs' k hk => ?_
    exact Writes.before_quiet hs fun hrs' => (hk hrs').1
  · -- what begins no statement is reported
    simp only [ensures_bind, ensures_pure, List.append_nil]
    refine (junk_reads c hne).mono fun _ rs j hj => ?_
    obtain ⟨n, -, -, -, rfl⟩ := hj
    exact (restOfLine_sound c j).mono fun _ rs' k _ => Writes.of_ne (by simp)

theorem blockItem?_writes (opener : Nat) (i : Input) :
    (blockItem? stmt opener).Ensures i
      (WritesItem (fun s? => s?.any Stmt.isComplete) Stmt.itemMarks [fixed .rbrace] i) := by
  simp only [blockItem?, ensures_bind, ensures_eat, ensures_atEnd, ↓reduceIte,
    Bool.false_eq_true, List.nil_append, ensures_pure, List.append_nil]
  refine ⟨fun hclose => ?_, fun _ => ⟨fun _ => ?_, fun hne => ?_⟩⟩
  · exact (Writes.nothing i).before_fixed hclose
  · exact (unclosed_reports _ _ _ i).mono fun _ _ _ h => Writes.of_ne h
  · exact item_writes hstmt _ hne

theorem block_writes (hopen : i.kind = .fixed .lbrace) :
    (block stmt).Ensures i fun b rs j =>
      Writes (Stmt.isCompleteBody b) (Stmt.bodyMarks b) i rs j := by
  have hloop := collect_writes (blockItem?_writes hstmt i.position) Stmt.exists_itemMark
  simp only [block, ensures_bind, ensures_position, ensures_next, ensures_runFrom, ensures_pure,
    List.nil_append, List.append_nil]
  refine (hloop i.next).mono fun items rs j h => ?_
  rw [← Stmt.allMarks_filterMap] at h
  exact (h.mono (Stmt.allComplete_filterMap items)).fixed hopen

theorem body_writes (owner : Owner) (i : Input) :
    (body stmt owner).Ensures i fun b rs j =>
      Writes (Stmt.isCompleteBody b) (Stmt.bodyMarks b) i rs j := by
  simp only [body, ensures_bind, ensures_check, ↓reduceIte, Bool.false_eq_true,
    List.nil_append]
  refine (headerTail_sound owner _ i).mono fun _ rs j hj => ?_
  refine ⟨fun hopen => ?_, fun _ => ?_⟩
  · exact (block_writes hstmt hopen).mono fun b rs' k hb => Writes.behind_quiet hj hb
  · simp only [ensures_atEnd, ensures_reportHere, ensures_pure, List.append_nil,
      List.nil_append]
    exact ⟨fun _ => Writes.of_ne (by simp), fun _ => Writes.of_ne (by simp)⟩

/-! ## 3. Statements with blocks -/

theorem alternative_writes (helse : i.kind = .fixed .elseWord) :
    (alternative stmt).Ensures i.next fun a rs j =>
      Writes (Stmt.isCompleteAlternative a) (Stmt.alternativeMarks a) i rs j := by
  simp only [alternative, ensures_bind, ensures_check, ↓reduceIte, Bool.false_eq_true,
    List.nil_append, ensures_pure, List.append_nil]
  refine ⟨fun _ => ?_, fun _ => ?_⟩
  · exact (hstmt i.next).mono fun s rs j hs => Writes.fixed hs helse
  · refine (body_writes hstmt _ i.next).mono fun b rs j hb => ?_
    -- a body that is missing is not complete
    cases b with
    | missing => exact Writes.of_ne fun hrs => Bool.false_ne_true (hb hrs).1
    | block ss p => exact hb.fixed helse

theorem ifStatement_writes (hword : i.kind = .fixed .ifWord) :
    (ifStatement stmt).Ensures i (WritesStmt i) := by
  simp only [ifStatement, ensures_bind, ensures_position, ensures_next, ensures_eat, ↓reduceIte,
    Bool.false_eq_true, List.nil_append, ensures_runFrom, ensures_pure, List.append_nil]
  refine (conditions_writes _ i.next).mono fun cs rs j hcs => ?_
  refine (body_writes hstmt _ j).mono fun b rs₁ k hb => ?_
  have hheader := hcs.append hb
  refine ⟨fun helse => ?_, fun _ => ?_⟩
  · refine (alternative_writes hstmt helse).mono fun a rs₂ l ha => ?_
    rw [← List.append_assoc]
    exact (hheader.append ha).fixed hword
  · have hnone := hheader.append (Writes.nothing k)
    rw [List.append_nil (rs ++ rs₁)] at hnone
    exact hnone.fixed hword

theorem guardBody_writes (i : Input) :
    (guardBody stmt).Ensures i fun b rs j =>
      Writes (Stmt.isCompleteBody b) (fixed .elseWord :: Stmt.bodyMarks b) i rs j := by
  simp only [guardBody, ensures_bind, ensures_eat, ensures_check, ↓reduceIte, Bool.false_eq_true,
    List.nil_append, ensures_reportHere, ensures_pure]
  refine ⟨fun helse => ?_, fun _ => ⟨fun hopen => ?_, fun _ => ?_⟩⟩
  · exact (body_writes hstmt _ i.next).mono fun b rs j hb => hb.fixed helse
  · exact (block_writes hstmt hopen).mono fun _ _ _ _ => Writes.of_ne (List.cons_ne_nil _ _)
  · exact Writes.of_ne (List.cons_ne_nil _ _)

theorem guardStatement_writes (hword : i.kind = .fixed .guardWord) :
    (guardStatement stmt).Ensures i (WritesStmt i) := by
  simp only [guardStatement, ensures_bind, ensures_position, ensures_next, List.nil_append,
    ensures_runFrom, ensures_pure, List.append_nil]
  refine (conditions_writes _ i.next).mono fun cs rs j hcs => ?_
  refine (headerTail_sound _ _ j).mono fun _ rs₁ k hk => ?_
  refine (guardBody_writes hstmt k).mono fun b rs₂ l hb => ?_
  exact (hcs.append (Writes.behind_quiet hk hb)).fixed hword

theorem whileStatement_writes (hword : i.kind = .fixed .whileWord) :
    (whileStatement stmt).Ensures i (WritesStmt i) := by
  simp only [whileStatement, ensures_bind, ensures_position, ensures_next, List.nil_append,
    ensures_runFrom, ensures_pure, List.append_nil]
  refine (conditions_writes _ i.next).mono fun cs rs j hcs => ?_
  exact (body_writes hstmt _ j).mono fun b rs₁ k hb => (hcs.append hb).fixed hword

theorem statement_writes (i : Input) : (statement stmt).Ensures i (WritesStmt i) := by
  simp only [statement, ensures_bind, ensures_kind, List.nil_append]
  split
  case h_1 hk => exact ifStatement_writes hstmt hk
  case h_2 hk => exact guardStatement_writes hstmt hk
  case h_3 hk => exact whileStatement_writes hstmt hk
  case h_4 hk => exact declaration_writes false hk
  case h_5 hk => exact declaration_writes true hk
  case h_6 hk => exact returnStatement_writes hk
  case h_7 => exact expressionStatement_writes i

end Statements

/-- **Statements are written back.** -/
theorem stmt_writes (i : Input) : stmt.Ensures i (WritesStmt i) := by
  have hwithin : ∀ (n : Nat) (i : Input), (stmtWithin n).Ensures i (WritesStmt i) := by
    intro n
    induction n with
    | zero => exact expressionStatement_writes
    | succ n ih => exact statement_writes ih
  exact (hwithin (i.rest.length + 1) i).of_eq rfl

theorem topLevelItem?_writes (i : Input) :
    topLevelItem?.Ensures i
      (WritesItem (fun s? => s?.any Stmt.isComplete) Stmt.itemMarks [] i) := by
  simp only [topLevelItem?, ensures_bind, ensures_atEnd, ↓reduceIte, Bool.false_eq_true,
    List.nil_append, ensures_pure, List.append_nil]
  exact ⟨fun _ => Writes.nothing i, fun hne => item_writes stmt_writes _ hne⟩

theorem topLevel_writes (i : Input) :
    topLevel.Ensures i fun ss rs j => Writes (Stmt.allComplete ss) (Stmt.allMarks ss) i rs j := by
  have hloop := collect_writes topLevelItem?_writes Stmt.exists_itemMark
  simp only [topLevel, ensures_bind, ensures_pure, List.append_nil]
  refine (hloop i).mono fun items rs j h => ?_
  rw [List.append_nil, ← Stmt.allMarks_filterMap] at h
  exact h.mono (Stmt.allComplete_filterMap items)

end Parser

/-! ## 4. Sources -/

namespace Outcome

variable {source : String} {limit : Nat}

/-- **What was read without a diagnostic is written back.**  The arena holds one list of trees; no
tree has a hole, and as they are written they are the tokens of the source, up to the comma that may
stand behind the last entry of a query. -/
theorem written_back (h : (ofSource source limit).diagnostics = []) :
    ∃ ss, (∀ ss', (ofSource source limit).Holds ss' ↔ ss' = ss) ∧ Stmt.allComplete ss = true ∧
      Mark.Yields (Stmt.allMarks ss) ((Token.beforeEnd source).map Token.kind) := by
  have hsilent := diagnostics_eq_nil_of_limit h
  rw [diagnostics_ofSource, List.map_eq_nil_iff] at hsilent
  have hwrites := Parser.topLevel_writes (Input.start (Terminal.ofTokens (Token.ofSource source)))
  have hend := Parser.topLevel_reads (Input.start (Terminal.ofTokens (Token.ofSource source)))
  obtain ⟨hcomplete, us, hus, hyields⟩ := hwrites hsilent
  refine ⟨_, holds_ofSource_iff source limit, ?_, ?_⟩
  · rw [Stmt.allComplete_mapAll]
    exact hcomplete
  · rw [Stmt.allMarks_mapAll]
    -- all that was given was taken
    rw [hend.2.1, List.append_nil] at hus
    have hus : (Token.beforeEnd source).map Terminal.ofToken = us := by
      rw [← Token.terminals_ofSource]
      exact hus
    rw [← hus, List.map_map] at hyields
    exact hyields

/-- Calls, operators, a query with a comma behind its last entry, and an `else` are written back. -/
theorem written_back_query :
    let source :=
      "if #available(iOS 17.4, *,), x == -f(1, y)(z) " ++ Text.braced " return (a, b) " ++ " else " ++
        Text.braced " c = 2 "
    (ofSource source 0).diagnostics = [] ∧
      ∃ ss, (∀ ss', (ofSource source 0).Holds ss' ↔ ss' = ss) ∧ Stmt.allComplete ss = true ∧
        Mark.Yields (Stmt.allMarks ss) ((Token.beforeEnd source).map Token.kind) :=
  ⟨by decide +kernel, written_back (by decide +kernel)⟩

end Outcome

end PlatformGate
