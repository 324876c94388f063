/-
# A statement pays for itself

The keyword of a statement pays for a condition that is missing, for a body that is missing and for
the statement; the `{` of a block pays for the `}` that never comes; and leftovers pay for the
report about them.  So whatever begins with a terminal needs no credit (`stmt_pays`), and a whole
source is paid for by its terminals (`topLevel_pays`).

A body alone may be missing, and then it takes no terminal: its report is on the credit of the
keyword in front.  As in the proofs that statements are read forward, the statements inside one are
only known of what is left behind its first terminal.
-/
import PlatformGate.Proofs.Cost.Headers

namespace PlatformGate.Parser

variable (t : Tariff) {i : Input}

/-! ## 1. The rest of a line -/

theorem trailing?_pays (c : Construct) (i : Input) :
    (trailing? c).Ensures i fun _ rs j => Pays t 0 0 i rs j := by
  refine (trailing?_reads c i).mono fun u? rs j h => ?_
  cases u? with
  | none =>
    obtain ⟨rfl, rfl, -⟩ := h
    exact .refl _
  | some u =>
    obtain ⟨n, hpos, hn, rfl, rfl⟩ := h
    exact .skip hpos hn _

theorem restOfLine_pays (c : Construct) (i : Input) :
    (restOfLine c).Ensures i fun _ rs j => Pays t 0 0 i rs j := by
  have hloop : ∀ j, (collect (trailing? c)).Ensures j fun _ rs k => Pays t 0 0 j rs k := by
    refine ensures_collect fun j => ?_
    have hadv := trailing?_advances c _ j (Nat.le_refl _)
    refine (hadv.and (trailing?_pays t c j)).mono fun u? rs k h => ?_
    cases u? with
    | none => exact h.2
    | some u => exact ⟨h.1 rfl, fun us rs' l hus => h.2.trans hus⟩
  simp only [restOfLine, ensures_bind, ensures_pure, List.append_nil]
  exact hloop i

theorem headerTail_pays (owner : Owner) (stop : TagSet) (i : Input) :
    (headerTail owner stop).Ensures i fun _ rs j => Pays t 0 0 i rs j := by
  simp only [headerTail, ensures_bind, ensures_atEnd, ensures_atLineStart, ↓reduceIte,
    Bool.false_eq_true, List.nil_append, ensures_pure]
  refine ⟨fun _ => .refl i, fun _ => ?_⟩
  split
  · exact .refl i
  · exact leftovers_pays t (.header owner) stop true i

/-! ## 2. Items and blocks -/

section Blocks

variable {t} {stmt : Parser (Stmt Run)} {m : Nat}
variable (hreads : ∀ i, i.rest.length < m → stmt.Ensures i (ReadsStmt i))
variable (hstmt : ∀ i, i.rest.length < m → TagSet.statementStart.contains i.kind = true →
  stmt.Ensures i fun s rs j => Pays t 0 (s.cost t) i rs j)

include hstmt

theorem item_pays (c : Construct) (hm : i.rest.length < m) (hne : i.rest ≠ []) :
    (item stmt c).Ensures i fun s? rs j => Pays t 0 (Stmt.costOption t s?) i rs j := by
  simp only [item, ensures_bind, ensures_kind, List.nil_append]
  split
  · rename_i hstart
    simp only [ensures_bind, ensures_pure, List.append_nil]
    refine (hstmt i hm hstart).mono fun s rs j hs => ?_
    exact (restOfLine_pays t c j).mono fun _ rs' k hk => hs.trans hk
  · simp only [ensures_bind, ensures_pure, List.append_nil]
    refine (junk_pays t c hne).mono fun _ rs j hj => ?_
    exact (restOfLine_pays t c j).mono fun _ rs' k hk => hj.trans hk

/-- A round of a block pays for its statement; where the block is left it may not be closed. -/
theorem blockItem?_pays (opener : Nat) (hm : i.rest.length < m) :
    (blockItem? stmt opener).Ensures i fun s?? rs j =>
      match s?? with
      | none => Pays t t.report 0 i rs j
      | some s? => Pays t 0 (Stmt.costOption t s?) i rs j := by
  simp only [blockItem?, ensures_bind, ensures_eat, ensures_atEnd, ↓reduceIte,
    Bool.false_eq_true, List.nil_append, ensures_pure, List.append_nil]
  refine ⟨fun _ => (Pays.refl i).then_next.mono (by omega), fun _ => ⟨fun _ => ?_, fun hne => ?_⟩⟩
  · exact unclosed_pays t .block opener _ i
  · exact item_pays hstmt .block hm hne

include hreads

/-- **The `{` of a block pays for a `}` that is missing.** -/
theorem block_pays (hm : i.rest.length ≤ m) (hopen : i.kind = .fixed .lbrace) :
    (block stmt).Ensures i fun b rs j => Pays t 0 (Stmt.costOfBody t b) i rs j := by
  have hne := Input.rest_ne_nil hopen
  have hshort := Nat.lt_of_lt_of_le (Input.length_next_lt hne) hm
  have hloop : ∀ k, k.rest.length ≤ i.next.rest.length →
      (collect (blockItem? stmt i.position)).Ensures k fun items rs l =>
        Pays t t.report (Stmt.costAll t (items.filterMap id)) k rs l := by
    refine ensures_collect_upTo fun k hk => ?_
    have hadv := blockItem?_advances hreads hshort i.position k hk
    have hitem := blockItem?_pays hstmt i.position (Nat.lt_of_le_of_lt hk hshort)
    refine (hadv.and hitem).mono fun s?? rs l h => ?_
    cases s?? with
    | none => exact h.2
    | some s? =>
      refine ⟨h.1 rfl, fun items rs' l' hitems => (h.2.trans hitems).mono ?_⟩
      have hcons := Stmt.costAll_filterMap_cons t s? items
      omega
  simp only [block, ensures_bind, ensures_position, ensures_next, ensures_runFrom, ensures_pure,
    List.nil_append, List.append_nil]
  refine (hloop i.next (Nat.le_refl _)).mono fun items rs j h => (h.next hne).mono ?_
  simp only [Stmt.costOfBody, Tariff.token]
  omega

theorem body_pays (hm : i.rest.length ≤ m) (owner : Owner) :
    (body stmt owner).Ensures i fun b rs j => Pays t t.report (Stmt.costOfBody t b) i rs j := by
  simp only [body, ensures_bind, ensures_check, ↓reduceIte, Bool.false_eq_true,
    List.nil_append]
  refine (headerTail_pays t owner _ i).mono fun _ rs j hj => ?_
  refine ⟨fun hopen => ?_, fun _ => ?_⟩
  · have hjm := Nat.le_trans hj.length_le hm
    exact (block_pays hreads hstmt hjm hopen).mono fun b rs' k hb => (hj.trans hb).mono (by omega)
  · have hmissing : ∀ r, Pays t t.report 0 i (rs ++ [r]) j := fun r =>
      (hj.trans (Pays.report r j)).mono (by omega)
    simp only [ensures_atEnd, ensures_reportHere, ensures_pure, List.append_nil,
      List.nil_append]
    exact ⟨fun _ => hmissing _, fun _ => hmissing _⟩

/-! ## 3. Statements -/

theorem alternative_pays (hm : i.rest.length < m) :
    (alternative stmt).Ensures i fun a rs j =>
      Pays t t.report (Stmt.costOfAlternative t a) i rs j := by
  simp only [alternative, ensures_bind, ensures_check, ↓reduceIte, Bool.false_eq_true,
    List.nil_append, ensures_pure, List.append_nil]
  refine ⟨fun hif => ?_, fun _ => ?_⟩
  · have hstart : TagSet.statementStart.contains i.kind = true := by rw [hif]; rfl
    refine (hstmt i hm hstart).mono fun s rs j h => h.mono ?_
    simp only [Stmt.costOfAlternative]
    omega
  · exact body_pays hreads hstmt (Nat.le_of_lt hm) .ifStatement

/-- **The keyword of an `if` pays** for a missing condition, a missing body and the statement. -/
theorem ifStatement_pays (hm : i.rest.length ≤ m) (hne : i.rest ≠ []) :
    (ifStatement stmt).Ensures i fun s rs j => Pays t 0 (s.cost t) i rs j := by
  have hlt := Input.length_next_lt hne
  simp only [ifStatement, ensures_bind, ensures_position, ensures_next, ensures_eat, ↓reduceIte,
    Bool.false_eq_true, List.nil_append, ensures_runFrom, ensures_pure, List.append_nil]
  refine (conditions_pays t _ i.next).mono fun cs rs j hcs => ?_
  have hij := hcs.length_le
  refine (body_pays hreads hstmt (by omega) _).mono fun b rs' k hb => ?_
  have hjk := hb.length_le
  have hfront : Pays t 0 (Clause.costAll t cs + Stmt.costOfBody t b + t.stmt) i (rs ++ rs') k := by
    refine ((hcs.trans hb).next hne).mono ?_
    unfold Tariff.token
    omega
  refine ⟨fun helse => ?_, fun _ => hfront.mono ?_⟩
  · have hne' := Input.rest_ne_nil helse
    have hkl := Input.length_next_lt hne'
    refine (alternative_pays hreads hstmt (by omega)).mono fun a rs'' l ha => ?_
    rw [← List.append_assoc]
    refine (hfront.trans (ha.next hne')).mono ?_
    simp only [Stmt.cost, Tariff.token]
    omega
  · simp only [Stmt.cost, Stmt.costOfAlternative, Stmt.costOfBody]
    omega

theorem guardBody_pays (hm : i.rest.length ≤ m) :
    (guardBody stmt).Ensures i fun b rs j => Pays t t.report (Stmt.costOfBody t b) i rs j := by
  simp only [guardBody, ensures_bind, ensures_eat, ensures_check, ↓reduceIte, Bool.false_eq_true,
    List.nil_append, ensures_reportHere, ensures_pure, List.append_nil]
  refine ⟨fun helse => ?_, fun _ => ⟨fun hopen => ?_, fun _ => .report _ i⟩⟩
  · have hne := Input.rest_ne_nil helse
    have hlt := Input.length_next_lt hne
    exact (body_pays hreads hstmt (by omega) _).mono fun b rs j hb => (hb.next hne).mono (by omega)
  · exact (block_pays hreads hstmt hm hopen).mono fun b rs j hb =>
      ((Pays.report _ i).trans hb).mono (by omega)

theorem guardStatement_pays (hm : i.rest.length ≤ m) (hne : i.rest ≠ []) :
    (guardStatement stmt).Ensures i fun s rs j => Pays t 0 (s.cost t) i rs j := by
  have hlt := Input.length_next_lt hne
  simp only [guardStatement, ensures_bind, ensures_position, ensures_next, List.nil_append,
    ensures_runFrom, ensures_pure, List.append_nil]
  refine (conditions_pays t _ i.next).mono fun cs rs j hcs => ?_
  refine (headerTail_pays t _ _ j).mono fun _ rs' k hk => ?_
  have hij := hcs.length_le
  have hjk := hk.length_le
  refine (guardBody_pays hreads hstmt (by omega)).mono fun b rs'' l hb => ?_
  refine ((hcs.trans (hk.trans hb)).next hne).mono ?_
  simp only [Stmt.cost, Tariff.token]
  omega

theorem whileStatement_pays (hm : i.rest.length ≤ m) (hne : i.rest ≠ []) :
    (whileStatement stmt).Ensures i fun s rs j => Pays t 0 (s.cost t) i rs j := by
  have hlt := Input.length_next_lt hne
  simp only [whileStatement, ensures_bind, ensures_position, ensures_next, List.nil_append,
    ensures_runFrom, ensures_pure, List.append_nil]
  refine (conditions_pays t _ i.next).mono fun cs rs j hcs => ?_
  have hij := hcs.length_le
  refine (body_pays hreads hstmt (by omega) _).mono fun b rs' k hb => ?_
  refine ((hcs.trans hb).next hne).mono ?_
  simp only [Stmt.cost, Tariff.token]
  omega

end Blocks

theorem declaration_pays (mutable : Bool) (hne : i.rest ≠ []) :
    (declaration mutable).Ensures i fun s rs j => Pays t 0 (s.cost t) i rs j := by
  simp only [declaration, ensures_bind, ensures_position, ensures_next, List.nil_append,
    ensures_runFrom, ensures_pure, List.append_nil]
  refine (pattern_pays t _ i.next).mono fun b rs j hb => ?_
  refine (initializer?_pays t j).mono fun init rs' k hinit => ?_
  refine ((hb.trans hinit).next hne).mono ?_
  simp only [Stmt.cost, Tariff.token]
  omega

theorem returnValue?_pays (i : Input) :
    returnValue?.Ensures i fun e? rs j =>
      Pays t (t.report + t.expr) (Expr.costOption t e?) i rs j := by
  have hnone : Pays t (t.report + t.expr) 0 i [] i := (Pays.refl i).mono (by omega)
  simp only [returnValue?, ensures_bind, ensures_atEnd, ensures_atLineStart, ↓reduceIte,
    Bool.false_eq_true, List.nil_append, ensures_pure]
  refine ⟨fun _ => hnone, fun _ => ?_⟩
  split
  · exact hnone
  · simp only [ensures_bind, ensures_check, ↓reduceIte, Bool.false_eq_true, List.nil_append,
      ensures_pure, List.append_nil]
    exact ⟨fun _ => hnone, fun _ => (expr_pays t .full .returned i).mono fun e rs j he => he.value⟩

theorem returnStatement_pays (hne : i.rest ≠ []) :
    returnStatement.Ensures i fun s rs j => Pays t 0 (s.cost t) i rs j := by
  simp only [returnStatement, ensures_bind, ensures_position, ensures_next, List.nil_append,
    ensures_runFrom, ensures_pure, List.append_nil]
  refine (returnValue?_pays t i.next).mono fun e? rs j he => (he.next hne).mono ?_
  simp only [Stmt.cost, Tariff.token]
  omega

theorem expressionStatement_pays (hstart : TagSet.expressionStart.contains i.kind = true) :
    expressionStatement.Ensures i fun s rs j => Pays t 0 (s.cost t) i rs j := by
  simp only [expressionStatement, ensures_bind, ensures_position, List.nil_append,
    ensures_runFrom, ensures_pure, List.append_nil]
  exact (expr_pays t .full .statement i).mono fun e rs j he => he.starts hstart

variable {t} in
theorem statement_pays {stmt : Parser (Stmt Run)} {m : Nat}
    (hreads : ∀ i, i.rest.length < m → stmt.Ensures i (ReadsStmt i))
    (hstmt : ∀ i, i.rest.length < m → TagSet.statementStart.contains i.kind = true →
      stmt.Ensures i fun s rs j => Pays t 0 (s.cost t) i rs j)
    (hm : i.rest.length ≤ m) (hstart : TagSet.statementStart.contains i.kind = true) :
    (statement stmt).Ensures i fun s rs j => Pays t 0 (s.cost t) i rs j := by
  simp only [statement, ensures_bind, ensures_kind, List.nil_append]
  split
  · rename_i hk; exact ifStatement_pays hreads hstmt hm (Input.rest_ne_nil hk)
  · rename_i hk; exact guardStatement_pays hreads hstmt hm (Input.rest_ne_nil hk)
  · rename_i hk; exact whileStatement_pays hreads hstmt hm (Input.rest_ne_nil hk)
  · rename_i hk; exact declaration_pays t false (Input.rest_ne_nil hk)
  · rename_i hk; exact declaration_pays t true (Input.rest_ne_nil hk)
  · rename_i hk; exact returnStatement_pays t (Input.rest_ne_nil hk)
  · rename_i hif hguard hwhile hlet hvar hreturn
    have hk := isStatementKeyword_eq_false hif hguard hwhile hlet hvar hreturn
    exact expressionStatement_pays t (expressionStart_of_statementStart hstart hk)

/-- With more levels than terminals a statement is paid for. -/
theorem stmtWithin_pays (n : Nat) (i : Input) (h : i.rest.length < n)
    (hstart : TagSet.statementStart.contains i.kind = true) :
    (stmtWithin n).Ensures i fun s rs j => Pays t 0 (s.cost t) i rs j := by
  induction n generalizing i with
  | zero => exact absurd h (Nat.not_lt_zero _)
  | succ n ih => exact statement_pays (stmtWithin_reads n) ih (Nat.le_of_lt_succ h) hstart

/-- **A statement pays for itself.** -/
theorem stmt_pays (i : Input) (hstart : TagSet.statementStart.contains i.kind = true) :
    stmt.Ensures i fun s rs j => Pays t 0 (s.cost t) i rs j :=
  (stmtWithin_pays t _ i (Nat.lt_succ_self _) hstart).of_eq rfl

/-! ## 4. The top level -/

theorem topLevelItem?_pays (i : Input) :
    topLevelItem?.Ensures i fun s?? rs j =>
      match s?? with
      | none => Pays t 0 0 i rs j
      | some s? => Pays t 0 (Stmt.costOption t s?) i rs j := by
  simp only [topLevelItem?, ensures_bind, ensures_atEnd, ↓reduceIte, Bool.false_eq_true,
    List.nil_append, ensures_pure, List.append_nil]
  refine ⟨fun _ => .refl i, fun hne => ?_⟩
  exact item_pays (fun j _ hstart => stmt_pays t j hstart) .topLevel (Nat.lt_succ_self _) hne

/-- **The terminals of a source pay for all that is made of it.** -/
theorem topLevel_pays (i : Input) :
    topLevel.Ensures i fun ss rs j => Pays t 0 (Stmt.costAll t ss) i rs j := by
  have hloop : ∀ k, (collect topLevelItem?).Ensures k fun items rs l =>
      Pays t 0 (Stmt.costAll t (items.filterMap id)) k rs l := by
    refine ensures_collect fun k => ?_
    have hadv := topLevelItem?_advances _ k (Nat.le_refl _)
    refine (hadv.and (topLevelItem?_pays t k)).mono fun s?? rs l h => ?_
    cases s?? with
    | none => exact h.2
    | some s? =>
      refine ⟨h.1 rfl, fun items rs' l' hitems => (h.2.trans hitems).mono ?_⟩
      have hcons := Stmt.costAll_filterMap_cons t s? items
      omega
  simp only [topLevel, ensures_bind, ensures_pure, List.append_nil]
  exact hloop i

end PlatformGate.Parser
