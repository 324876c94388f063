/-
# Statements in front of a new line

Headers and statements that had nothing to report do not notice a line that begins anew either.
Where they stop at the end of file for want of something they report it; where they stop for good,
the line ends them as well: it is no part of a header, no `else` and no value of a `return`, and what
is left of a line ends in front of it.

Entries of a query are the exception, since an entry may be missing in silence in front of the end of
file.  They do the same as long as they stop in front of it (`Local`), and a query without a report
was closed.
-/
import PlatformGate.Proofs.Joining.Onto
import PlatformGate.Proofs.Grammar.CompleteLines
import PlatformGate.Proofs.Grammar.SoundLines

namespace PlatformGate

/-- Behind the end there is nothing. -/
theorem Input.Ahead.rest_eq_nil {i j : Input} (h : i.Ahead j) (hend : i.rest = []) :
    j.rest = [] := by
  have hle := h.length_le
  rw [hend] at hle
  exact List.length_eq_zero_iff.mp (Nat.le_zero.mp hle)

namespace Parser

variable {α β : Type} {line : List Terminal} {i : Input}

/-! ## 1. Queries -/

/-- Without a report the parser does the same in front of the line, if something is left. -/
def Local (line : List Terminal) (p : Parser α) (i : Input) : Prop :=
  (p i).next.rest ≠ [] → Carries line p i

section Rules

variable {p : Parser α} {f : α → Parser β}

/-- Behind the end there is no way back. -/
theorem Local.bind (h : Local line p i)
    (hf : p.Ensures i fun a _ j => Local line (f a) j ∧ (j.rest = [] → (f a j).next.rest = [])) :
    Local line (p >>= f) i := by
  intro hleft
  obtain ⟨hf, hend⟩ := hf
  exact (h fun hnil => hleft (hend hnil)).bind (hf hleft)

/-- What closes an input and reports at its end makes up for the rest. -/
theorem Local.bind_closed (h : Local line p i)
    (hf : p.Ensures i fun a _ j => Carries line (f a) j ∧
      (j.rest = [] → (f a).Ensures j fun _ rs _ => rs ≠ [])) : Carries line (p >>= f) i := by
  obtain ⟨hf, hloud⟩ := hf
  by_cases hend : (p i).next.rest = []
  · exact .of_loud fun hnil => hloud hend (List.append_eq_nil_iff.mp hnil).2
  · exact (h hend).bind hf

end Rules

variable (hline : Separate line)

include hline

theorem component?_carries (i : Input) : Carries line component? i := by
  refine carries_if_eat hline (.inl rfl) (fun _ => ?_) fun _ => carries_pure
  refine carries_kind hline ?_ fun _ k hk => ?_
  · split
    · rename_i v hk
      exact (carries_next (Input.rest_ne_nil_of_kind (by simp [hk]))).then_pure
    · exact .of_loud (List.cons_ne_nil _ _)
    · exact .of_loud (List.cons_ne_nil _ _)
  · cases k with
    | fixed f => rfl
    | _ => exact absurd hk Bool.false_ne_true

theorem version?_carries (i : Input) : Carries line version? i := by
  refine carries_kind hline ?_ fun _ k hk => ?_
  · split
    · rename_i major hk
      refine carries_behind (Input.rest_ne_nil_of_kind (by simp [hk])) ?_
      refine (component?_carries hline _).bind ?_
      refine (component?_moves _).mono fun minor? rs j _ => ?_
      cases minor? with
      | none => exact carries_pure
      | some minor =>
        refine (component?_carries hline j).bind ?_
        refine (component?_moves j).mono fun patch? rs' k _ => ?_
        cases patch? <;> exact carries_pure
    · exact .of_loud (List.cons_ne_nil _ _)
    · exact carries_pure
  · cases k with
    | fixed f => rfl
    | _ => exact absurd hk Bool.false_ne_true

theorem illegalOperator_carries (resume : TagSet) (i : Input) :
    Carries line (illegalOperator resume) i := by
  refine carries_kind hline ?_ fun _ k hk => ?_
  · split
    · rename_i hk
      have hne : i.rest ≠ [] := by
        intro hnil
        rw [Input.kind_of_nil hnil] at hk
        exact absurd hk Bool.false_ne_true
      exact (carries_leftovers _ _ _ hne).then_pure
    · exact carries_pure
  · cases k with
    | fixed f => cases f <;> first | rfl | exact absurd hk Bool.false_ne_true
    | _ => exact absurd hk Bool.false_ne_true

/-- Behind the test for such an operator a parser is only asked about where something is left. -/
theorem unlessIllegal_local {resume : TagSet} {p : Parser (Option α)}
    (hahead : (illegalOperator resume >>= fun illegal => if illegal then pure none else p).Ensures i
      fun _ _ j => i.Ahead j) (h : i.rest ≠ [] → Local line p i) :
    Local line (illegalOperator resume >>= fun illegal => if illegal then pure none else p) i := by
  intro hleft
  have hne : i.rest ≠ [] := fun hnil => hleft (Input.Ahead.rest_eq_nil hahead hnil)
  revert hleft
  refine Local.bind (fun _ => illegalOperator_carries hline resume i) ?_
  rw [ensures_illegalOperator]
  exact ⟨fun _ => ⟨fun _ => carries_pure, id⟩, fun _ => ⟨h hne, fun hnil => absurd hnil hne⟩⟩

theorem entryHere?_local (resume : TagSet) (i : Input) : Local line (entryHere? resume) i := by
  have hahead := (entryHere?_reads resume i).1.ahead
  refine unlessIllegal_local hline hahead fun hne _ => ?_
  refine carries_position.bind ?_
  rw [ensures_position]
  refine carries_kind hline ?_ fun hnil => absurd hnil hne
  split
  · exact (carries_next hne).placed
  · refine carries_behind hne ?_
    exact (version?_carries hline _).placed
  · exact .of_loud (List.cons_ne_nil _ _)
  · exact carries_pure
  · exact carries_pure
  · split
    · exact carries_pure
    · exact .of_loud (List.cons_ne_nil _ _)

theorem entryBehindComma?_local (resume : TagSet) (i : Input) :
    Local line (entryBehindComma? resume) i := by
  have hahead := (entryBehindComma?_reads resume i).1.ahead
  refine unlessIllegal_local hline hahead fun hne => ?_
  refine Local.bind (fun _ => carries_eat hline (.inl rfl)) ?_
  simp only [ensures_eat, ↓reduceIte, Bool.false_eq_true]
  refine ⟨fun _ => ⟨entryHere?_local hline resume _, fun hnil => ?_⟩,
    fun _ => ⟨fun _ => carries_pure, id⟩⟩
  exact (entryHere?_reads resume i.next).1.ahead.rest_eq_nil hnil

omit hline in
theorem collect_entries_ahead (resume : TagSet) (i : Input) :
    (collect (entryBehindComma? resume)).Ensures i fun _ _ j => i.Ahead j := by
  refine ensures_collect (R := fun i _ _ j => i.Ahead j) (fun j => ?_) i
  refine ((entryBehindComma?_advances resume _ j (Nat.le_refl _)).and
    (entryBehindComma?_reads resume j)).mono fun e? rs k h => ?_
  have hjk := h.2.1.ahead
  cases e? with
  | none => exact hjk
  | some e => exact ⟨h.1 rfl, fun _ _ _ => hjk.trans⟩

/-- The entries of a query, if the query does not end in front of its end. -/
theorem collect_entries_local (resume : TagSet) (n : Nat) :
    ∀ i : Input, i.rest.length < n → Local line (collect (entryBehindComma? resume)) i := by
  induction n with
  | zero => exact fun i hi => absurd hi (Nat.not_lt_zero _)
  | succ n ih =>
    intro i hi
    have hloop := fun j => collect_eq (i := j) (entryBehindComma?_advances resume _)
    have hround : Local line (round (entryBehindComma? resume)
        (collect (entryBehindComma? resume))) i := by
      refine (entryBehindComma?_local hline resume i).bind ?_
      refine (entryBehindComma?_advances resume _ i (Nat.le_refl _)).mono fun e? _ j hlt => ?_
      cases e? with
      | none => exact ⟨fun _ => carries_pure, id⟩
      | some e =>
        have hlt := hlt rfl
        refine ⟨(ih j (by omega)).bind ⟨fun _ => carries_pure, id⟩, fun hnil => ?_⟩
        exact (collect_entries_ahead resume j).rest_eq_nil hnil
    intro hleft
    rw [hloop] at hleft
    exact (hround hleft).of_eq (hloop i) (hloop _)

/-- So are all entries. -/
theorem entries_local (resume : TagSet) (i : Input) : Local line (entries resume) i := by
  intro hleft
  have hne : i.rest ≠ [] := by
    intro hnil
    exact hleft ((entries_reads resume i).moves.ahead.rest_eq_nil hnil)
  revert hleft
  refine Local.bind (fun _ => carries_check hline (.inl rfl)) ?_
  rw [ensures_check]
  refine ⟨fun _ => ?_, fun _ => ?_⟩
  · exact ⟨fun _ => .of_loud (List.cons_ne_nil _ _), fun hnil => absurd hnil hne⟩
  · refine ⟨(entryHere?_local hline resume i).bind ?_, fun hnil => absurd hnil hne⟩
    refine (entryHere?_reads resume i).mono fun e? rs j _ => ?_
    cases e? with
    | none => exact ⟨fun _ => carries_pure, id⟩
    | some e =>
      refine ⟨(collect_entries_local hline resume _ j (Nat.lt_succ_self _)).bind
        ⟨fun _ => carries_pure, id⟩, fun hnil => ?_⟩
      exact (collect_entries_ahead resume j).rest_eq_nil hnil

/-- A query without a report was closed. -/
theorem query_carries (resume : TagSet) (hne : i.rest ≠ []) : Carries line (query resume) i := by
  refine carries_from ?_
  refine carries_kind hline ?_ fun hnil => absurd hnil hne
  refine carries_behind hne ?_
  refine carries_from ?_
  refine carries_if_eat hline (.inl rfl) (fun _ => ?_) fun _ => .of_loud (List.cons_ne_nil _ _)
  refine (entries_local hline resume _).bind_closed ?_
  refine (entries_reads resume _).mono fun items rs j _ => ⟨?_, fun hnil => ?_⟩
  · exact carries_if_eat hline (.inl rfl) (fun _ => carries_runFrom.then_pure)
      fun _ => .of_loud (ensures_of_bind_loud (unclosed_loud _ _ _))
  · rw [ensures_bind, ensures_eat]
    exact ⟨fun hclose => absurd hnil (Input.rest_ne_nil hclose),
      fun _ => ensures_of_bind_loud (unclosed_loud _ _ _)⟩

/-! ## 2. Clauses -/

theorem pattern_carries (pos : PatternPosition) (i : Input) : Carries line (pattern pos) i := by
  refine carries_from ?_
  refine carries_kind hline ?_ fun _ k hk => ?_
  · split
    · rename_i hk
      exact (carries_next (Input.rest_ne_nil hk)).then_pure
    · rename_i name hk
      exact (carries_next (Input.rest_ne_nil_of_kind (by simp [hk]))).then_pure
    · exact .of_loud (List.cons_ne_nil _ _)
  · cases k with
    | fixed f => cases f <;> first | rfl | exact absurd hk Bool.false_ne_true
    | _ => exact absurd hk Bool.false_ne_true

theorem initializer?_carries (i : Input) : Carries line initializer? i :=
  carries_if_eat hline (.inl rfl) (fun _ => (expr_carries hline _ _ _).then_pure)
    fun _ => carries_pure

theorem caseValue_carries (quiet : Bool) (i : Input) : Carries line (caseValue quiet) i := by
  refine carries_if_eat hline (.inl rfl) (fun _ => expr_carries hline _ _ _) fun _ => ?_
  split
  · exact .of_loud (List.cons_ne_nil _ _)
  · exact carries_errorHere

omit hline in
/-- There is no expression at the end of file. -/
theorem expr_loud (pos : ValuePosition) (hend : i.rest = []) :
    (expr .full pos).Ensures i fun _ rs _ => rs ≠ [] := by
  obtain ⟨p, rest⟩ := i
  obtain rfl : rest = [] := hend
  exact List.cons_ne_nil _ _

theorem clause_carries (owner : Owner) (i : Input) : Carries line (clause owner) i := by
  refine carries_from ?_
  by_cases hend : i.rest = []
  · refine .of_loud ?_
    rw [ensures_bind, ensures_kind, Input.kind_of_nil hend]
    exact ensures_of_bind_loud (expr_loud _ hend)
  · have hbinding : ∀ b : Bool, Carries line (do
        next
        let p ← pattern (.header owner)
        let init ← initializer?
        return Clause.binding b p init (← runFrom i.position)) i := by
      intro b
      refine carries_behind hend ?_
      refine (pattern_carries hline _ _).bind ((pattern_reads _ _).mono fun p rs j _ => ?_)
      exact (initializer?_carries hline j).placed
    refine carries_kind hline ?_ fun hnil => absurd hnil hend
    split
    · exact (query_carries hline _ hend).then_pure
    · exact (query_carries hline _ hend).then_pure
    · exact hbinding false
    · exact hbinding true
    · refine carries_behind hend ?_
      refine (expr_carries hline _ _ _).quietly.bind ?_
      rw [ensures_quietly]
      refine (readsExpr_expr _ _ _).mono fun p rs j _ => ?_
      exact (caseValue_carries hline _ j).placed
    · exact (expr_carries hline _ _ _).placed

theorem conditions_carries (owner : Owner) (i : Input) : Carries line (conditions owner) i := by
  have hmore : ∀ j : Input, Carries line (clauseBehindComma? owner) j := by
    intro j
    exact carries_if_eat hline (.inl rfl) (fun _ => (clause_carries hline owner _).then_pure)
      fun _ => carries_pure
  refine (clause_carries hline owner i).bind ((clause_reads owner i).mono fun c rs j _ => ?_)
  exact (carries_collect (clauseBehindComma?_advances owner) (fun k _ => hmore k) j
    (Nat.le_refl _)).then_pure

/-! ## 3. Lines

Behind a header and behind a line there is no difference between the end of file and a line that
begins anew. -/

/-- Where something stops at the end of file, it stops in front of the line. -/
theorem carries_onLine {a : α} {p : Parser α} (h : i.rest ≠ [] → Carries line p i) :
    Carries line (do if ← atEnd then return a else if ← atLineStart then return a else p) i := by
  by_cases hend : i.rest = []
  · obtain ⟨t, ts, rfl, hstart, -⟩ := hline.begins
    intro _
    simp [bind_apply, pure_apply, atEnd, atLineStart, Input.onto, hend, hstart]
  · refine carries_unless_end hend ?_
    refine (carries_atLineStart hend).bind ?_
    rw [ensures_atLineStart]
    split
    · exact carries_pure
    · exact h hend

theorem headerTail_carries (owner : Owner) (stop : TagSet) (i : Input) :
    Carries line (headerTail owner stop) i :=
  carries_onLine hline (carries_leftovers _ _ _)

/-- There is no value in front of the line either. -/
theorem returnValue?_carries (i : Input) : Carries line returnValue? i :=
  carries_onLine hline fun hne => carries_if_check hline (.inr hne) (fun _ => carries_pure)
    fun _ => (expr_carries hline _ _ _).then_pure

/-- A line that ended goes on to end in front of the line. -/
theorem EndsLine.onto {c : Construct} (h : EndsLine c i) : EndsLine c (i.onto line) := by
  by_cases hend : i.rest = []
  · obtain ⟨t, ts, rfl, hstart, -⟩ := hline.begins
    refine .inr (.inl ?_)
    simp [Input.atLineStart, Input.onto, hend, hstart]
  · rcases h with hnil | hstart | ⟨rfl, hclose⟩
    · exact absurd hnil hend
    · obtain ⟨t, ts, hts⟩ := List.exists_cons_of_ne_nil hend
      refine .inr (.inl ?_)
      simpa [Input.atLineStart, Input.onto, hts] using hstart
    · exact .inr (.inr ⟨rfl, by rw [Input.kind_onto hend, hclose]⟩)

omit hline in
/-- What ends a line of the top level ends a line of anything. -/
theorem EndsLine.of_topLevel {c : Construct} (h : EndsLine .topLevel i) : EndsLine c i := by
  rcases h with hnil | hstart | ⟨hblock, -⟩
  · exact .inl hnil
  · exact .inr (.inl hstart)
  · cases hblock

omit hline in
/-- Where nothing is left of a line, nothing is cleared. -/
theorem restOfLine_of_endsLine {c : Construct} (h : EndsLine c i) :
    restOfLine c i = ⟨(), [], i⟩ := by
  have hquiet : (restOfLine c i).reports = [] := (restOfLine_complete h).1
  have hnext : (restOfLine c i).next = i := (restOfLine_sound c i hquiet).1
  calc restOfLine c i = ⟨(), (restOfLine c i).reports, (restOfLine c i).next⟩ := rfl
    _ = ⟨(), [], i⟩ := by rw [hquiet, hnext]

omit hline in
/-- An item without a report begins as a statement. -/
theorem statementStart_of_quiet {c : Construct} (hne : i.rest ≠ [])
    (hquiet : (item stmt c i).reports = []) : TagSet.statementStart.contains i.kind = true := by
  cases hstart : TagSet.statementStart.contains i.kind with
  | true => rfl
  | false =>
    simp only [item, bind_apply, kind, hstart, Bool.false_eq_true, ↓reduceIte, List.nil_append,
      List.append_eq_nil_iff] at hquiet
    obtain ⟨n, -, -, -, hjunk⟩ := junk_reads c hne
    exact absurd (hjunk.symm.trans hquiet.1) (List.cons_ne_nil _ _)

omit hline in
/-- A statement behind which nothing is left of its line is an item. -/
theorem item_of_endsLine {c : Construct} (hstart : TagSet.statementStart.contains i.kind = true)
    (hend : EndsLine c (stmt i).next) :
    item stmt c i = ⟨some (stmt i).value, (stmt i).reports, (stmt i).next⟩ := by
  simp only [item, bind_apply, kind, hstart, ↓reduceIte, restOfLine_of_endsLine hend, pure_apply,
    List.nil_append, List.append_nil]

/-- **An item without a report does not notice the line.**  What ends a line of the top level ends
a line of a block. -/
theorem item_onto {c c' : Construct} (hc : c' = c ∨ c = .topLevel) (hne : i.rest ≠ [])
    (hstmt : Carries line stmt i) (hquiet : (item stmt c i).reports = []) :
    item stmt c' (i.onto line) = ⟨(item stmt c i).value, [], (item stmt c i).next.onto line⟩ := by
  have hstart := statementStart_of_quiet hne hquiet
  simp only [item, bind_apply, kind, hstart, ↓reduceIte, List.nil_append,
    List.append_eq_nil_iff] at hquiet
  obtain ⟨hs, hrest, -⟩ := hquiet
  have honto := hstmt hs
  have hend := (restOfLine_sound c _ hrest).2
  have hend' : EndsLine c' (stmt (i.onto line)).next := by
    rw [honto]
    refine EndsLine.onto hline ?_
    rcases hc with rfl | rfl
    · exact hend
    · exact EndsLine.of_topLevel hend
  have hstart' : TagSet.statementStart.contains (i.onto line).kind = true := by
    rw [Input.kind_onto hne]
    exact hstart
  rw [item_of_endsLine hstart' hend', item_of_endsLine hstart hend, honto]

section Statements

variable {m : Nat} (h : ∀ i, i.rest.length < m → Carries line stmt i)

include h

/-- A block without a report was closed. -/
theorem blockItem?_carries (opener : Nat) (hi : i.rest.length < m) :
    Carries line (blockItem? stmt opener) i := by
  by_cases hend : i.rest = []
  · refine .of_loud ?_
    rw [blockItem?, ensures_bind, ensures_eat]
    refine ⟨fun hclose => absurd hend (Input.rest_ne_nil hclose), fun _ => ?_⟩
    simp only [Bool.false_eq_true, ↓reduceIte]
    rw [ensures_bind, ensures_atEnd]
    refine ⟨fun _ => ?_, fun hne => absurd hend hne⟩
    simp only [↓reduceIte, List.nil_append]
    exact ensures_of_bind_loud (unclosed_loud _ _ _)
  · have hitem : Carries line (item stmt .block) i := item_onto hline (.inl rfl) hend (h i hi)
    exact carries_if_eat hline (.inr hend) (fun _ => carries_pure)
      fun _ => carries_unless_end hend hitem.then_pure

theorem block_carries (hi : i.rest.length ≤ m) (hopen : i.kind = .fixed .lbrace) :
    Carries line (block stmt) i := by
  have hne := Input.rest_ne_nil hopen
  have hlt := Input.length_next_lt hne
  refine carries_from ?_
  refine carries_behind hne ?_
  have hloop := carries_collect (m := i.next.rest.length)
    (fun n => blockItem?_advances (fun i _ => stmt_reads i) (Nat.lt_succ_self n) i.position)
    (fun k hk => blockItem?_carries hline h i.position (i := k) (by omega))
    i.next (Nat.le_refl _)
  exact hloop.placed

theorem body_carries (owner : Owner) (hi : i.rest.length ≤ m) :
    Carries line (body stmt owner) i := by
  refine (headerTail_carries hline owner _ i).bind
    ((headerTail_moves owner _ i).mono fun _ rs j hj => ?_)
  have hij := hj.ahead.length_le
  refine carries_if_check hline (.inl rfl) (fun hopen => block_carries hline h (by omega) hopen)
    fun _ => .of_loud (List.cons_ne_nil _ _)

/-- Behind `else` a body is missing at the end of file, and with it a report. -/
theorem alternative_carries (hi : i.rest.length < m) : Carries line (alternative stmt) i := by
  by_cases hend : i.rest = []
  · obtain ⟨p, rest⟩ := i
    obtain rfl : rest = [] := hend
    exact .of_loud (List.cons_ne_nil _ _)
  · exact carries_if_check hline (.inr hend) (fun _ => (h i hi).then_pure)
      fun _ => (body_carries hline h _ (Nat.le_of_lt hi)).then_pure

omit h in
/-- The rule of a keyword, the conditions behind it and what follows them. -/
theorem carries_headed {owner : Owner} {f : Nat → List (Clause Run) → Parser (Stmt Run)}
    (hne : i.rest ≠ [])
    (hf : ∀ cs j, j.rest.length < i.rest.length → Carries line (f i.position cs) j) :
    Carries line (do let start ← position; next; f start (← conditions owner)) i := by
  refine carries_from ?_
  refine carries_behind hne ?_
  refine (conditions_carries hline _ _).bind
    ((conditions_reads _ i.next).mono fun cs rs j hcs => hf cs j ?_)
  exact Nat.lt_of_le_of_lt hcs.1.ahead.length_le (Input.length_next_lt hne)

theorem ifStatement_carries (hi : i.rest.length ≤ m) (hne : i.rest ≠ []) :
    Carries line (ifStatement stmt) i := by
  refine carries_headed hline hne fun cs j hij => ?_
  refine (body_carries hline h _ (by omega)).bind ?_
  refine (body_reads (fun i _ => stmt_reads i) (Nat.le_refl _) _).mono fun b rs' k hb => ?_
  have hjk := hb.moves.ahead.length_le
  refine carries_if_eat hline (.inl rfl) (fun _ => ?_) fun _ => carries_runFrom.then_pure
  have hnext := k.ahead_next.length_le
  exact (alternative_carries hline h (by omega)).placed

theorem guardBody_carries (hi : i.rest.length ≤ m) : Carries line (guardBody stmt) i := by
  have hnext := i.ahead_next.length_le
  exact carries_if_eat hline (.inl rfl) (fun _ => body_carries hline h _ (by omega))
    fun _ => .of_loud (List.cons_ne_nil _ _)

theorem guardStatement_carries (hi : i.rest.length ≤ m) (hne : i.rest ≠ []) :
    Carries line (guardStatement stmt) i := by
  refine carries_headed hline hne fun cs j hij => ?_
  refine (headerTail_carries hline _ _ j).bind
    ((headerTail_moves _ _ j).mono fun _ rs' k hk => ?_)
  have hjk := hk.ahead.length_le
  exact (guardBody_carries hline h (by omega)).placed

theorem whileStatement_carries (hi : i.rest.length ≤ m) (hne : i.rest ≠ []) :
    Carries line (whileStatement stmt) i := by
  refine carries_headed hline hne fun cs j hij => ?_
  exact (body_carries hline h _ (by omega)).placed

omit h in
theorem declaration_carries (mutable : Bool) (hne : i.rest ≠ []) :
    Carries line (declaration mutable) i := by
  refine carries_from ?_
  refine carries_behind hne ?_
  refine (pattern_carries hline _ _).bind ((pattern_reads _ _).mono fun p rs j _ => ?_)
  exact (initializer?_carries hline j).placed

omit h in
theorem returnStatement_carries (hne : i.rest ≠ []) : Carries line returnStatement i := by
  refine carries_from ?_
  refine carries_behind hne ?_
  exact (returnValue?_carries hline _).placed

omit h in
theorem expressionStatement_carries (i : Input) : Carries line expressionStatement i := by
  refine carries_from ?_
  exact (expr_carries hline _ _ _).placed

/-- At the end of file there is no statement. -/
theorem statement_carries (hi : i.rest.length ≤ m) : Carries line (statement stmt) i := by
  by_cases hend : i.rest = []
  · obtain ⟨p, rest⟩ := i
    obtain rfl : rest = [] := hend
    exact .of_loud (List.cons_ne_nil _ _)
  · refine carries_kind hline ?_ fun hnil => absurd hnil hend
    split
    · exact ifStatement_carries hline h hi hend
    · exact guardStatement_carries hline h hi hend
    · exact whileStatement_carries hline h hi hend
    · exact declaration_carries hline false hend
    · exact declaration_carries hline true hend
    · exact returnStatement_carries hline hend
    · exact expressionStatement_carries hline i

end Statements

/-- **A statement without a report does not notice the line.** -/
theorem stmt_carries (i : Input) : Carries line stmt i :=
  stmt_induction (fun _ ih => statement_carries hline ih (Nat.le_refl _)) i

end Parser

end PlatformGate
