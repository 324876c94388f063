/-
# Reading statements moves forward

A statement, a block and the top level are read forward too.  Where a statement can begin, one is
read that takes a terminal; where none can, leftovers are; and what is left of the line is cleared
(`EndsLine`).  So the loops over statements, over blocks and over the rest of a line all take
something in every round (`trailing?_advances`, `blockItem?_advances`, `topLevelItem?_advances`).

A statement holds others only behind its first terminal.  The lemmas about one statement therefore
speak of `m` terminals at most and ask of the statements inside it only what they do with fewer.
-/
import PlatformGate.Proofs.Parse.Headers

namespace PlatformGate

/-- What can be wrong inside a statement: anything but leftovers at the top level. -/
def Cause.Nested {ρ : Type} : Cause ρ → Prop
  | .leftover .topLevel => False
  | _ => True

theorem Cause.Inner.nested {ρ : Type} {cause : Cause ρ} (h : cause.Inner) : cause.Nested := by
  cases cause with
  | leftover c => cases c <;> trivial
  | _ => trivial

/-- What it means to read a statement from `i` up to `j`. -/
structure ReadsStmt (i : Input) (s : Stmt Run) (rs : List (Report Run)) (j : Input) : Prop where
  moves : Moves Cause.Nested i rs j
  spans : s.Spans i.position j.position
  starts : TagSet.statementStart.contains i.kind = true → i.position < j.position

/-- What it means to read a body, or what follows `else`. -/
structure ReadsBody (i : Input) (b : Body Run) (rs : List (Report Run)) (j : Input) : Prop where
  moves : Moves Cause.Nested i rs j
  inside : Stmt.BodyEverywhere (Run.Within i.position j.position) b

/-- Nothing more can follow on the line: the source ends, a line begins, or the block closes. -/
def EndsLine (c : Construct) (i : Input) : Prop :=
  i.rest = [] ∨ i.atLineStart = true ∨ (c = .block ∧ i.kind = .fixed .rbrace)

namespace Parser

variable {i : Input}

/-! ## 1. The rest of a line -/

theorem trailing?_reads (c : Construct) (i : Input) :
    (trailing? c).Ensures i fun u? rs j =>
      match u? with
      | none => rs = [] ∧ j = i ∧ EndsLine c i
      | some _ => ∃ n, 0 < n ∧ n ≤ i.rest.length ∧ j = i.skip n ∧
          rs = [⟨.leftover c, ⟨i.position, i.position + n⟩⟩] := by
  simp only [trailing?, ensures_bind, ensures_atEnd, ensures_atLineStart, ↓reduceIte,
    Bool.false_eq_true, List.nil_append]
  refine ⟨fun hend => ⟨rfl, rfl, .inl hend⟩, fun hne => ?_⟩
  have hjunk : (do junk c; return some () : Parser (Option Unit)).Ensures i fun u? rs j =>
      match u? with
      | none => rs = [] ∧ j = i ∧ EndsLine c i
      | some _ => ∃ n, 0 < n ∧ n ≤ i.rest.length ∧ j = i.skip n ∧
          rs = [⟨.leftover c, ⟨i.position, i.position + n⟩⟩] := by
    simp only [ensures_bind, ensures_pure, List.append_nil]
    exact junk_reads c hne
  split
  · rename_i hline
    exact ⟨rfl, rfl, .inr (.inl hline)⟩
  · split
    · rename_i hblock
      simp only [ensures_bind, ensures_check, ↓reduceIte, Bool.false_eq_true, List.nil_append]
      exact ⟨fun hclose => ⟨rfl, rfl, .inr (.inr ⟨hblock, hclose⟩)⟩, fun _ => hjunk⟩
    · exact hjunk

/-- **Each report of leftovers on a line takes a terminal.** -/
theorem trailing?_advances (c : Construct) (m : Nat) : AdvancesUpTo m (trailing? c) := by
  intro i _
  refine (trailing?_reads c i).mono fun u? rs j h hsome => ?_
  cases u? with
  | none => exact absurd hsome (by simp)
  | some _ =>
    obtain ⟨n, hpos, hn, rfl, -⟩ := h
    have hahead := Input.ahead_skip hn
    exact hahead.length_lt (Nat.lt_add_of_pos_right hpos)

/-- The rest of a line is cleared. -/
theorem restOfLine_reads {C : Cause Run → Prop} {c : Construct} (hC : C (.leftover c))
    (i : Input) :
    (restOfLine c).Ensures i fun _ rs j => Moves C i rs j ∧ EndsLine c j := by
  have hloop : ∀ j, (collect (trailing? c)).Ensures j fun _ rs k =>
      Moves C j rs k ∧ EndsLine c k := by
    refine ensures_collect fun j => (trailing?_reads c j).mono fun u? rs k h => ?_
    cases u? with
    | none =>
      obtain ⟨rfl, rfl, hend⟩ := h
      exact ⟨.refl _, hend⟩
    | some _ =>
      obtain ⟨n, hpos, hn, rfl, rfl⟩ := h
      have hmoves := Moves.leftover hC hpos hn
      exact ⟨hmoves.ahead.length_lt (Nat.lt_add_of_pos_right hpos),
        fun _ _ _ h' => ⟨hmoves.trans h'.1, h'.2⟩⟩
  simp only [restOfLine, ensures_bind, ensures_pure, List.append_nil]
  exact hloop i

/-- What stands between a header and its end is cleared. -/
theorem headerTail_moves (owner : Owner) (stop : TagSet) (i : Input) :
    (headerTail owner stop).Ensures i fun _ rs j => Moves Cause.Nested i rs j := by
  simp only [headerTail, ensures_bind, ensures_atEnd, ensures_atLineStart, ↓reduceIte,
    Bool.false_eq_true, List.nil_append, ensures_pure]
  refine ⟨fun _ => .refl i, fun _ => ?_⟩
  split
  · exact .refl i
  · exact leftovers_moves (C := Cause.Nested) (c := .header owner) trivial stop true i

/-! ## 2. Items and blocks -/

/-- The statements among the items of a loop. -/
theorem mem_filterMap_id_cons {s : Stmt Run} {s? : Option (Stmt Run)}
    {items : List (Option (Stmt Run))} :
    s ∈ (s? :: items).filterMap id ↔ s ∈ s? ∨ s ∈ items.filterMap id := by
  cases s? <;> simp [eq_comm]

section Blocks

variable {stmt : Parser (Stmt Run)} {m : Nat}
variable (hstmt : ∀ i, i.rest.length < m → stmt.Ensures i (ReadsStmt i))

include hstmt

theorem item_reads {C : Cause Run → Prop} (hN : ∀ cause, Cause.Nested cause → C cause)
    {c : Construct} (hC : C (.leftover c)) (hm : i.rest.length < m) (hne : i.rest ≠ []) :
    (item stmt c).Ensures i fun s? rs j => Moves C i rs j ∧ i.position < j.position ∧
      EndsLine c j ∧ ∀ s ∈ s?, s.Everywhere (Run.Within i.position j.position) := by
  simp only [item, ensures_bind, ensures_kind, List.nil_append]
  split
  · rename_i hstart
    simp only [ensures_bind, ensures_pure, List.append_nil]
    refine (hstmt i hm).mono fun s rs j hs => ?_
    refine (restOfLine_reads hC j).mono fun _ rs' k hk => ?_
    have hlt := hs.starts hstart
    have hjk := hk.1.ahead.position_le
    refine ⟨(hs.moves.mono hN).trans hk.1, by omega, hk.2, ?_⟩
    rintro _ ⟨⟩
    exact hs.spans.inside.widen (Nat.le_refl _) hjk
  · simp only [ensures_bind, ensures_pure, List.append_nil]
    refine (junk_reads c hne).mono fun _ rs j hj => ?_
    obtain ⟨n, hpos, hn, rfl, rfl⟩ := hj
    refine (restOfLine_reads hC _).mono fun _ rs' k hk => ?_
    have hjk := hk.1.ahead.position_le
    have hp : (i.skip n).position = i.position + n := rfl
    exact ⟨(Moves.leftover hC hpos hn).trans hk.1, by omega, hk.2, nofun⟩

theorem blockItem?_reads {opener : Nat} (hm : i.rest.length < m) (h : opener < i.position) :
    (blockItem? stmt opener).Ensures i fun s?? rs j =>
      match s?? with
      | none => Moves Cause.Nested i rs j
      | some s? => Moves Cause.Nested i rs j ∧ i.position < j.position ∧
          ∀ s ∈ s?, s.Everywhere (Run.Within i.position j.position) := by
  simp only [blockItem?, ensures_bind, ensures_eat, ensures_atEnd, ↓reduceIte,
    Bool.false_eq_true, List.nil_append, ensures_pure, List.append_nil]
  refine ⟨fun _ => .next i, fun _ => ⟨fun _ => ?_, fun hne => ?_⟩⟩
  · exact unclosed_moves (C := Cause.Nested) trivial _ h
  · exact (item_reads hstmt (fun _ => id) (c := .block) trivial hm hne).mono
      fun _ _ _ h => ⟨h.1, h.2.1, h.2.2.2⟩

/-- **Each round of a block takes a terminal** or leaves the block. -/
theorem blockItem?_advances {n : Nat} (hn : n < m) (opener : Nat) :
    AdvancesUpTo n (blockItem? stmt opener) := by
  intro i hi
  simp only [blockItem?, ensures_bind, ensures_eat, ensures_atEnd, ↓reduceIte,
    Bool.false_eq_true, ensures_pure]
  refine ⟨fun _ h => absurd h (by simp), fun _ => ⟨fun _ => ?_, fun hne => ?_⟩⟩
  · rw [ensures_unclosed]
    exact fun h => absurd h (by simp)
  · exact (item_reads hstmt (C := fun _ => True) (fun _ _ => trivial) trivial
      (Nat.lt_of_le_of_lt hi hn) hne).mono fun _ _ _ h _ => h.1.ahead.length_lt h.2.1

/-- A block, on its opening brace. -/
theorem block_reads (hm : i.rest.length ≤ m) (hopen : i.kind = .fixed .lbrace) :
    (block stmt).Ensures i fun b rs j => ReadsBody i b rs j ∧ i.position < j.position := by
  have hlt := Input.position_lt_next (Input.rest_ne_nil hopen)
  have hshort := i.ahead_next.length_lt hlt
  -- whatever the round, the opening brace stands in front of it
  have hloop : ∀ k, k.rest.length ≤ i.next.rest.length →
      (collect (blockItem? stmt i.position)).Ensures k fun items rs l =>
        i.position < k.position → Moves Cause.Nested k rs l ∧
          ∀ s ∈ items.filterMap id, s.Everywhere (Run.Within k.position l.position) := by
    refine ensures_collect_upTo fun k hk => ?_
    have hadv := blockItem?_advances hstmt (Nat.lt_of_lt_of_le hshort hm) i.position k hk
    by_cases hp : i.position < k.position
    · refine (hadv.and (blockItem?_reads hstmt (by omega) hp)).mono fun s?? rs l h => ?_
      obtain ⟨hadv, h⟩ := h
      cases s?? with
      | none => exact fun _ => ⟨h, by simp⟩
      | some s? =>
        refine ⟨hadv rfl, fun items rs' l' hitems _ => ?_⟩
        obtain ⟨hmoves, hlt', hs⟩ := h
        obtain ⟨hmoves', hitems⟩ := hitems (by omega)
        have hll := hmoves'.ahead.position_le
        refine ⟨hmoves.trans hmoves', fun s' hs' => ?_⟩
        rcases mem_filterMap_id_cons.mp hs' with hs' | hs'
        · exact (hs s' hs').widen (Nat.le_refl _) hll
        · exact (hitems s' hs').widen (Nat.le_of_lt hlt') (Nat.le_refl _)
    · refine hadv.mono fun s?? rs l hadv => ?_
      cases s?? with
      | none => exact fun h => absurd h hp
      | some s? => exact ⟨hadv rfl, fun _ _ _ _ h => absurd h hp⟩
  simp only [block, ensures_bind, ensures_position, ensures_next, ensures_runFrom, ensures_pure,
    List.nil_append, List.append_nil]
  refine (hloop i.next (Nat.le_refl _)).mono fun items rs j h => ?_
  obtain ⟨hmoves, hitems⟩ := h hlt
  have hle := hmoves.ahead.position_le
  refine ⟨⟨.after_ahead i.ahead_next hmoves, ?_, Run.within_self (by omega)⟩, by omega⟩
  rw [Stmt.everywhereAll_iff]
  exact fun s hs => (hitems s hs).widen (Nat.le_of_lt hlt) (Nat.le_refl _)

theorem body_reads (hm : i.rest.length ≤ m) (owner : Owner) :
    (body stmt owner).Ensures i (ReadsBody i) := by
  simp only [body, ensures_bind, ensures_check, ↓reduceIte, Bool.false_eq_true,
    List.nil_append]
  refine (headerTail_moves owner _ i).mono fun _ rs j hj => ?_
  have hle := hj.ahead.stop_eq
  have hij := hj.ahead.position_le
  refine ⟨fun hopen => ?_, fun _ => ?_⟩
  · refine (block_reads hstmt (by omega) hopen).mono fun b rs' k hb => ?_
    refine ⟨hj.trans hb.1.moves, ?_⟩
    exact Stmt.BodyEverywhere.mono (fun _ hr => hr.mono hij (Nat.le_refl _)) b hb.1.inside
  · simp only [ensures_atEnd, ensures_reportHere, ensures_pure, List.append_nil,
      List.nil_append]
    exact ⟨fun _ => ⟨hj.trans (.here trivial trivial), trivial⟩,
      fun _ => ⟨hj.trans (.here trivial trivial), trivial⟩⟩

/-! ## 3. Statements -/

theorem alternative_reads (hm : i.rest.length < m) :
    (alternative stmt).Ensures i fun a rs j => Moves Cause.Nested i rs j ∧
      Stmt.AlternativeEverywhere (Run.Within i.position j.position) a := by
  simp only [alternative, ensures_bind, ensures_check, ↓reduceIte, Bool.false_eq_true,
    List.nil_append, ensures_pure, List.append_nil]
  refine ⟨fun _ => ?_, fun _ => ?_⟩
  · exact (hstmt i hm).mono fun s rs j h => ⟨h.moves, h.spans.inside⟩
  · exact (body_reads hstmt (Nat.le_of_lt hm) .ifStatement).mono
      fun b rs j h => ⟨h.moves, h.inside⟩

theorem ifStatement_reads (hm : i.rest.length ≤ m) (hne : i.rest ≠ []) :
    (ifStatement stmt).Ensures i (ReadsStmt i) := by
  have hlt := Input.position_lt_next hne
  have hstop := i.ahead_next.stop_eq
  simp only [ifStatement, ensures_bind, ensures_position, ensures_next, ensures_eat, ↓reduceIte,
    Bool.false_eq_true, List.nil_append, ensures_runFrom, ensures_pure, List.append_nil]
  refine (conditions_reads _ i.next).mono fun cs rs j hcs => ?_
  have hstop₁ := hcs.1.ahead.stop_eq
  have hij := hcs.1.ahead.position_le
  refine (body_reads hstmt (by omega) _).mono fun b rs' k hb => ?_
  have hstop₂ := hb.moves.ahead.stop_eq
  have hjk := hb.moves.ahead.position_le
  have hmoves := Moves.after_ahead i.ahead_next
    ((hcs.1.mono fun _ => Cause.Inner.nested).trans hb.moves)
  -- conditions and body stand in front of whatever ends the statement
  have hinside : ∀ {l : Input}, k.Ahead l →
      (∀ c ∈ cs, c.Everywhere (Run.Within i.position l.position)) ∧
        Stmt.BodyEverywhere (Run.Within i.position l.position) b := by
    intro l hl
    have hkl := hl.position_le
    exact ⟨fun c hc => (hcs.2 c hc).widen (by omega) (by omega),
      Stmt.BodyEverywhere.mono (fun _ hr => hr.mono (by omega) hkl) b hb.inside⟩
  refine ⟨fun helse => ?_, fun _ => ?_⟩
  · have hkl := Input.position_lt_next (Input.rest_ne_nil helse)
    have hstop₃ := k.ahead_next.stop_eq
    refine (alternative_reads hstmt (by omega)).mono fun a rs'' l ha => ?_
    have hahead := k.ahead_next.trans ha.1.ahead
    have hle := ha.1.ahead.position_le
    obtain ⟨hcs', hb'⟩ := hinside hahead
    rw [← List.append_assoc]
    refine ⟨hmoves.trans (.after_ahead k.ahead_next ha.1), ⟨rfl, hcs', hb', ?_,
      Run.within_self (by omega)⟩, fun _ => by omega⟩
    exact Stmt.AlternativeEverywhere.mono (fun _ hr => hr.mono (by omega) (Nat.le_refl _)) a ha.2
  · obtain ⟨hcs', hb'⟩ := hinside (.refl k)
    exact ⟨hmoves, ⟨rfl, hcs', hb', trivial, Run.within_self (by omega)⟩, fun _ => by omega⟩

theorem guardBody_reads (hm : i.rest.length ≤ m) :
    (guardBody stmt).Ensures i (ReadsBody i) := by
  simp only [guardBody, ensures_bind, ensures_eat, ensures_check, ↓reduceIte, Bool.false_eq_true,
    List.nil_append, ensures_reportHere, ensures_pure, List.append_nil]
  have hstop := i.ahead_next.stop_eq
  have hle := i.ahead_next.position_le
  refine ⟨fun _ => ?_, fun _ => ⟨fun hopen => ?_, fun _ => ⟨.here trivial trivial, trivial⟩⟩⟩
  · refine (body_reads hstmt (by omega) _).mono fun b rs j hb => ?_
    refine ⟨.after_ahead i.ahead_next hb.moves, ?_⟩
    exact Stmt.BodyEverywhere.mono (fun _ hr => hr.mono hle (Nat.le_refl _)) b hb.inside
  · refine (block_reads hstmt hm hopen).mono fun b rs j hb => ?_
    exact ⟨.trans (.here trivial trivial) hb.1.moves, hb.1.inside⟩

theorem guardStatement_reads (hm : i.rest.length ≤ m) (hne : i.rest ≠ []) :
    (guardStatement stmt).Ensures i (ReadsStmt i) := by
  have hlt := Input.position_lt_next hne
  have hstop := i.ahead_next.stop_eq
  simp only [guardStatement, ensures_bind, ensures_position, ensures_next, List.nil_append,
    ensures_runFrom, ensures_pure, List.append_nil]
  refine (conditions_reads _ i.next).mono fun cs rs j hcs => ?_
  refine (headerTail_moves _ _ j).mono fun _ rs' k hk => ?_
  have hstop₁ := hcs.1.ahead.stop_eq
  have hstop₂ := hk.ahead.stop_eq
  have hij := hcs.1.ahead.position_le
  have hjk := hk.ahead.position_le
  refine (guardBody_reads hstmt (by omega)).mono fun b rs'' l hb => ?_
  have hkl := hb.moves.ahead.position_le
  refine ⟨.after_ahead i.ahead_next ((hcs.1.mono fun _ => Cause.Inner.nested).trans
    (hk.trans hb.moves)), ⟨rfl, ?_, ?_, Run.within_self (by omega)⟩, fun _ => by omega⟩
  · exact fun c hc => (hcs.2 c hc).widen (by omega) (by omega)
  · exact Stmt.BodyEverywhere.mono (fun _ hr => hr.mono (by omega) (Nat.le_refl _)) b hb.inside

theorem whileStatement_reads (hm : i.rest.length ≤ m) (hne : i.rest ≠ []) :
    (whileStatement stmt).Ensures i (ReadsStmt i) := by
  have hlt := Input.position_lt_next hne
  have hstop := i.ahead_next.stop_eq
  simp only [whileStatement, ensures_bind, ensures_position, ensures_next, List.nil_append,
    ensures_runFrom, ensures_pure, List.append_nil]
  refine (conditions_reads _ i.next).mono fun cs rs j hcs => ?_
  have hstop₁ := hcs.1.ahead.stop_eq
  have hij := hcs.1.ahead.position_le
  refine (body_reads hstmt (by omega) _).mono fun b rs' k hb => ?_
  have hjk := hb.moves.ahead.position_le
  refine ⟨.after_ahead i.ahead_next ((hcs.1.mono fun _ => Cause.Inner.nested).trans hb.moves),
    ⟨rfl, ?_, ?_, Run.within_self (by omega)⟩, fun _ => by omega⟩
  · exact fun c hc => (hcs.2 c hc).widen (by omega) (by omega)
  · exact Stmt.BodyEverywhere.mono (fun _ hr => hr.mono (by omega) (Nat.le_refl _)) b hb.inside

end Blocks

theorem declaration_reads (mutable : Bool) (hne : i.rest ≠ []) :
    (declaration mutable).Ensures i (ReadsStmt i) := by
  have hlt := Input.position_lt_next hne
  simp only [declaration, ensures_bind, ensures_position, ensures_next, List.nil_append,
    ensures_runFrom, ensures_pure, List.append_nil]
  refine (pattern_reads _ i.next).mono fun b rs j hb => ?_
  refine (initializer?_reads j).mono fun init rs' k hinit => ?_
  have hij := hb.1.ahead.position_le
  have hjk := hinit.1.ahead.position_le
  refine ⟨.after_ahead i.ahead_next ((hb.1.trans hinit.1).mono fun _ => Cause.Inner.nested),
    ⟨rfl, hb.2.mono (by omega) hjk, ?_, Run.within_self (by omega)⟩, fun _ => by omega⟩
  exact fun e he => (hinit.2 e he).widen (by omega) (Nat.le_refl _)

theorem returnValue?_reads (i : Input) :
    returnValue?.Ensures i fun e? rs j => Moves Cause.Inner i rs j ∧
      ∀ e ∈ e?, e.Everywhere (Run.Within i.position j.position) := by
  simp only [returnValue?, ensures_bind, ensures_atEnd, ensures_atLineStart, ↓reduceIte,
    Bool.false_eq_true, List.nil_append, ensures_pure]
  refine ⟨fun _ => ⟨.refl i, nofun⟩, fun _ => ?_⟩
  split
  · exact ⟨.refl i, nofun⟩
  · simp only [ensures_bind, ensures_check, ↓reduceIte, Bool.false_eq_true, List.nil_append,
      ensures_pure, List.append_nil]
    refine ⟨fun _ => ⟨.refl i, nofun⟩, fun _ => ?_⟩
    refine (expr_reads .full .returned i).mono fun e rs j h => ⟨h.1.moves, ?_⟩
    rintro _ ⟨⟩
    exact h.1.spans.inside

theorem returnStatement_reads (hne : i.rest ≠ []) :
    returnStatement.Ensures i (ReadsStmt i) := by
  have hlt := Input.position_lt_next hne
  simp only [returnStatement, ensures_bind, ensures_position, ensures_next, List.nil_append,
    ensures_runFrom, ensures_pure, List.append_nil]
  refine (returnValue?_reads i.next).mono fun e? rs j h => ?_
  have hij := h.1.ahead.position_le
  refine ⟨.after_ahead i.ahead_next (h.1.mono fun _ => Cause.Inner.nested),
    ⟨rfl, fun e he => ?_, Run.within_self (by omega)⟩, fun _ => by omega⟩
  exact (h.2 e he).widen (by omega) (Nat.le_refl _)

/-- A keyword that begins a statement can begin one. -/
theorem statementStart_of_keyword {k : Kind String} (h : k.isStatementKeyword = true) :
    TagSet.statementStart.contains k = true := by
  cases k with
  | fixed f => cases f <;> first | rfl | exact absurd h nofun
  | _ => exact absurd h nofun

/-- There are no other keywords that begin a statement. -/
theorem isStatementKeyword_eq_false {k : Kind String} (hif : k ≠ .fixed .ifWord)
    (hguard : k ≠ .fixed .guardWord) (hwhile : k ≠ .fixed .whileWord) (hlet : k ≠ .fixed .letWord)
    (hvar : k ≠ .fixed .varWord) (hreturn : k ≠ .fixed .returnWord) :
    k.isStatementKeyword = false := by
  cases k with
  | fixed f =>
    cases f <;> first
      | rfl | exact absurd rfl hif | exact absurd rfl hguard | exact absurd rfl hwhile
      | exact absurd rfl hlet | exact absurd rfl hvar | exact absurd rfl hreturn
  | _ => rfl

/-- Only a keyword begins a statement and no expression. -/
theorem expressionStart_of_statementStart {k : Kind String}
    (h : TagSet.statementStart.contains k = true) (hk : k.isStatementKeyword = false) :
    TagSet.expressionStart.contains k = true := by
  cases k with
  | fixed f => cases f <;> first | exact h | exact absurd hk (by decide)
  | _ => exact h

theorem expressionStatement_reads (hk : i.kind.isStatementKeyword = false) :
    expressionStatement.Ensures i (ReadsStmt i) := by
  simp only [expressionStatement, ensures_bind, ensures_position, List.nil_append,
    ensures_runFrom, ensures_pure, List.append_nil]
  refine (expr_reads .full .statement i).mono fun e rs j h => ?_
  exact ⟨h.1.moves.mono fun _ => Cause.Inner.nested,
    ⟨rfl, h.1.spans.inside, Run.within_self h.1.spans.le⟩,
    fun hstart => h.2 (expressionStart_of_statementStart hstart hk)⟩

theorem statement_reads {stmt : Parser (Stmt Run)} {m : Nat}
    (hstmt : ∀ i, i.rest.length < m → stmt.Ensures i (ReadsStmt i)) (hm : i.rest.length ≤ m) :
    (statement stmt).Ensures i (ReadsStmt i) := by
  simp only [statement, ensures_bind, ensures_kind, List.nil_append]
  split
  · rename_i hk; exact ifStatement_reads hstmt hm (Input.rest_ne_nil hk)
  · rename_i hk; exact guardStatement_reads hstmt hm (Input.rest_ne_nil hk)
  · rename_i hk; exact whileStatement_reads hstmt hm (Input.rest_ne_nil hk)
  · rename_i hk; exact declaration_reads false (Input.rest_ne_nil hk)
  · rename_i hk; exact declaration_reads true (Input.rest_ne_nil hk)
  · rename_i hk; exact returnStatement_reads (Input.rest_ne_nil hk)
  · rename_i hif hguard hwhile hlet hvar hreturn
    exact expressionStatement_reads
      (isStatementKeyword_eq_false hif hguard hwhile hlet hvar hreturn)

/-- With more levels than terminals a statement is read forward. -/
theorem stmtWithin_reads (n : Nat) (i : Input) (h : i.rest.length < n) :
    (stmtWithin n).Ensures i (ReadsStmt i) := by
  induction n generalizing i with
  | zero => exact absurd h (Nat.not_lt_zero _)
  | succ n ih => exact statement_reads ih (Nat.le_of_lt_succ h)

/-- **A statement is read forward,** and takes a terminal that can begin it. -/
theorem stmt_reads (i : Input) : stmt.Ensures i (ReadsStmt i) :=
  (stmtWithin_reads _ i (Nat.lt_succ_self _)).of_eq rfl

/-! ## 4. The top level -/

/-- One round of the top level. -/
theorem topLevelItem?_reads (i : Input) :
    topLevelItem?.Ensures i fun s?? rs j =>
      match s?? with
      | none => rs = [] ∧ j = i ∧ i.rest = []
      | some s? => Moves (fun _ => True) i rs j ∧ i.position < j.position ∧
          EndsLine .topLevel j ∧ ∀ s ∈ s?, s.Everywhere (Run.Within i.position j.position) := by
  simp only [topLevelItem?, ensures_bind, ensures_atEnd, ↓reduceIte, Bool.false_eq_true,
    List.nil_append, ensures_pure, List.append_nil]
  refine ⟨fun hend => ⟨trivial, trivial, hend⟩, fun hne => ?_⟩
  exact item_reads (fun i _ => stmt_reads i) (fun _ _ => trivial) trivial (Nat.lt_succ_self _) hne

/-- **Each round of the top level takes a terminal** or ends it. -/
theorem topLevelItem?_advances (m : Nat) : AdvancesUpTo m topLevelItem? := by
  intro i _
  refine (topLevelItem?_reads i).mono fun s?? rs j h hsome => ?_
  cases s?? with
  | none => exact absurd hsome (by simp)
  | some s? => exact h.1.ahead.length_lt h.2.1

/-- **The top level is read to the end.** -/
theorem topLevel_reads (i : Input) :
    topLevel.Ensures i fun ss rs j => Moves (fun _ => True) i rs j ∧ j.rest = [] ∧
      ∀ s ∈ ss, s.Everywhere (Run.Within i.position j.position) := by
  have hloop : ∀ k, (collect topLevelItem?).Ensures k fun items rs l =>
      Moves (fun _ => True) k rs l ∧ l.rest = [] ∧
        ∀ s ∈ items.filterMap id, s.Everywhere (Run.Within k.position l.position) := by
    refine ensures_collect fun k => (topLevelItem?_reads k).mono fun s?? rs l h => ?_
    cases s?? with
    | none =>
      obtain ⟨rfl, rfl, hend⟩ := h
      exact ⟨.refl _, hend, by simp⟩
    | some s? =>
      obtain ⟨hmoves, hlt, -, hs⟩ := h
      refine ⟨hmoves.ahead.length_lt hlt, fun items rs' l' hitems => ?_⟩
      obtain ⟨hmoves', hend, hitems⟩ := hitems
      have hll := hmoves'.ahead.position_le
      refine ⟨hmoves.trans hmoves', hend, fun s' hs' => ?_⟩
      rcases mem_filterMap_id_cons.mp hs' with hs' | hs'
      · exact (hs s' hs').widen (Nat.le_refl _) hll
      · exact (hitems s' hs').widen (Nat.le_of_lt hlt) (Nat.le_refl _)
  simp only [topLevel, ensures_bind, ensures_pure, List.append_nil]
  exact hloop i

end Parser

end PlatformGate
