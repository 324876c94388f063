/-
# Statements settle what their parts owe

A query reads its keyword, so it owes nothing.  A clause may end in front of a keyword; the rest of
the header settles that, unless the keyword begins a line.  Then the header is found to end, and the
keyword is left to the line behind the statement or to the next item, which report it as leftovers.
At the end of file nothing is owed any more (`topLevel_trail`).
-/
import PlatformGate.Proofs.Recovery.TrailValues
import PlatformGate.Proofs.Tiling.Tiles

namespace PlatformGate

open Input Terminal

namespace Parser

variable {w : List Terminal}

/-! ## 1. Queries -/

theorem tracks_component? : Tracks w (Clear w) component? (Clear w) := by
  refine tracks_eat clear_owing rfl ?_ tracks_pure
  refine tracks_kind fun k => ?_
  have hother : Tracks w (fun s i => Clear w s i ∧ i.kind = k)
      (do reportHere .missingVersion; return (none : Option Nat)) (Clear w) := by
    refine ((tracks_reportHere .missingVersion nofun nofun).from_of fun s i h => h.1).bind ?_
    exact fun _ => tracks_pure
  cases k with
  | number v => exact (tracks_next.from_of fun s i h => h.1).bind fun _ => tracks_pure
  | invalid => exact (tracks_invalidToken.from_of fun s i h => h.1).bind fun _ => tracks_pure
  | _ => exact hother

theorem tracks_version? : Tracks w (Clear w) version? (Clear w) := by
  refine tracks_kind fun k => ?_
  cases k with
  | number major =>
    refine (tracks_next.from_of fun s i h => h.1).bind fun _ => ?_
    refine tracks_component?.bind fun minor? => ?_
    cases minor? with
    | none => exact tracks_pure
    | some minor =>
      refine tracks_component?.bind fun patch? => ?_
      cases patch? <;> exact tracks_pure
  | invalid => exact (tracks_invalidToken.from_of fun s i h => h.1).bind fun _ => tracks_pure
  | _ => exact tracks_pure_of fun s i h => h.1

/-- No operator begins a statement. -/
theorem isStatementKeyword_of_illegalInQuery {k : Kind String}
    (h : TagSet.illegalInQuery.contains k = true) : k.isStatementKeyword = false := by
  cases k with
  | fixed f => cases f <;> first | rfl | exact absurd h nofun
  | _ => rfl

/-- Leftovers of a query begin with an operator, which begins no statement. -/
theorem tracks_illegalOperator (resume : TagSet) :
    Tracks w (Clear w) (illegalOperator resume) (Clear w) := by
  refine tracks_kind fun k => ?_
  split
  · rename_i hillegal
    refine Tracks.bind (fun s i h => ?_) fun _ => tracks_pure
    obtain ⟨hclear, rfl⟩ := h
    refine trail_leftovers hclear (fun hbegins => ?_) _ false
    have hkeyword := isStatementKeyword_of_beginsStatement hbegins
    rw [isStatementKeyword_of_illegalInQuery hillegal] at hkeyword
    exact absurd hkeyword nofun
  · exact tracks_pure_of fun s i h => h.1

theorem tracks_entryHere? (resume : TagSet) :
    Tracks w (Clear w) (entryHere? resume) (Clear w) := by
  refine (tracks_illegalOperator resume).bind fun illegal => ?_
  refine Tracks.ite tracks_pure ?_
  refine tracks_position.bind fun start => ?_
  refine tracks_kind fun k => ?_
  have hmissing : Tracks w (fun s i => Clear w s i ∧ i.kind = k) (reportHere .missingPlatform)
      (Clear w) :=
    (tracks_reportHere .missingPlatform nofun nofun).from_of fun s i h => h.1
  have hother : Tracks w (fun s i => Clear w s i ∧ i.kind = k)
      (if resume.contains k then pure none
        else do reportHere .missingPlatform; return (none : Option (Entry Run))) (Clear w) := by
    refine Tracks.ite (tracks_pure_of fun s i h => h.1) ?_
    exact hmissing.bind fun _ => tracks_pure
  cases k with
  | word name =>
    refine (tracks_next.from_of fun s i h => h.1).bind fun _ => ?_
    refine tracks_version?.bind fun version => ?_
    exact tracks_runFrom.bind fun place => tracks_pure
  | number v =>
    refine hmissing.bind fun _ => ?_
    refine tracks_version?.bind fun version => ?_
    exact tracks_runFrom.bind fun place => tracks_pure
  | endOfFile => exact tracks_pure_of fun s i h => h.1
  | fixed f =>
    cases f with
    | star =>
      refine (tracks_next.from_of fun s i h => h.1).bind fun _ => ?_
      exact tracks_runFrom.bind fun place => tracks_pure
    | rparen => exact tracks_pure_of fun s i h => h.1
    | _ => exact hother
  | _ => exact hother

theorem tracks_entryBehindComma? (resume : TagSet) :
    Tracks w (Clear w) ( entryBehindComma? resume) (Clear w) := by
  refine (tracks_illegalOperator resume).bind fun illegal => ?_
  refine Tracks.ite tracks_pure ?_
  exact tracks_eat clear_owing rfl (tracks_entryHere? resume) tracks_pure

theorem tracks_entries (resume : TagSet) :
    Tracks w (Clear w) (entries resume) (Clear w) := by
  refine tracks_check clear_owing rfl ?_ ?_
  · refine ((tracks_reportHere .missingPlatform nofun nofun).from_of fun s i h => h.1).bind ?_
    exact fun _ => tracks_pure
  · refine (tracks_entryHere? resume).bind fun first? => ?_
    cases first? with
    | none => exact tracks_pure
    | some first =>
      exact (tracks_collect (tracks_entryBehindComma? resume)).bind fun others => tracks_pure

/-- **A query owes nothing.**  Its keyword stands where it may. -/
theorem tracks_query (resume : TagSet) : Tracks w (Clear w) (query resume) (Clear w) := by
  refine tracks_position.bind fun start => ?_
  refine tracks_kind fun k => ?_
  refine (tracks_next.from_of fun s i h => h.1).bind fun _ => ?_
  refine tracks_position.bind fun opener => ?_
  refine tracks_eat clear_owing rfl ?_ ?_
  · refine (tracks_entries resume).bind fun items => ?_
    refine tracks_eat clear_owing rfl (tracks_runFrom.bind fun place => tracks_pure) ?_
    refine tracks_unclosed.bind fun _ => ?_
    exact tracks_runFrom.bind fun place => tracks_pure
  · refine (tracks_reportHere .missingQueryOpener nofun nofun).bind fun _ => ?_
    exact tracks_runFrom.bind fun place => tracks_pure

/-! ## 2. Clauses -/

theorem tracks_pattern (pos : PatternPosition) :
    Tracks w (Clear w) (pattern pos) (Clear w) := by
  refine tracks_position.bind fun start => ?_
  refine tracks_kind fun k => ?_
  have hother : Tracks w (fun s i => Clear w s i ∧ i.kind = k)
      (do reportHere (.missingPattern pos); return Pattern.missing (Run.point start))
      (Clear w) := by
    refine ((tracks_reportHere (.missingPattern pos) nofun nofun).from_of fun s i h => h.1).bind ?_
    exact fun _ => tracks_pure
  cases k with
  | word name => exact (tracks_next.from_of fun s i h => h.1).bind fun _ => tracks_pure
  | fixed f =>
    cases f with
    | underscore => exact (tracks_next.from_of fun s i h => h.1).bind fun _ => tracks_pure
    | _ => exact hother
  | _ => exact hother

theorem tracks_initializer? : Tracks w (Clear w) initializer? (Open w) := by
  refine tracks_eat clear_owing rfl ?_ (tracks_pure_of clear_open)
  exact (tracks_expr .full .declared).bind fun e => tracks_pure

theorem tracks_caseValue_loud : Tracks w (Open w) (caseValue false) (Open w) :=
  tracks_eat open_owing rfl (tracks_expr .full .declared) tracks_errorHere

theorem tracks_caseValue_quiet : Tracks w (Clear w) (caseValue true) (Open w) := by
  refine tracks_eat clear_owing rfl (tracks_expr .full .declared) ?_
  refine (tracks_reportHere .missingCaseValue nofun nofun).bind fun _ => ?_
  exact tracks_errorHere.to_of clear_open

/-- **A clause owes at most the keyword in front of which it stops.** -/
theorem tracks_clause (owner : Owner) : Tracks w (Clear w) (clause owner) (Open w) := by
  refine tracks_position.bind fun start => ?_
  refine tracks_kind fun k => ?_
  have hquery : Tracks w (fun s i => Clear w s i ∧ i.kind = k)
      (do let q ← query (TagSet.headerEnd owner); return Clause.availability q) (Open w) := by
    refine ((tracks_query _).from_of fun s i h => h.1).bind fun q => ?_
    exact tracks_pure_of clear_open
  have hbinding : ∀ mutable, Tracks w (fun s i => Clear w s i ∧ i.kind = k)
      (do
        next
        let p ← pattern (.header owner)
        let init ← initializer?
        return Clause.binding mutable p init (← runFrom start)) (Open w) := by
    intro mutable
    refine (tracks_next.from_of fun s i h => h.1).bind fun _ => ?_
    refine (tracks_pattern _).bind fun p => ?_
    refine tracks_initializer?.bind fun init => ?_
    exact tracks_runFrom.bind fun place => tracks_pure
  have hother : Tracks w (fun s i => Clear w s i ∧ i.kind = k)
      (do let e ← expr .full (.header owner); return Clause.expr e (← runFrom start)) (Open w) := by
    refine ((tracks_expr .full _).from_of fun s i h => h.1).bind fun e => ?_
    exact tracks_runFrom.bind fun place => tracks_pure
  cases k with
  | fixed f =>
    cases f with
    | available | unavailable => exact hquery
    | letWord => exact hbinding false
    | varWord => exact hbinding true
    | caseWord =>
      refine (tracks_next.from_of fun s i h => h.1).bind fun _ => ?_
      refine tracks_quietly (tracks_expr .ternary .pattern) (fun p => ?_) fun p => ?_
      · refine tracks_caseValue_quiet.bind fun init => ?_
        exact tracks_runFrom.bind fun place => tracks_pure
      · refine tracks_caseValue_loud.bind fun init => ?_
        exact tracks_runFrom.bind fun place => tracks_pure
    | _ => exact hother
  | _ => exact hother

theorem tracks_conditions (owner : Owner) :
    Tracks w (Clear w) (conditions owner) (Open w) := by
  have hmore : Tracks w (Open w) (clauseBehindComma? owner) (Open w) := by
    refine tracks_eat open_owing rfl ?_ tracks_pure
    exact (tracks_clause owner).bind fun c => tracks_pure
  refine (tracks_clause owner).bind fun first => ?_
  exact (tracks_collect hmore).bind fun others => tracks_pure

/-! ## 3. Leftovers between statements -/

theorem leftoverStop_not_availability (c : Construct) (k : Kind String)
    (h : k.isAvailability = true) : (leftoverStop c).contains k = false :=
  leftoverStop_contains (isCloser_of_isAvailability h)

/-- **Leftovers between statements settle what is owed.** -/
theorem tracks_junk {P : Debt → Input → Prop} (hP : ∀ s i, P s i → Owing w s i)
    (hfirst : ∀ s i, P s i → i.beginsStatement = false) {c : Construct}
    (hc : c = .block ∨ c = .topLevel) : Tracks w P (junk c) (Clear w) := by
  have hne : c ≠ .availability := by rcases hc with rfl | rfl <;> nofun
  refine tracks_kind fun k => ?_
  split
  · rename_i hclose
    rintro s i ⟨hPi, rfl⟩
    have havail : i.kind.isAvailability = false := by
      rw [← Bool.not_eq_true]
      intro h
      rw [isCloser_of_isAvailability h] at hclose
      exact absurd hclose nofun
    obtain ⟨hi, rfl⟩ := (hP s i hPi).clear havail
    rw [ensures_strayCloser]
    refine ⟨.clear, .single (.other (not_isMisuse_of_ne nofun)) ?_, hi.next, rfl⟩
    exact sparesStatements_token hi (hfirst _ i hPi)
  · refine tracks_leftovers (fun s i h => hP s i h.1) hne (fun s i h hbegins => ?_)
      (leftoverStop_not_availability c) true
    rw [hfirst s i h.1] at hbegins
    exact absurd hbegins nofun

theorem tracks_restOfLine {c : Construct} (hc : c = .block ∨ c = .topLevel) :
    Tracks w (Owing w) (restOfLine c) (Owing w) := by
  have howing : ∀ s i, Owing w s i → Owing w s i := fun _ _ h => h
  have hround : Tracks w (Owing w) (trailing? c) (Owing w) := by
    refine tracks_atEnd howing (tracks_pure_of clear_owing) ?_
    refine tracks_atLineStart fun line => ?_
    split
    · exact tracks_pure_of fun s i h => h.1
    · rename_i hline
      -- only a terminal behind another on its line is trailing
      have hjunk : Tracks w (fun s i => Owing w s i ∧ i.atLineStart = line)
          (do junk c; return some ()) (Owing w) := by
        refine (tracks_junk (fun s i h => h.1) (fun s i h => ?_) hc).bind fun _ => ?_
        · rw [← Bool.not_eq_true]
          intro hbegins
          exact hline (h.2 ▸ atLineStart_of_beginsStatement hbegins)
        · exact tracks_pure_of clear_owing
      refine Tracks.ite ?_ hjunk
      exact tracks_check (fun s i h => h.1) rfl (tracks_pure_of fun s i h => h.1.owing) hjunk
  exact (tracks_collect hround).bind fun _ => tracks_pure

/-! ## 4. Statements -/

/-- No statement begins with an availability keyword. -/
theorem isAvailability_of_statementStart {k : Kind String}
    (h : TagSet.statementStart.contains k = true) : k.isAvailability = false := by
  cases k with
  | fixed f => cases f <;> first | rfl | exact absurd h nofun
  | _ => rfl

section Nested

variable {stmt : Parser (Stmt Run)} (hstmt : Tracks w (Clear w) stmt (Owing w))

include hstmt

theorem tracks_item {c : Construct} (hc : c = .block ∨ c = .topLevel) :
    Tracks w (Owing w) (item stmt c) (Owing w) := by
  refine tracks_kind fun k => ?_
  split
  · rename_i hstart
    refine (hstmt.from_of fun s i h => ?_).bind fun s => ?_
    · obtain ⟨howing, rfl⟩ := h
      exact howing.clear (isAvailability_of_statementStart hstart)
    · exact (tracks_restOfLine hc).bind fun _ => tracks_pure
  · rename_i hstart
    refine (tracks_junk (fun s i h => h.1) (fun s i h => ?_) hc).bind fun _ => ?_
    · rw [← Bool.not_eq_true]
      intro hbegins
      refine hstart (statementStart_of_keyword ?_)
      rw [← h.2]
      exact isStatementKeyword_of_beginsStatement hbegins
    · refine ((tracks_restOfLine hc).from_of clear_owing).bind fun _ => ?_
      exact tracks_pure

theorem tracks_block : Tracks w (Clear w) (block stmt) (Owing w) := by
  refine tracks_position.bind fun opener => ?_
  refine tracks_next.bind fun _ => ?_
  have howing : ∀ s i, Owing w s i → Owing w s i := fun _ _ h => h
  have hround : Tracks w (Owing w) (blockItem? stmt opener) (Owing w) := by
    refine tracks_eat howing rfl (tracks_pure_of clear_owing) ?_
    refine tracks_atEnd howing (tracks_unclosed.bind fun _ => tracks_pure_of clear_owing) ?_
    exact (tracks_item hstmt (.inl rfl)).bind fun s => tracks_pure
  refine ((tracks_collect hround).from_of clear_owing).bind fun items => ?_
  exact tracks_runFrom.bind fun place => tracks_pure

end Nested

/-! ## 5. Headers and bodies -/

/-- What is owed behind a header stands at the beginning of a line. -/
def HeaderEnded (w : List Terminal) (s : Debt) (i : Input) : Prop :=
  Open w s i ∧ (s = .clear ∨ i.atLineStart = true)

theorem HeaderEnded.owing : ∀ s i, HeaderEnded w s i → Owing w s i := fun _ _ h => h.1.owing

theorem clear_headerEnded : ∀ s i, Clear w s i → HeaderEnded w s i :=
  fun _ _ h => ⟨h.open, .inl h.2⟩

/-- **The rest of a header settles what is owed,** unless the keyword begins a line. -/
theorem tracks_headerTail (owner : Owner) {stop : TagSet}
    (hstop : ∀ k : Kind String, k.isAvailability = true → stop.contains k = false) :
    Tracks w (Open w) (headerTail owner stop) (HeaderEnded w) := by
  refine tracks_atEnd open_owing (tracks_pure_of clear_headerEnded) ?_
  refine tracks_atLineStart fun line => ?_
  split
  · rename_i hline
    exact tracks_pure_of fun s i h => ⟨h.1, .inr (h.2.trans hline)⟩
  · rename_i hline
    have hne : Construct.header owner ≠ .availability := nofun
    refine (tracks_leftovers (fun s i h => h.1.owing) hne (fun s i h hbegins => ?_) hstop
      true).to_of clear_headerEnded
    exact absurd (h.2 ▸ atLineStart_of_beginsStatement hbegins) hline

/-- No header ends with an availability keyword. -/
theorem headerEnd_not_availability (owner : Owner) (k : Kind String)
    (h : k.isAvailability = true) : (TagSet.headerEnd owner).contains k = false := by
  cases k with
  | fixed f => cases f <;> first | (cases owner <;> rfl) | exact absurd h nofun
  | _ => exact absurd h nofun

/-- **A part of a statement may be found missing while a keyword is owed.** -/
theorem tracks_missingPart (cause : Cause Run) (hcause : cause.EndsHeader) :
    Tracks w (HeaderEnded w) (reportHere cause) (Owing w) := by
  have hleft : ∀ c, cause ≠ .leftover c := by
    rintro c rfl
    exact hcause
  have hvalue : ∀ pos, cause ≠ .missingValue pos := by
    rintro pos rfl
    exact hcause
  rintro s i ⟨⟨hi, hs⟩, hline⟩
  rcases hs with rfl | ⟨havail, rfl⟩
  · obtain ⟨s', hrs, hj⟩ := tracks_reportHere cause hleft hvalue .clear i ⟨hi, rfl⟩
    exact ⟨s', hrs, hj.owing⟩
  · have hline : lineStartAt w i.position = true := by
      rw [hi.lineStartAt_eq]
      exact hline.resolve_left nofun
    rw [ensures_reportHere]
    refine ⟨.late i.position, .single (.delay hcause hline) (sparesStatements_of_ne hleft), hi, ?_⟩
    exact .inr ⟨havail, .inr rfl⟩

section Bodies

variable {stmt : Parser (Stmt Run)} (hstmt : Tracks w (Clear w) stmt (Owing w))

include hstmt

theorem tracks_body (owner : Owner) : Tracks w (Open w) (body stmt owner) (Owing w) := by
  refine (tracks_headerTail owner (headerEnd_not_availability .ifStatement)).bind fun _ => ?_
  refine tracks_check HeaderEnded.owing rfl ?_ ?_
  · exact (tracks_block hstmt).from_of fun s i h => h.1
  · refine tracks_atEnd HeaderEnded.owing ?_ ?_
    · refine (tracks_reportHere (.missingBody owner true) nofun nofun).bind fun _ => ?_
      exact tracks_pure_of clear_owing
    · exact (tracks_missingPart (.missingBody owner false) trivial).bind fun _ => tracks_pure

theorem tracks_alternative : Tracks w (Clear w) (alternative stmt) (Owing w) := by
  refine tracks_check clear_owing rfl ?_ ?_
  · exact (hstmt.from_of fun s i h => h.1).bind fun s => tracks_pure
  · exact ((tracks_body hstmt .ifStatement).from_of clear_open).bind fun b => tracks_pure

theorem tracks_ifStatement : Tracks w (Clear w) (ifStatement stmt) (Owing w) := by
  refine tracks_position.bind fun start => ?_
  refine tracks_next.bind fun _ => ?_
  refine (tracks_conditions .ifStatement).bind fun cs => ?_
  refine (tracks_body hstmt .ifStatement).bind fun b => ?_
  refine tracks_eat (fun s i h => h) rfl ?_ (tracks_runFrom.bind fun place => tracks_pure)
  refine (tracks_alternative hstmt).bind fun a => ?_
  exact tracks_runFrom.bind fun place => tracks_pure

theorem tracks_guardBody : Tracks w (HeaderEnded w) (guardBody stmt) (Owing w) := by
  refine tracks_eat HeaderEnded.owing rfl ?_ ?_
  · exact (tracks_body hstmt .guardStatement).from_of clear_open
  · refine (tracks_missingPart .missingElse trivial).bind fun _ => ?_
    refine tracks_check (fun s i h => h) rfl ?_ tracks_pure
    exact (tracks_block hstmt).from_of fun s i h => h.1

theorem tracks_guardStatement : Tracks w (Clear w) (guardStatement stmt) (Owing w) := by
  refine tracks_position.bind fun start => ?_
  refine tracks_next.bind fun _ => ?_
  refine (tracks_conditions .guardStatement).bind fun cs => ?_
  refine (tracks_headerTail .guardStatement (headerEnd_not_availability _)).bind fun _ => ?_
  refine (tracks_guardBody hstmt).bind fun b => ?_
  exact tracks_runFrom.bind fun place => tracks_pure

theorem tracks_whileStatement : Tracks w (Clear w) (whileStatement stmt) (Owing w) := by
  refine tracks_position.bind fun start => ?_
  refine tracks_next.bind fun _ => ?_
  refine (tracks_conditions .whileStatement).bind fun cs => ?_
  refine (tracks_body hstmt .whileStatement).bind fun b => ?_
  exact tracks_runFrom.bind fun place => tracks_pure

end Bodies

/-! ## 6. Sources -/

theorem tracks_declaration (mutable : Bool) :
    Tracks w (Clear w) (declaration mutable) (Owing w) := by
  refine tracks_position.bind fun start => ?_
  refine tracks_next.bind fun _ => ?_
  refine (tracks_pattern .declared).bind fun p => ?_
  refine tracks_initializer?.bind fun init => ?_
  exact tracks_runFrom.bind fun place => tracks_pure_of open_owing

theorem tracks_returnStatement : Tracks w (Clear w) returnStatement (Owing w) := by
  refine tracks_position.bind fun start => ?_
  refine tracks_next.bind fun _ => ?_
  have hvalue : Tracks w (Clear w) returnValue? (Open w) := by
    refine tracks_atEnd clear_owing (tracks_pure_of clear_open) ?_
    refine Tracks.bind (fun s i h => ⟨s, .nil, h⟩) fun line => ?_
    refine Tracks.ite (tracks_pure_of clear_open) ?_
    refine tracks_check clear_owing rfl (tracks_pure_of fun s i h => h.1.open) ?_
    exact (tracks_expr .full .returned).bind fun e => tracks_pure
  refine hvalue.bind fun e => ?_
  exact tracks_runFrom.bind fun place => tracks_pure_of open_owing

theorem tracks_expressionStatement : Tracks w (Clear w) expressionStatement (Owing w) := by
  refine tracks_position.bind fun start => ?_
  refine (tracks_expr .full .statement).bind fun e => ?_
  exact tracks_runFrom.bind fun place => tracks_pure_of open_owing

theorem tracks_statement {stmt : Parser (Stmt Run)} (hstmt : Tracks w (Clear w) stmt (Owing w)) :
    Tracks w (Clear w) (statement stmt) (Owing w) := by
  refine tracks_kind fun k => ?_
  have hexpr : Tracks w (fun s i => Clear w s i ∧ i.kind = k) expressionStatement (Owing w) :=
    tracks_expressionStatement.from_of fun s i h => h.1
  cases k with
  | fixed f =>
    cases f with
    | ifWord => exact (tracks_ifStatement hstmt).from_of fun s i h => h.1
    | guardWord => exact (tracks_guardStatement hstmt).from_of fun s i h => h.1
    | whileWord => exact (tracks_whileStatement hstmt).from_of fun s i h => h.1
    | letWord => exact (tracks_declaration false).from_of fun s i h => h.1
    | varWord => exact (tracks_declaration true).from_of fun s i h => h.1
    | returnWord => exact tracks_returnStatement.from_of fun s i h => h.1
    | _ => exact hexpr
  | _ => exact hexpr

theorem tracks_stmt : Tracks w (Clear w) stmt (Owing w) := by
  have hwithin : ∀ n, Tracks w (Clear w) (stmtWithin n) (Owing w) := by
    intro n
    induction n with
    | zero => exact tracks_expressionStatement
    | succ n ih => exact tracks_statement ih
  exact fun s i h => (hwithin (i.rest.length + 1) s i h).of_eq rfl

theorem tracks_topLevel : Tracks w (Clear w) topLevel (Owing w) := by
  have hround : Tracks w (Owing w) topLevelItem? (Owing w) := by
    refine tracks_atEnd (fun s i h => h) (tracks_pure_of clear_owing) ?_
    exact (tracks_item tracks_stmt (.inr rfl)).bind fun s => tracks_pure
  exact ((tracks_collect hround).from_of clear_owing).bind fun items => tracks_pure

/-- **In the end nothing is owed.**  The reports about a source are a trail from nothing owed to
nothing owed. -/
theorem topLevel_trail (w : List Terminal) :
    Trail w .clear (topLevel (Input.start w)).reports .clear := by
  obtain ⟨s', hrs, hj⟩ := tracks_topLevel .clear (Input.start w) ⟨rfl, rfl⟩
  have hend := (topLevel_reads (Input.start w)).2.1
  have hkind : (topLevel (Input.start w)).next.kind.isAvailability = false := by
    unfold Input.kind
    rw [hend]
    rfl
  obtain ⟨-, rfl⟩ := hj.clear hkind
  exact hrs

end Parser

/-- The reports about a source are a trail. -/
theorem Whole.trail_ofSource (source : String) :
    Trail ((Token.beforeEnd source).map Terminal.ofToken) .clear (Whole.ofSource source).reports
      .clear := by
  rw [← Token.terminals_ofSource]
  exact Parser.topLevel_trail _

end PlatformGate
