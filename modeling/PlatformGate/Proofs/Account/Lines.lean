/-
# The courses of queries, headers and statements

A query that is read is the one that the course has asked, from its keyword on: inside the
parentheses an availability keyword is only ever taken as a part of leftovers.  The course of a
header asks the queries of its clauses, and the course of a statement the queries that stand in the
statement, from left to right; so that of a source asks those of all its statements
(`Parser.takes_topLevel`).
-/
import PlatformGate.Proofs.Account.Values
import PlatformGate.Proofs.Arena.Queries

namespace PlatformGate

namespace Parser

variable {P : Input → Prop}

/-! ## 1. Queries -/

theorem plain_component? : Plain P component? := by
  refine takes_eat rfl ?_ (takes_pure rfl)
  refine takes_kind fun k => ?_
  have hother : Plain (fun i => Input.Any i ∧ i.kind = k)
      (do reportHere .missingVersion; return (none : Option Nat)) :=
    (plain_reportHere .missingVersion trivial).then fun _ => takes_pure rfl
  cases k with
  | number v => exact (plain_next_of_kind rfl).then fun _ => takes_pure rfl
  | invalid => exact (plain_invalidToken fun i hi => hi.2).then fun _ => takes_pure rfl
  | _ => exact hother

theorem plain_version? : Plain P version? := by
  refine takes_kind fun k => ?_
  cases k with
  | number major =>
    refine (plain_next_of_kind rfl).then fun _ => ?_
    refine plain_component?.then fun minor? => ?_
    cases minor? with
    | none => exact takes_pure rfl
    | some minor =>
      refine plain_component?.then fun patch? => ?_
      cases patch? <;> exact takes_pure rfl
  | invalid => exact (plain_invalidToken fun i hi => hi.2).then fun _ => takes_pure rfl
  | _ => exact takes_pure rfl

theorem plain_illegalOperator (resume : TagSet) : Plain P (illegalOperator resume) := by
  refine looks_kind.then fun k => ?_
  refine Takes.ite ?_ (takes_pure rfl)
  exact (plain_leftovers .availability _ false).then fun _ => takes_pure rfl

theorem plain_entryHere? (resume : TagSet) : Plain P (entryHere? resume) := by
  refine (plain_illegalOperator resume).then fun illegal => ?_
  refine Takes.ite (takes_pure rfl) ?_
  refine looks_position.then fun start => ?_
  refine takes_kind fun k => ?_
  have hother : Plain (fun i => Input.Any i ∧ i.kind = k)
      (if resume.contains k then pure none
        else do reportHere .missingPlatform; return (none : Option (Entry Run))) := by
    refine Takes.ite (takes_pure rfl) ?_
    exact (plain_reportHere .missingPlatform trivial).then fun _ => takes_pure rfl
  cases k with
  | word name =>
    refine (plain_next_of_kind rfl).then fun _ => ?_
    refine plain_version?.then fun version => ?_
    exact (looks_runFrom start).then fun place => takes_pure rfl
  | number v =>
    refine (plain_reportHere .missingPlatform trivial).then fun _ => ?_
    refine plain_version?.then fun version => ?_
    exact (looks_runFrom start).then fun place => takes_pure rfl
  | endOfFile => exact takes_pure rfl
  | fixed f =>
    cases f with
    | star =>
      refine (plain_next_of_kind rfl).then fun _ => ?_
      exact (looks_runFrom start).then fun place => takes_pure rfl
    | rparen => exact takes_pure rfl
    | _ => exact hother
  | _ => exact hother

theorem plain_entryBehindComma? (resume : TagSet) : Plain P ( entryBehindComma? resume) := by
  refine (plain_illegalOperator resume).then fun illegal => ?_
  refine Takes.ite (takes_pure rfl) ?_
  exact takes_eat rfl (plain_entryHere? resume) (takes_pure rfl)

theorem plain_entries (resume : TagSet) : Plain P (entries resume) := by
  refine takes_check ?_ ?_
  · exact (plain_reportHere .missingPlatform trivial).then fun _ => takes_pure rfl
  · refine (plain_entryHere? resume).then fun first? => ?_
    cases first? with
    | none => exact takes_pure rfl
    | some first =>
      exact (plain_collect (plain_entryBehindComma? resume)).then fun others => takes_pure rfl

/-- **A query that is read is asked,** from its keyword on. -/
theorem takes_query (resume : TagSet) :
    Takes (fun i => i.kind.isAvailability = true) (query resume) fun q qs => qs = [q] := by
  intro i hkeyword
  suffices h : ∀ s, s = query resume i → (query resume).Ensures i fun q rs j =>
      s = ⟨q, rs, j⟩ → ∃ as, Course i rs as j ∧ as.map Asked.query = [q] from h _ rfl rfl
  intro s hs
  have hread : ∀ q rs j, s = ⟨q, rs, j⟩ → q.ReadFrom i rs j :=
    fun q rs j heq => ⟨resume, hs.symm.trans heq⟩
  clear hs
  simp only [query, ensures_bind, ensures_position, ensures_kind, ensures_next, ensures_eat,
    ↓reduceIte, Bool.false_eq_true, List.nil_append, ensures_runFrom, ensures_pure,
    List.append_nil]
  refine ⟨fun hopen => ?_, fun _ => ?_⟩
  · refine (plain_entries (P := Input.Any) resume i.next.next trivial).mono fun es rs k hk => ?_
    obtain ⟨as, hinner, hnil⟩ := hk
    obtain rfl := List.map_eq_nil_iff.mp hnil
    refine ⟨fun hclose heq => ?_, fun _ => ?_⟩
    · have hclosed : Course i.next (rs ++ []) [] k.next := by
        refine .read (by rw [hopen]; rfl) (hinner.append (.next ?_))
        rw [hclose]
        rfl
      rw [List.append_nil] at hclosed
      have hcourse := Course.query hkeyword (hread _ _ _ heq) rfl hclosed .nil
      rw [List.append_nil] at hcourse
      exact ⟨_, hcourse, rfl⟩
    · rw [ensures_unclosed]
      intro heq
      have hn := probe_le resume k.rest
      exact ⟨_, .search hkeyword hopen (hread _ _ _ heq) rfl rfl hn hinner .nil, rfl⟩
  · rw [ensures_reportHere]
    intro heq
    have hremark : Course i.next [⟨.missingQueryOpener, Run.token i.next.position⟩] [] i.next :=
      .remark trivial (.inl rfl) .nil
    exact ⟨_, .query hkeyword (hread _ _ _ heq) rfl hremark .nil, rfl⟩

/-! ## 2. Clauses -/

theorem plain_pattern (pos : PatternPosition) : Plain P (pattern pos) := by
  refine looks_position.then fun start => ?_
  refine takes_kind fun k => ?_
  have hother : Plain (fun i => P i ∧ i.kind = k)
      (do reportHere (.missingPattern pos); return Pattern.missing (Run.point start)) :=
    (plain_reportHere (.missingPattern pos) trivial).then fun _ => takes_pure rfl
  cases k with
  | word name => exact (plain_next_of_kind rfl).then fun _ => takes_pure rfl
  | fixed f =>
    cases f with
    | underscore => exact (plain_next_of_kind rfl).then fun _ => takes_pure rfl
    | _ => exact hother
  | _ => exact hother

theorem plain_initializer? : Plain P initializer? := by
  refine takes_eat rfl ?_ (takes_pure rfl)
  exact (plain_expr .full .declared).then fun e => takes_pure rfl

theorem plain_caseValue (quiet : Bool) : Plain P (caseValue quiet) := by
  refine takes_eat rfl (plain_expr .full .declared) ?_
  cases quiet with
  | false => exact looks_errorHere.plain
  | true => exact (plain_reportHere .missingCaseValue trivial).then fun _ => looks_errorHere.plain

/-- **A clause asks at most one query,** the one that it is. -/
theorem takes_clause (owner : Owner) :
    Takes P (clause owner) fun c qs => qs = c.query?.toList := by
  refine looks_position.then fun start => ?_
  refine takes_kind fun k => ?_
  have hquery : k.isAvailability = true → Takes (fun i => P i ∧ i.kind = k)
      (do let q ← query (TagSet.headerEnd owner); return Clause.availability q)
      fun c qs => qs = c.query?.toList := by
    intro hk
    refine ((takes_query _).from_of fun i hi => ?_).bind fun q qs hqs => takes_pure ?_
    · rw [hi.2, hk]
    · rw [hqs]
      rfl
  have hbinding : ∀ mutable, k.isAvailability = false → Takes (fun i => P i ∧ i.kind = k)
      (do
        next
        let p ← pattern (.header owner)
        let init ← initializer?
        return Clause.binding mutable p init (← runFrom start))
      fun c qs => qs = c.query?.toList := by
    intro mutable hk
    refine (plain_next_of_kind hk).then fun _ => ?_
    refine (plain_pattern _).then fun p => ?_
    refine plain_initializer?.then fun init => ?_
    exact (looks_runFrom start).then fun place => takes_pure rfl
  have hother : Takes (fun i => P i ∧ i.kind = k)
      (do let e ← expr .full (.header owner); return Clause.expr e (← runFrom start))
      fun c qs => qs = c.query?.toList := by
    refine (plain_expr .full _).then fun e => ?_
    exact (looks_runFrom start).then fun place => takes_pure rfl
  cases k with
  | fixed f =>
    cases f with
    | available | unavailable => exact hquery rfl
    | letWord => exact hbinding false rfl
    | varWord => exact hbinding true rfl
    | caseWord =>
      refine (plain_next_of_kind rfl).then fun _ => ?_
      refine (plain_expr .ternary .pattern).quietly.then fun p => ?_
      refine (plain_caseValue p.2).then fun init => ?_
      exact (looks_runFrom start).then fun place => takes_pure rfl
    | _ => exact hother
  | _ => exact hother

theorem takes_conditions (owner : Owner) :
    Takes P (conditions owner) fun cs qs => qs = Clause.queries cs := by
  have hmore : Takes Input.Any (clauseBehindComma? owner)
      fun c? qs => qs = c?.elim [] fun c => c.query?.toList := by
    refine takes_eat rfl ?_ (takes_pure rfl)
    refine (takes_clause owner).bind fun c qs hqs => takes_pure ?_
    rw [hqs, List.append_nil]
    rfl
  refine (takes_clause owner).bind fun first qs hqs => ?_
  refine (takes_collect hmore).bind fun others qs' hqs' => takes_pure ?_
  rw [hqs, hqs', List.append_nil, Clause.queries_cons, Clause.queries_eq_flatMap]

/-! ## 3. Leftovers between statements -/

theorem plain_junk (c : Construct) : Plain P (junk c) := by
  refine takes_kind fun k => ?_
  split
  · rename_i hclose
    refine plain_strayCloser c fun i hi => ?_
    rw [hi.2, hclose]
  · exact plain_leftovers c _ true

theorem plain_restOfLine (c : Construct) : Plain P (restOfLine c) := by
  have hround : Plain Input.Any (trailing? c) := by
    have hjunk : Plain Input.Any (do junk c; return some ()) :=
      (plain_junk c).then fun _ => takes_pure rfl
    refine looks_atEnd.then fun ended => ?_
    refine Takes.ite (takes_pure rfl) ?_
    refine looks_atLineStart.then fun line => ?_
    refine Takes.ite (takes_pure rfl) ?_
    refine Takes.ite ?_ hjunk
    exact takes_check (takes_pure rfl) hjunk
  exact (plain_collect hround).then fun _ => takes_pure rfl

theorem plain_headerTail (owner : Owner) (stop : TagSet) : Plain P (headerTail owner stop) := by
  refine looks_atEnd.then fun ended => ?_
  refine Takes.ite (takes_pure rfl) ?_
  refine looks_atLineStart.then fun line => ?_
  exact Takes.ite (takes_pure rfl) (plain_leftovers _ stop true)

/-! ## 4. Statements -/

/-- The queries of the statements among some items. -/
theorem queriesAll_filterMap {ρ : Type} (items : List (Option (Stmt ρ))) :
    Stmt.queriesAll (items.filterMap id) = items.flatMap fun s? => s?.elim [] Stmt.queries := by
  induction items with
  | nil => rfl
  | cons s? items ih =>
    rw [List.flatMap_cons, ← ih]
    cases s? <;> rfl

section Nested

variable {stmt : Parser (Stmt Run)}
variable (h : Takes Input.Any stmt fun s qs => qs = s.queries)

include h

theorem takes_item (c : Construct) :
    Takes P (item stmt c) fun s? qs => qs = s?.elim [] Stmt.queries := by
  refine looks_kind.then fun k => ?_
  refine Takes.ite ?_ ?_
  · refine (h.from_of fun _ _ => trivial).bind fun s qs hqs => ?_
    refine (plain_restOfLine c).bind fun _ qs' hqs' => takes_pure ?_
    rw [hqs, hqs', List.append_nil, List.append_nil]
    rfl
  · refine (plain_junk c).then fun _ => ?_
    exact (plain_restOfLine c).then fun _ => takes_pure rfl

theorem takes_block (hP : ∀ i, P i → i.kind = .fixed .lbrace) :
    Takes P (block stmt) fun b qs => qs = Stmt.queriesOfBody b := by
  have hround : ∀ opener, Takes Input.Any (blockItem? stmt opener)
      fun s?? qs => qs = s??.elim [] fun s? => s?.elim [] Stmt.queries := by
    intro opener
    refine takes_eat rfl (takes_pure rfl) ?_
    refine looks_atEnd.then fun ended => ?_
    refine Takes.ite ?_ ?_
    · exact (plain_unclosed (c := .block) nofun opener).then fun _ => takes_pure rfl
    · refine (takes_item h .block).bind fun s? qs hqs => takes_pure ?_
      rw [hqs, List.append_nil]
      rfl
  refine looks_position.then fun opener => ?_
  refine (plain_next fun i hi => by rw [hP i hi]; rfl).then fun _ => ?_
  refine (takes_collect (hround opener)).bind fun items qs hqs => ?_
  refine (looks_runFrom opener).then fun place => takes_pure ?_
  rw [hqs, List.append_nil, Stmt.queriesOfBody, queriesAll_filterMap]

theorem takes_body (owner : Owner) :
    Takes P (body stmt owner) fun b qs => qs = Stmt.queriesOfBody b := by
  refine (plain_headerTail owner _).then fun _ => ?_
  refine takes_check (takes_block h fun _ hi => hi) ?_
  refine looks_atEnd.then fun ended => ?_
  exact (plain_reportHere (.missingBody owner ended) trivial).then fun _ => takes_pure rfl

theorem takes_alternative :
    Takes P (alternative stmt) fun a qs => qs = Stmt.queriesOfAlternative a := by
  refine takes_check ?_ ?_
  · refine (h.from_of fun _ _ => trivial).bind fun s qs hqs => takes_pure ?_
    rw [hqs, List.append_nil]
    rfl
  · refine (takes_body h .ifStatement).bind fun b qs hqs => takes_pure ?_
    rw [hqs, List.append_nil]
    rfl

theorem takes_ifStatement (hP : ∀ i, P i → i.kind = .fixed .ifWord) :
    Takes P (ifStatement stmt) fun s qs => qs = s.queries := by
  refine looks_position.then fun start => ?_
  refine (plain_next fun i hi => by rw [hP i hi]; rfl).then fun _ => ?_
  refine (takes_conditions .ifStatement).bind fun cs qs hqs => ?_
  refine (takes_body h .ifStatement).bind fun b qs' hqs' => ?_
  refine takes_eat rfl ?_ ?_
  · refine (takes_alternative h).bind fun a qs'' hqs'' => ?_
    refine (looks_runFrom start).then fun place => takes_pure ?_
    rw [hqs, hqs', hqs'', List.append_nil]
    rfl
  · refine (looks_runFrom start).then fun place => takes_pure ?_
    rw [hqs, hqs']
    rfl

theorem takes_guardBody :
    Takes P (guardBody stmt) fun b qs => qs = Stmt.queriesOfBody b := by
  refine takes_eat rfl (takes_body h .guardStatement) ?_
  refine (plain_reportHere .missingElse trivial).then fun _ => ?_
  exact takes_check (takes_block h fun _ hi => hi) (takes_pure rfl)

theorem takes_guardStatement (hP : ∀ i, P i → i.kind = .fixed .guardWord) :
    Takes P (guardStatement stmt) fun s qs => qs = s.queries := by
  refine looks_position.then fun start => ?_
  refine (plain_next fun i hi => by rw [hP i hi]; rfl).then fun _ => ?_
  refine (takes_conditions .guardStatement).bind fun cs qs hqs => ?_
  refine (plain_headerTail _ _).bind fun _ qs' hqs' => ?_
  refine (takes_guardBody h).bind fun b qs'' hqs'' => ?_
  refine (looks_runFrom start).then fun place => takes_pure ?_
  rw [hqs, hqs', hqs'', List.append_nil, List.nil_append]
  rfl

theorem takes_whileStatement (hP : ∀ i, P i → i.kind = .fixed .whileWord) :
    Takes P (whileStatement stmt) fun s qs => qs = s.queries := by
  refine looks_position.then fun start => ?_
  refine (plain_next fun i hi => by rw [hP i hi]; rfl).then fun _ => ?_
  refine (takes_conditions .whileStatement).bind fun cs qs hqs => ?_
  refine (takes_body h .whileStatement).bind fun b qs' hqs' => ?_
  refine (looks_runFrom start).then fun place => takes_pure ?_
  rw [hqs, hqs', List.append_nil]
  rfl

end Nested

theorem takes_declaration (mutable : Bool)
    (hP : ∀ i, P i → i.kind.isAvailability = false) :
    Takes P (declaration mutable) fun s qs => qs = s.queries := by
  refine looks_position.then fun start => ?_
  refine (plain_next hP).then fun _ => ?_
  refine (plain_pattern _).then fun p => ?_
  refine plain_initializer?.then fun init => ?_
  exact (looks_runFrom start).then fun place => takes_pure rfl

theorem takes_returnStatement (hP : ∀ i, P i → i.kind = .fixed .returnWord) :
    Takes P returnStatement fun s qs => qs = s.queries := by
  have hvalue : Plain Input.Any returnValue? := by
    refine looks_atEnd.then fun ended => ?_
    refine Takes.ite (takes_pure rfl) ?_
    refine looks_atLineStart.then fun line => ?_
    refine Takes.ite (takes_pure rfl) ?_
    refine takes_check (takes_pure rfl) ?_
    exact (plain_expr .full .returned).then fun e => takes_pure rfl
  refine looks_position.then fun start => ?_
  refine (plain_next fun i hi => by rw [hP i hi]; rfl).then fun _ => ?_
  refine hvalue.then fun e => ?_
  exact (looks_runFrom start).then fun place => takes_pure rfl

theorem takes_expressionStatement : Takes P expressionStatement fun s qs => qs = s.queries := by
  refine looks_position.then fun start => ?_
  refine (plain_expr .full .statement).then fun e => ?_
  exact (looks_runFrom start).then fun place => takes_pure rfl

theorem takes_statement {stmt : Parser (Stmt Run)}
    (h : Takes Input.Any stmt fun s qs => qs = s.queries) :
    Takes P (statement stmt) fun s qs => qs = s.queries := by
  refine takes_kind fun k => ?_
  cases k with
  | fixed f =>
    cases f with
    | ifWord => exact takes_ifStatement h fun _ hi => hi.2
    | guardWord => exact takes_guardStatement h fun _ hi => hi.2
    | whileWord => exact takes_whileStatement h fun _ hi => hi.2
    | letWord => exact takes_declaration false fun _ hi => by rw [hi.2]; rfl
    | varWord => exact takes_declaration true fun _ hi => by rw [hi.2]; rfl
    | returnWord => exact takes_returnStatement fun _ hi => hi.2
    | _ => exact takes_expressionStatement
  | _ => exact takes_expressionStatement

theorem takes_stmtWithin (n : Nat) :
    Takes Input.Any (stmtWithin n) fun s qs => qs = s.queries := by
  induction n with
  | zero => exact takes_expressionStatement
  | succ n ih => exact takes_statement ih

theorem takes_stmt : Takes P stmt fun s qs => qs = s.queries :=
  fun i _ => Ensures.of_eq (takes_stmtWithin (i.rest.length + 1) i trivial) rfl

/-- **The course of a source asks the queries of its statements,** in their order. -/
theorem takes_topLevel : Takes P topLevel fun ss qs => qs = Stmt.queriesAll ss := by
  have hround : Takes Input.Any topLevelItem?
      fun s?? qs => qs = s??.elim [] fun s? => s?.elim [] Stmt.queries := by
    refine looks_atEnd.then fun ended => ?_
    refine Takes.ite (takes_pure rfl) ?_
    refine (takes_item takes_stmt .topLevel).bind fun s? qs hqs => takes_pure ?_
    rw [hqs, List.append_nil]
    rfl
  refine (takes_collect hround).bind fun items qs hqs => takes_pure ?_
  rw [hqs, List.append_nil, queriesAll_filterMap]

end Parser

end PlatformGate
