/-
# Brackets of queries, headers and statements

A query blames its parenthesis, if there is one and it is not closed.  The items of a block are read
behind its brace, and where the source ends in front of the closing brace the opening one is blamed.
So in a source brackets nest, and its constructs are those of its statements
(`Parser.nests_topLevel`).
-/
import PlatformGate.Proofs.Brackets.Values
import PlatformGate.Proofs.Query.Contract

namespace PlatformGate

namespace Parser

variable {P : Input → Prop}

/-! ## 1. Headers -/

/-- **A query blames its parenthesis or nothing.** -/
theorem nests_query (owner : Owner) :
    Nests (fun i => i.kind.isAvailability = true) (query (TagSet.headerEnd owner)) fun q bs =>
      bs = [(.availability, q.place)] := by
  intro i hkeyword
  have hne := Input.rest_ne_nil_of_isAvailability hkeyword
  have hplace : ∀ n, Construct.StandsAt i.next.position ⟨i.position, n⟩ .availability :=
    fun n => Input.position_next hne
  simp only [query, ensures_bind, ensures_position, ensures_kind, ensures_next, ensures_eat,
    ↓reduceIte, Bool.false_eq_true, List.nil_append, ensures_runFrom, ensures_pure,
    List.append_nil]
  refine ⟨fun hopen => ?_, fun _ => ?_⟩
  · have hopens : Construct.Opens i .availability i.next := .query hkeyword hopen
    refine ((entries_reads _ i.next.next).and (entries_items owner i.next.next)).mono
      fun es rs k hes => ?_
    obtain ⟨hread, hitems⟩ := hes
    have hinner : Nest i.next.next [] rs k :=
      .quiet hread.moves.ahead fun r hr => (hitems.quiet hr).2.2
    refine ⟨fun _ => ?_, fun _ => ?_⟩
    · have hclosed : Nest i.next.next ([] ++ []) (rs ++ []) k.next :=
        hinner.append (.quiet k.ahead_next (List.forall_mem_nil _))
      rw [List.append_nil, List.append_nil] at hclosed
      exact ⟨_, Construct.Ends.nest (.closed hclosed) hopens (hplace _), rfl⟩
    · rw [ensures_unclosed]
      have hends : Construct.Ends .availability i.next.position i.next.next [] _ _ :=
        .leftOpen hinner (probe_le (TagSet.headerEnd owner) k.rest) (by simp)
      exact ⟨_, hends.nest hopens (hplace _), rfl⟩
  · rw [ensures_reportHere]
    exact ⟨_, .quiet i.ahead_next (List.forall_mem_singleton.mpr rfl), rfl⟩

theorem nests_initializer? :
    Nests P initializer? fun e? bs => bs = e?.elim [] Expr.brackets := by
  refine nests_eat ?_ (nests_pure rfl)
  refine (nests_expr .full .declared).bind fun e bs hbs => nests_pure ?_
  rw [hbs, List.append_nil]
  rfl

theorem nests_caseValue (quiet : Bool) :
    Nests P (caseValue quiet) fun e bs => bs = e.brackets := by
  refine nests_eat (nests_expr .full .declared) ?_
  cases quiet with
  | false => exact nests_errorHere
  | true => exact (quiet_report rfl).then fun _ => nests_errorHere

theorem nests_clause (owner : Owner) :
    Nests P (clause owner) fun c bs => bs = c.brackets := by
  refine looks_position.nests fun start => ?_
  refine nests_kind fun k => ?_
  have hquery : k.isAvailability = true → Nests (fun i => P i ∧ i.kind = k)
      (do let q ← query (TagSet.headerEnd owner); return Clause.availability q)
      fun c bs => bs = c.brackets := by
    intro hk
    refine ((nests_query owner).from_of fun i hi => ?_).bind fun q bs hbs => nests_pure ?_
    · rw [hi.2, hk]
    · rw [hbs]
      rfl
  have hbinding : ∀ mutable, Nests (fun i => P i ∧ i.kind = k)
      (do
        next
        let p ← pattern (.header owner)
        let init ← initializer?
        return Clause.binding mutable p init (← runFrom start))
      fun c bs => bs = c.brackets := by
    intro mutable
    refine quiet_next.then fun _ => ?_
    refine (quiet_pattern _).then fun p => ?_
    refine nests_initializer?.bind fun init bs hbs => ?_
    refine (looks_runFrom start).nests fun place => nests_pure ?_
    rw [hbs, List.append_nil]
    rfl
  have hother : Nests (fun i => P i ∧ i.kind = k)
      (do let e ← expr .full (.header owner); return Clause.expr e (← runFrom start))
      fun c bs => bs = c.brackets := by
    refine (nests_expr .full _).bind fun e bs hbs => ?_
    refine (looks_runFrom start).nests fun place => nests_pure ?_
    rw [hbs, List.append_nil]
    rfl
  cases k with
  | fixed f =>
    cases f with
    | available | unavailable => exact hquery rfl
    | letWord => exact hbinding false
    | varWord => exact hbinding true
    | caseWord =>
      refine quiet_next.then fun _ => ?_
      refine (nests_expr .ternary .pattern).quietly.bind fun p bs hbs => ?_
      refine (nests_caseValue p.2).bind fun init bs' hbs' => ?_
      refine (looks_runFrom start).nests fun place => nests_pure ?_
      rw [hbs, hbs', List.append_nil]
      rfl
    | _ => exact hother
  | _ => exact hother

theorem nests_conditions (owner : Owner) :
    Nests P (conditions owner) fun cs bs => bs = cs.flatMap Clause.brackets := by
  have hmore : Nests Input.Any (clauseBehindComma? owner)
      fun c? bs => bs = c?.elim [] Clause.brackets := by
    refine nests_eat ?_ (nests_pure rfl)
    refine (nests_clause owner).bind fun c bs hbs => nests_pure ?_
    rw [hbs, List.append_nil]
    rfl
  refine (nests_clause owner).bind fun first bs hbs => ?_
  refine (nests_collect hmore).bind fun others bs' hbs' => nests_pure ?_
  rw [hbs, hbs', List.append_nil, List.flatMap_cons]

/-! ## 2. Statements -/

section Nested

variable {stmt : Parser (Stmt Run)}
variable (h : Nests Input.Any stmt fun s bs => bs = s.brackets)

include h

theorem nests_item (c : Construct) :
    Nests P (item stmt c) fun s? bs => bs = s?.elim [] Stmt.brackets := by
  refine looks_kind.nests fun k => ?_
  refine Nests.ite ?_ ?_
  · refine h.anywhere.bind fun s bs hbs => ?_
    refine (quiet_restOfLine c).then fun _ => nests_pure ?_
    rw [hbs, List.append_nil]
    rfl
  · refine (quiet_junk c).then fun _ => ?_
    exact (quiet_restOfLine c).then fun _ => nests_pure rfl

/-- **The items behind a brace,** up to where it is closed or the source ends. -/
theorem blockItems_end (n : Nat) (i : Input) :
    (collect (blockItem? stmt n)).Ensures i fun items rs j =>
      Construct.Ends .block n i (items.flatMap fun s? => s?.elim [] Stmt.brackets) rs j := by
  have hwithin : ∀ (m : Nat) (i : Input), (collectWithin (blockItem? stmt n) m).Ensures i
      fun items rs j =>
        Construct.Ends .block n i (items.flatMap fun s? => s?.elim [] Stmt.brackets) rs j := by
    intro m
    induction m with
    | zero => exact fun i => .closed (.quiet (.refl i) (List.forall_mem_nil _))
    | succ m ih =>
      intro i
      rw [collectWithin_succ, round, ensures_bind]
      simp only [blockItem?, ensures_bind, ensures_eat, ensures_atEnd, ↓reduceIte,
        Bool.false_eq_true, List.nil_append, ensures_pure, List.append_nil]
      refine ⟨fun _ => .closed (.quiet i.ahead_next (List.forall_mem_nil _)), fun _ => ⟨fun hend => ?_, fun _ => ?_⟩⟩
      · rw [ensures_unclosed]
        have hnothing : Nest i [] [] i := .quiet (.refl i) (List.forall_mem_nil _)
        exact .leftOpen hnothing (probe_le _ _) fun _ => hend
      · refine (nests_item h (P := Input.Any) .block i trivial).mono fun s? rs j hs => ?_
        refine (ih j).mono fun items rs' k hitems => ?_
        obtain ⟨_, hs, rfl⟩ := hs
        rw [List.flatMap_cons]
        exact .after hs hitems
  exact hwithin _ i

theorem nests_block :
    Nests (fun i => i.kind = .fixed .lbrace) (block stmt) fun b bs =>
      bs = Stmt.bracketsOfBody b := by
  intro i hopen
  simp only [block, ensures_bind, ensures_position, ensures_next, ensures_runFrom, ensures_pure,
    List.nil_append, List.append_nil]
  refine (blockItems_end h i.position i.next).mono fun items rs j hitems => ?_
  refine ⟨_, hitems.nest (p := ⟨i.position, j.position⟩) (.bracket (by simp) hopen) rfl, ?_⟩
  rw [Stmt.bracketsOfBody, Stmt.bracketsAll_filterMap]

theorem nests_body (owner : Owner) :
    Nests P (body stmt owner) fun b bs => bs = Stmt.bracketsOfBody b := by
  refine (quiet_headerTail owner _).then fun _ => ?_
  refine nests_check ((nests_block h).from_of fun i hi => hi.2) ?_
  refine looks_atEnd.nests fun ended => ?_
  exact (quiet_report rfl).then fun _ => nests_pure rfl

theorem nests_alternative :
    Nests P (alternative stmt) fun a bs => bs = Stmt.bracketsOfAlternative a := by
  refine nests_check ?_ ?_
  · refine h.anywhere.bind fun s bs hbs => nests_pure ?_
    rw [hbs, List.append_nil]
    rfl
  · refine (nests_body h .ifStatement).bind fun b bs hbs => nests_pure ?_
    rw [hbs, List.append_nil]
    rfl

theorem nests_ifStatement : Nests P (ifStatement stmt) fun s bs => bs = s.brackets := by
  refine looks_position.nests fun start => ?_
  refine quiet_next.then fun _ => ?_
  refine (nests_conditions .ifStatement).bind fun cs bs hbs => ?_
  refine (nests_body h .ifStatement).bind fun b bs₁ hbs₁ => ?_
  refine nests_eat ?_ ?_
  · refine (nests_alternative h).bind fun a bs₂ hbs₂ => ?_
    refine (looks_runFrom start).nests fun place => nests_pure ?_
    rw [hbs, hbs₁, hbs₂, List.append_nil]
    rfl
  · refine (looks_runFrom start).nests fun place => nests_pure ?_
    rw [hbs, hbs₁]
    rfl

theorem nests_guardBody : Nests P (guardBody stmt) fun b bs => bs = Stmt.bracketsOfBody b := by
  refine nests_eat (nests_body h .guardStatement) ?_
  refine (quiet_report rfl).then fun _ => ?_
  exact nests_check ((nests_block h).from_of fun i hi => hi.2) (nests_pure rfl)

theorem nests_guardStatement : Nests P (guardStatement stmt) fun s bs => bs = s.brackets := by
  refine looks_position.nests fun start => ?_
  refine quiet_next.then fun _ => ?_
  refine (nests_conditions .guardStatement).bind fun cs bs hbs => ?_
  refine (quiet_headerTail _ _).then fun _ => ?_
  refine (nests_guardBody h).bind fun b bs' hbs' => ?_
  refine (looks_runFrom start).nests fun place => nests_pure ?_
  rw [hbs, hbs', List.append_nil]
  rfl

theorem nests_whileStatement : Nests P (whileStatement stmt) fun s bs => bs = s.brackets := by
  refine looks_position.nests fun start => ?_
  refine quiet_next.then fun _ => ?_
  refine (nests_conditions .whileStatement).bind fun cs bs hbs => ?_
  refine (nests_body h .whileStatement).bind fun b bs' hbs' => ?_
  refine (looks_runFrom start).nests fun place => nests_pure ?_
  rw [hbs, hbs', List.append_nil]
  rfl

end Nested

theorem nests_declaration (mutable : Bool) :
    Nests P (declaration mutable) fun s bs => bs = s.brackets := by
  refine looks_position.nests fun start => ?_
  refine quiet_next.then fun _ => ?_
  refine (quiet_pattern _).then fun p => ?_
  refine nests_initializer?.bind fun init bs hbs => ?_
  refine (looks_runFrom start).nests fun place => nests_pure ?_
  rw [hbs, List.append_nil]
  rfl

theorem nests_returnStatement : Nests P returnStatement fun s bs => bs = s.brackets := by
  have hvalue : Nests Input.Any returnValue? fun e? bs => bs = e?.elim [] Expr.brackets := by
    refine looks_atEnd.nests fun ended => ?_
    refine Nests.ite (nests_pure rfl) ?_
    refine looks_atLineStart.nests fun line => ?_
    refine Nests.ite (nests_pure rfl) ?_
    refine nests_check (nests_pure rfl) ?_
    refine (nests_expr .full .returned).bind fun e bs hbs => nests_pure ?_
    rw [hbs, List.append_nil]
    rfl
  refine looks_position.nests fun start => ?_
  refine quiet_next.then fun _ => ?_
  refine hvalue.bind fun e bs hbs => ?_
  refine (looks_runFrom start).nests fun place => nests_pure ?_
  rw [hbs, List.append_nil]
  rfl

theorem nests_expressionStatement : Nests P expressionStatement fun s bs => bs = s.brackets := by
  refine looks_position.nests fun start => ?_
  refine (nests_expr .full .statement).bind fun e bs hbs => ?_
  refine (looks_runFrom start).nests fun place => nests_pure ?_
  rw [hbs, List.append_nil]
  rfl

theorem nests_statement {stmt : Parser (Stmt Run)}
    (h : Nests Input.Any stmt fun s bs => bs = s.brackets) :
    Nests P (statement stmt) fun s bs => bs = s.brackets := by
  refine looks_kind.nests fun k => ?_
  cases k with
  | fixed f =>
    cases f with
    | ifWord => exact nests_ifStatement h
    | guardWord => exact nests_guardStatement h
    | whileWord => exact nests_whileStatement h
    | letWord => exact nests_declaration false
    | varWord => exact nests_declaration true
    | returnWord => exact nests_returnStatement
    | _ => exact nests_expressionStatement
  | _ => exact nests_expressionStatement

theorem nests_stmtWithin (n : Nat) :
    Nests Input.Any (stmtWithin n) fun s bs => bs = s.brackets := by
  induction n with
  | zero => exact nests_expressionStatement
  | succ n ih => exact nests_statement ih

theorem nests_stmt : Nests P stmt fun s bs => bs = s.brackets :=
  fun i _ => Ensures.of_eq (nests_stmtWithin (i.rest.length + 1) i trivial) rfl

/-- **Brackets of a source nest,** and its constructs are those of its statements. -/
theorem nests_topLevel : Nests P topLevel fun ss bs => bs = Stmt.bracketsAll ss := by
  have hround : Nests Input.Any topLevelItem?
      fun s?? bs => bs = s??.elim [] fun s? => s?.elim [] Stmt.brackets := by
    refine looks_atEnd.nests fun ended => ?_
    refine Nests.ite (nests_pure rfl) ?_
    refine (nests_item nests_stmt .topLevel).bind fun s? bs hbs => nests_pure ?_
    rw [hbs, List.append_nil]
    rfl
  refine (nests_collect hround).bind fun items bs hbs => nests_pure ?_
  rw [hbs, List.append_nil, Stmt.bracketsAll_filterMap]

end Parser

end PlatformGate
