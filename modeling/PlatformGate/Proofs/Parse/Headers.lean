/-
# Reading a header moves forward

The same for queries and clauses as for expressions: each is read forward, and its place runs from
its first terminal to where reading stopped.  A clause may take nothing at all, so there is no
`Starts` here; what keeps a list of clauses going is the comma in front of each.

In front of every entry an operator is looked for that no query may hold.  What the test does is said
once (`ensures_unlessIllegal`), and what is known about entries later on is proved from there.
-/
import PlatformGate.Proofs.Parse.Values

namespace PlatformGate

/-- What it means to read a clause from `i` up to `j`. -/
structure ReadsClause (i : Input) (c : Clause Run) (rs : List (Report Run)) (j : Input) : Prop where
  moves : Moves Cause.Inner i rs j
  spans : c.Spans i.position j.position

/-- What it means to read the entries of a query. -/
structure ReadsEntries (i : Input) (es : List (Entry Run)) (rs : List (Report Run)) (j : Input) :
    Prop where
  moves : Moves Cause.Inner i rs j
  inside : ∀ e ∈ es, e.place.Within i.position j.position

namespace Parser

variable {i : Input}

/-! ## 1. Versions -/

theorem component?_moves (i : Input) :
    component?.Ensures i fun _ rs j => Moves Cause.Inner i rs j := by
  simp only [component?, ensures_bind, ensures_eat, ↓reduceIte, Bool.false_eq_true,
    List.nil_append]
  refine ⟨fun _ => ?_, fun _ => .refl i⟩
  simp only [ensures_kind, List.nil_append]
  refine (?_ : Ensures _ _ fun _ rs j => Moves Cause.Inner i.next rs j).mono
    fun _ _ _ h => .after_ahead i.ahead_next h
  split
  · simp only [ensures_bind, ensures_next, ensures_pure, List.nil_append]
    exact .next _
  · rename_i hk
    simp only [ensures_bind, ensures_pure, List.append_nil]
    exact (invalidToken_moves (C := Cause.Inner) trivial hk).mono fun _ _ _ h => h.1
  · simp only [ensures_bind, ensures_reportHere, ensures_pure, List.append_nil]
    exact .here trivial trivial

theorem version?_moves (i : Input) :
    version?.Ensures i fun _ rs j => Moves Cause.Inner i rs j := by
  simp only [version?, ensures_bind, ensures_kind, List.nil_append]
  split
  · simp only [ensures_bind, ensures_next, List.nil_append]
    refine (component?_moves i.next).mono fun minor? rs j hminor => ?_
    have hmoves := Moves.after_ahead i.ahead_next hminor
    split
    · simpa only [ensures_pure, List.append_nil] using hmoves
    · simp only [ensures_bind]
      refine (component?_moves j).mono fun patch? rs' k hpatch => ?_
      have hmoves' := hmoves.trans hpatch
      split <;> simpa only [ensures_pure, List.append_nil] using hmoves'
  · rename_i hk
    simp only [ensures_bind, ensures_pure, List.append_nil]
    exact (invalidToken_moves (C := Cause.Inner) trivial hk).mono fun _ _ _ h => h.1
  · exact .refl i

/-! ## 2. Entries -/

section Operators

variable {resume : TagSet}

/-- **The test for an operator that no query may hold.**  Such an operator is left over, and with it
what stands behind it.  In front of anything else nothing happens. -/
theorem ensures_illegalOperator {Q : Bool → List (Report Run) → Input → Prop} :
    (illegalOperator resume).Ensures i Q ↔
      (TagSet.illegalInQuery.contains i.kind = true →
        (leftovers .availability (resume.insert (.fixed .rparen)) false).Ensures i
          fun _ rs j => Q true rs j) ∧
      (TagSet.illegalInQuery.contains i.kind = false → Q false [] i) := by
  simp only [illegalOperator, ensures_bind, ensures_kind, List.nil_append]
  cases TagSet.illegalInQuery.contains i.kind with
  | true =>
    simp only [↓reduceIte, ensures_bind, ensures_pure, List.append_nil, forall_const]
    exact ⟨fun h => ⟨h, nofun⟩, fun h => h.1⟩
  | false => exact ⟨fun h => ⟨nofun, fun _ => h⟩, fun h => h.2 rfl⟩

/-- **Where such an operator comes no entry is read.**  Elsewhere the test can be left out. -/
theorem ensures_unlessIllegal {α : Type} {p : Parser (Option α)}
    {Q : Option α → List (Report Run) → Input → Prop} :
    (illegalOperator resume >>= fun illegal => if illegal then pure none else p).Ensures i Q ↔
      (TagSet.illegalInQuery.contains i.kind = true →
        (leftovers .availability (resume.insert (.fixed .rparen)) false).Ensures i
          fun _ rs j => Q none rs j) ∧
      (TagSet.illegalInQuery.contains i.kind = false → p.Ensures i Q) := by
  simp only [ensures_bind, ensures_illegalOperator, ↓reduceIte, Bool.false_eq_true, ensures_pure,
    List.append_nil, List.nil_append]

theorem ensures_unlessIllegal_of_legal {α : Type} {p : Parser (Option α)}
    {Q : Option α → List (Report Run) → Input → Prop}
    (h : TagSet.illegalInQuery.contains i.kind = false) :
    (illegalOperator resume >>= fun illegal => if illegal then pure none else p).Ensures i Q ↔
      p.Ensures i Q := by
  rw [ensures_unlessIllegal]
  exact ⟨fun hp => hp.2 h, fun hp => ⟨fun hillegal => absurd (h.symm.trans hillegal) nofun,
    fun _ => hp⟩⟩

end Operators

theorem entryHere?_reads (resume : TagSet) (i : Input) :
    (entryHere? resume).Ensures i fun e? rs j => Moves Cause.Inner i rs j ∧
      ∀ e ∈ e?, e.place.Within i.position j.position := by
  have hversion : ∀ l : Input, i.Ahead l → version?.Ensures l fun _ rs j =>
      Moves Cause.Inner i rs j ∧ (⟨i.position, j.position⟩ : Run).Within i.position j.position :=
    fun l hil => (version?_moves l).mono fun _ rs j h =>
      have hmoves := Moves.after_ahead hil h
      ⟨hmoves, Run.within_self hmoves.ahead.position_le⟩
  rw [entryHere?, ensures_unlessIllegal]
  refine ⟨fun _ => ?_, fun _ => ?_⟩
  · exact (leftovers_moves (C := Cause.Inner) (c := .availability) trivial _ false i).mono
      fun _ _ _ h => ⟨h, nofun⟩
  simp only [ensures_bind, ensures_position, ensures_kind, List.nil_append]
  split
  · simp only [ensures_bind, ensures_next, ensures_runFrom, ensures_pure, List.append_nil,
      Option.mem_some_iff, forall_eq']
    exact ⟨.next i, Run.within_self i.ahead_next.position_le⟩
  · simp only [ensures_bind, ensures_next, ensures_runFrom, ensures_pure, List.nil_append,
      List.append_nil, Option.mem_some_iff, forall_eq']
    exact hversion i.next i.ahead_next
  · simp only [ensures_bind, ensures_reportHere, ensures_runFrom, ensures_pure, List.append_nil,
      Option.mem_some_iff, forall_eq']
    exact (hversion i (.refl i)).mono fun _ rs j h => ⟨.trans (.here trivial trivial) h.1, h.2⟩
  · exact ⟨.refl i, nofun⟩
  · exact ⟨.refl i, nofun⟩
  · split
    · exact ⟨.refl i, nofun⟩
    · simp only [ensures_bind, ensures_reportHere, ensures_pure, List.append_nil]
      exact ⟨.here trivial trivial, nofun⟩

theorem entryBehindComma?_reads (resume : TagSet) (i : Input) :
    (entryBehindComma? resume).Ensures i fun e? rs j => Moves Cause.Inner i rs j ∧
      ∀ e ∈ e?, e.place.Within i.position j.position ∧ i.position < j.position := by
  rw [entryBehindComma?, ensures_unlessIllegal]
  refine ⟨fun _ => ?_, fun _ => ?_⟩
  · exact (leftovers_moves (C := Cause.Inner) (c := .availability) trivial _ false i).mono
      fun _ _ _ h => ⟨h, nofun⟩
  simp only [ensures_bind, ensures_eat, ↓reduceIte, Bool.false_eq_true, List.nil_append]
  refine ⟨fun hcomma => ?_, fun _ => ⟨.refl i, nofun⟩⟩
  have hp := Input.position_next (Input.rest_ne_nil hcomma)
  refine (entryHere?_reads resume i.next).mono fun e? rs j h => ?_
  have hle := h.1.ahead.position_le
  refine ⟨.after_ahead i.ahead_next h.1, fun e he => ⟨?_, by omega⟩⟩
  exact (h.2 e he).mono (by omega) (Nat.le_refl _)

theorem entryBehindComma?_advances (resume : TagSet) (m : Nat) :
    AdvancesUpTo m (entryBehindComma? resume) := by
  intro i _
  refine (entryBehindComma?_reads resume i).mono fun e? rs j h hsome => ?_
  cases e? with
  | none => exact absurd hsome (by simp)
  | some e => exact h.1.ahead.length_lt (h.2 e rfl).2

theorem entries_reads (resume : TagSet) (i : Input) :
    (entries resume).Ensures i (ReadsEntries i) := by
  have hloop : ∀ j, (collect (entryBehindComma? resume)).Ensures j (ReadsEntries j) := by
    refine ensures_collect fun j => (entryBehindComma?_reads resume j).mono fun e? rs k h => ?_
    cases e? with
    | none => exact ⟨h.1, nofun⟩
    | some e =>
      obtain ⟨hwithin, hlt⟩ := h.2 e rfl
      refine ⟨h.1.ahead.length_lt hlt, fun es rs' l hes => ⟨h.1.trans hes.moves, ?_⟩⟩
      have hkl := hes.moves.ahead.position_le
      intro e' he'
      rcases List.mem_cons.mp he' with rfl | he'
      · exact hwithin.mono (Nat.le_refl _) hkl
      · exact (hes.inside e' he').mono (by omega) (Nat.le_refl _)
  simp only [entries, ensures_bind, ensures_check, ↓reduceIte, Bool.false_eq_true,
    List.nil_append, ensures_reportHere, ensures_pure, List.append_nil]
  refine ⟨fun _ => ⟨.here trivial trivial, nofun⟩, fun _ => ?_⟩
  refine (entryHere?_reads resume i).mono fun e? rs j h => ?_
  cases e? with
  | none =>
    simp only [ensures_pure, List.append_nil]
    exact ⟨h.1, nofun⟩
  | some e =>
    simp only [ensures_bind, ensures_pure, List.append_nil]
    refine (hloop j).mono fun es rs' k hes => ⟨h.1.trans hes.moves, ?_⟩
    have hjk := hes.moves.ahead.position_le
    have hij := h.1.ahead.position_le
    intro e' he'
    rcases List.mem_cons.mp he' with rfl | he'
    · exact (h.2 _ rfl).mono (Nat.le_refl _) hjk
    · exact (hes.inside e' he').mono hij (Nat.le_refl _)

/-- **A query is read forward** and stands over all that was read for it. -/
theorem query_reads (resume : TagSet) (i : Input) :
    (query resume).Ensures i fun q rs j => Moves Cause.Inner i rs j ∧
      q.place = ⟨i.position, j.position⟩ ∧
      q.Everywhere (Run.Within i.position j.position) := by
  simp only [query, ensures_bind, ensures_position, ensures_kind, ensures_next, ensures_eat,
    ↓reduceIte, Bool.false_eq_true, List.nil_append, ensures_runFrom, ensures_pure,
    List.append_nil]
  have hi := i.ahead_next.position_le
  refine ⟨fun hopen => ?_, fun _ => ?_⟩
  · have hp := Input.position_next (Input.rest_ne_nil hopen)
    refine (entries_reads resume i.next.next).mono fun es rs j hes => ?_
    have hle := hes.moves.ahead.position_le
    have hmoves := Moves.after_ahead (i.ahead_next.trans i.next.ahead_next) hes.moves
    -- the entries stand in front of whatever ends the query
    have hquery : ∀ {k : Input}, j.Ahead k →
        (⟨i.position, k.position⟩ : Run).Within i.position k.position ∧
          ∀ e ∈ es, e.place.Within i.position k.position := by
      intro k hk
      have hjk := hk.position_le
      exact ⟨Run.within_self (by omega), fun e he => (hes.inside e he).mono (by omega) hjk⟩
    refine ⟨fun _ => ⟨hmoves.then_ahead j.ahead_next, trivial, hquery j.ahead_next⟩, fun _ => ?_⟩
    refine (unclosed_moves (C := Cause.Inner) trivial resume (by omega)).mono fun _ rs' k hk => ?_
    exact ⟨hmoves.trans hk, trivial, hquery hk.ahead⟩
  · simp only [ensures_reportHere]
    exact ⟨.after_ahead i.ahead_next (.here trivial trivial), trivial, Run.within_self hi, nofun⟩

/-! ## 3. Clauses -/

theorem pattern_reads (pos : PatternPosition) (i : Input) :
    (pattern pos).Ensures i fun b rs j => Moves Cause.Inner i rs j ∧
      b.place.Within i.position j.position := by
  simp only [pattern, ensures_bind, ensures_position, ensures_kind, List.nil_append]
  have hone : ∀ k, i.kind = k → k ≠ .endOfFile →
      (Run.token i.position).Within i.position i.next.position := by
    intro k hk hne
    rw [Input.position_next (Input.rest_ne_nil_of_kind (hk ▸ hne))]
    exact Run.within_self (Nat.le_succ _)
  split
  · rename_i hk
    exact ⟨.next i, hone _ hk nofun⟩
  · rename_i name hk
    exact ⟨.next i, hone _ hk nofun⟩
  · simp only [ensures_bind, ensures_reportHere, ensures_pure, List.append_nil]
    exact ⟨.here trivial trivial, Run.within_self (Nat.le_refl _)⟩

theorem initializer?_reads (i : Input) :
    initializer?.Ensures i fun e? rs j => Moves Cause.Inner i rs j ∧
      ∀ e ∈ e?, e.Everywhere (Run.Within i.position j.position) := by
  simp only [initializer?, ensures_bind, ensures_eat, ↓reduceIte, Bool.false_eq_true,
    List.nil_append, ensures_pure, List.append_nil]
  refine ⟨fun _ => ?_, fun _ => ⟨.refl i, nofun⟩⟩
  refine (expr_reads .full .declared i.next).mono fun e rs j h => ?_
  refine ⟨.after_ahead i.ahead_next h.1.moves, ?_⟩
  rintro _ ⟨⟩
  exact h.1.spans.inside.widen i.ahead_next.position_le (Nat.le_refl _)

theorem caseValue_reads (quiet : Bool) (i : Input) :
    (caseValue quiet).Ensures i fun e rs j => Moves Cause.Inner i rs j ∧
      e.Everywhere (Run.Within i.position j.position) := by
  simp only [caseValue, ensures_bind, ensures_eat, ↓reduceIte, Bool.false_eq_true,
    List.nil_append]
  refine ⟨fun _ => ?_, fun _ => ?_⟩
  · refine (expr_reads .full .declared i.next).mono fun e rs j h => ?_
    exact ⟨.after_ahead i.ahead_next h.1.moves,
      h.1.spans.inside.widen i.ahead_next.position_le (Nat.le_refl _)⟩
  · split
    · simp only [ensures_bind, ensures_reportHere]
      refine (errorHere_reads i).mono fun e rs j h => ?_
      exact ⟨.trans (.here trivial trivial) h.moves, h.spans.inside⟩
    · exact (errorHere_reads i).mono fun e rs j h => ⟨h.moves, h.spans.inside⟩

/-- A binding behind its keyword. -/
theorem binding_reads (mutable : Bool) (owner : Owner) (i : Input) :
    (do let p ← pattern (.header owner)
        let init ← initializer?
        return .binding mutable p init (← runFrom i.position) : Parser (Clause Run)).Ensures i.next
      (ReadsClause i) := by
  simp only [ensures_bind, ensures_runFrom, ensures_pure, List.append_nil]
  have hi := i.ahead_next.position_le
  refine (pattern_reads _ i.next).mono fun b rs j hb => ?_
  refine (initializer?_reads j).mono fun init rs' k hinit => ?_
  have hij := hb.1.ahead.position_le
  have hjk := hinit.1.ahead.position_le
  refine ⟨.after_ahead i.ahead_next (hb.1.trans hinit.1), rfl, hb.2.mono hi hjk, ?_,
    Run.within_self (by omega)⟩
  exact fun e he => (hinit.2 e he).widen (by omega) (Nat.le_refl _)

/-- **A clause is read forward,** whatever its first terminal makes of it. -/
theorem clause_reads (owner : Owner) (i : Input) :
    (clause owner).Ensures i (ReadsClause i) := by
  simp only [clause, ensures_bind, ensures_position, ensures_kind, List.nil_append]
  have hi := i.ahead_next.position_le
  split
  · rw [ensures_bind]
    refine (query_reads _ i).mono fun q rs j h => ?_
    simp only [ensures_pure, List.append_nil]
    exact ⟨h.1, h.2.1, h.2.2⟩
  · rw [ensures_bind]
    refine (query_reads _ i).mono fun q rs j h => ?_
    simp only [ensures_pure, List.append_nil]
    exact ⟨h.1, h.2.1, h.2.2⟩
  · rw [ensures_bind, ensures_next]
    exact binding_reads false owner i
  · rw [ensures_bind, ensures_next]
    exact binding_reads true owner i
  · simp only [ensures_bind, ensures_next, ensures_quietly, ensures_runFrom, ensures_pure,
      List.nil_append, List.append_nil]
    refine (expr_reads .ternary .pattern i.next).mono fun e rs j he => ?_
    refine (caseValue_reads rs.isEmpty j).mono fun init rs' k hinit => ?_
    have hij := he.1.spans.le
    have hjk := hinit.1.ahead.position_le
    exact ⟨.after_ahead i.ahead_next (he.1.moves.trans hinit.1), rfl,
      he.1.spans.inside.widen hi hjk, hinit.2.widen (by omega) (Nat.le_refl _),
      Run.within_self (by omega)⟩
  · simp only [ensures_bind, ensures_runFrom, ensures_pure, List.append_nil]
    refine (expr_reads .full _ i).mono fun e rs j he => ?_
    exact ⟨he.1.moves, rfl, he.1.spans.inside, Run.within_self he.1.spans.le⟩

theorem clauseBehindComma?_advances (owner : Owner) (m : Nat) :
    AdvancesUpTo m (clauseBehindComma? owner) := by
  intro i _
  simp only [clauseBehindComma?, ensures_bind, ensures_eat, ↓reduceIte, Bool.false_eq_true,
    ensures_pure]
  refine ⟨fun hcomma => ?_, fun _ hsome => absurd hsome (by simp)⟩
  have hlt := Input.position_lt_next (Input.rest_ne_nil hcomma)
  refine (clause_reads owner i.next).mono fun c rs j hc _ => ?_
  have hle := hc.moves.ahead.position_le
  exact (i.ahead_next.trans hc.moves.ahead).length_lt (by omega)

theorem conditions_reads (owner : Owner) (i : Input) :
    (conditions owner).Ensures i fun cs rs j => Moves Cause.Inner i rs j ∧
      ∀ c ∈ cs, c.Everywhere (Run.Within i.position j.position) := by
  have hloop : ∀ j, (collect (clauseBehindComma? owner)).Ensures j fun cs rs k =>
      Moves Cause.Inner j rs k ∧ ∀ c ∈ cs, c.Everywhere (Run.Within j.position k.position) := by
    refine ensures_collect fun j => ?_
    simp only [clauseBehindComma?, ensures_bind, ensures_eat, ↓reduceIte, Bool.false_eq_true,
      List.nil_append, ensures_pure, List.append_nil]
    refine ⟨fun hcomma => ?_, fun _ => ⟨.refl j, nofun⟩⟩
    have hp := Input.position_next (Input.rest_ne_nil hcomma)
    refine (clause_reads owner j.next).mono fun c rs k hc => ?_
    have hjk := hc.moves.ahead.position_le
    have hmoves := Moves.after_ahead j.ahead_next hc.moves
    refine ⟨hmoves.ahead.length_lt (by omega), fun cs rs' l hcs => ⟨hmoves.trans hcs.1, ?_⟩⟩
    have hkl := hcs.1.ahead.position_le
    intro c' hc'
    rcases List.mem_cons.mp hc' with rfl | hc'
    · exact hc.spans.inside.widen (by omega) hkl
    · exact (hcs.2 c' hc').widen (by omega) (Nat.le_refl _)
  simp only [conditions, ensures_bind, ensures_pure, List.append_nil]
  refine (clause_reads owner i).mono fun c rs j hc => ?_
  refine (hloop j).mono fun cs rs' k hcs => ⟨hc.moves.trans hcs.1, ?_⟩
  have hij := hc.moves.ahead.position_le
  have hjk := hcs.1.ahead.position_le
  intro c' hc'
  rcases List.mem_cons.mp hc' with rfl | hc'
  · exact hc.spans.inside.widen (Nat.le_refl _) hjk
  · exact (hcs.2 c' hc').widen hij (Nat.le_refl _)

end Parser

end PlatformGate
