/-
# Headers read in silence are read as they are written

Queries, their entries and the clauses of a header.  A comma behind the last entry of a query is
taken and leaves nothing in the tree; the loop over the entries reads it in its last round.
-/
import PlatformGate.Proofs.Grammar.SoundHeaders
import PlatformGate.Proofs.Printing.Values

namespace PlatformGate

open Mark

namespace Parser

variable {i : Input}

/-! ## 1. Queries -/

/-- No comma stands behind the last entry. -/
theorem writes_noComma (i : Input) : Writes true [.lastComma] i [] i :=
  fun _ => ⟨rfl, [], rfl, .inl rfl⟩

/-- A comma stands behind the last entry. -/
theorem Writes.lastComma {rs : List (Report Run)} {j : Input} (h : Writes true [] i.next rs j)
    (hcomma : i.kind = .fixed .comma) : Writes true [.lastComma] i rs j := by
  intro hrs
  obtain ⟨-, us, hus, hms⟩ := h.fixed hcomma hrs
  exact ⟨rfl, us, hus, .inr hms⟩

theorem component?_writes (i : Input) :
    component?.Ensures i
      (WritesItem (fun _ => true) (fun n => [fixed .dot, .one (.number n)]) [] i) := by
  simp only [component?, ensures_bind, ensures_eat, ↓reduceIte, Bool.false_eq_true,
    List.nil_append]
  refine ⟨fun hdot => ?_, fun _ => Writes.nothing i⟩
  simp only [ensures_kind, List.nil_append]
  split
  · rename_i v hk
    simp only [ensures_bind, ensures_next, ensures_pure]
    exact (Writes.kind hk rfl).fixed hdot
  · simp only [ensures_bind, ensures_invalidToken, ensures_pure]
    exact Writes.of_ne (List.cons_ne_nil _ _)
  · simp only [ensures_bind, ensures_reportHere, ensures_pure]
    exact Writes.of_ne (List.cons_ne_nil _ _)

theorem version?_writes (i : Input) :
    version?.Ensures i fun v? rs j => Writes true ((v?.map Version.marks).getD []) i rs j := by
  simp only [version?, ensures_bind, ensures_kind, List.nil_append]
  split
  · rename_i major hk
    have hmajor := Writes.kind hk rfl
    simp only [ensures_bind, ensures_next, List.nil_append]
    refine (component?_writes i.next).mono fun minor? rs j hminor => ?_
    split
    · simp only [ensures_pure, List.append_nil]
      exact hmajor.append hminor
    · simp only [ensures_bind]
      refine (component?_writes j).mono fun patch? rs' k hpatch => ?_
      split
      · simp only [ensures_pure, List.append_nil]
        exact hmajor.append (Writes.append hminor hpatch)
      · simp only [ensures_pure, List.append_nil]
        exact hmajor.append (Writes.append hminor hpatch)
  · simp only [ensures_bind, ensures_invalidToken, ensures_pure]
    exact Writes.of_ne (List.cons_ne_nil _ _)
  · exact Writes.nothing i

theorem entryHere?_writes (owner : Owner) (i : Input) :
    (entryHere? (TagSet.headerEnd owner)).Ensures i
      (WritesItem Entry.isWellFormed Entry.marks [] i) := by
  rw [entryHere?, ensures_unlessIllegal]
  refine ⟨fun hillegal => (leftovers_illegal owner hillegal).mono fun _ _ _ => Writes.of_ne,
    fun _ => ?_⟩
  simp only [ensures_bind, ensures_position, ensures_kind, List.nil_append]
  split
  · rename_i hstar
    exact (Writes.nothing i).before_fixed hstar
  · rename_i name hword
    simp only [ensures_bind, ensures_next, ensures_runFrom, ensures_pure, List.nil_append,
      List.append_nil]
    exact (version?_writes i.next).mono fun v? rs j hversion =>
      (Writes.kind hword rfl).append hversion
  · simp only [ensures_bind, ensures_reportHere, ensures_runFrom, ensures_pure, List.append_nil]
    exact (version?_writes i).mono fun v? rs j _ => Writes.of_ne (List.cons_ne_nil _ _)
  · exact Writes.nothing i
  · exact Writes.nothing i
  · split
    · exact Writes.nothing i
    · exact Writes.of_ne (List.cons_ne_nil _ _)

theorem entryBehindComma?_writes (owner : Owner) (i : Input) :
    (entryBehindComma? (TagSet.headerEnd owner)).Ensures i
      (WritesItem Entry.isWellFormed (fun e => fixed .comma :: e.marks) [.lastComma] i) := by
  rw [entryBehindComma?, ensures_unlessIllegal]
  refine ⟨fun hillegal => (leftovers_illegal owner hillegal).mono fun _ _ _ => Writes.of_ne,
    fun _ => ?_⟩
  simp only [ensures_bind, ensures_eat, ↓reduceIte, Bool.false_eq_true, List.nil_append]
  refine ⟨fun hcomma => ?_, fun _ => writes_noComma i⟩
  refine (entryHere?_writes owner i.next).mono fun e? rs j hentry => ?_
  cases e? with
  | none => exact Writes.lastComma hentry hcomma
  | some e => exact Writes.fixed hentry hcomma

theorem entries_writes (owner : Owner) (i : Input) :
    (entries (TagSet.headerEnd owner)).Ensures i fun es rs j =>
      Writes (es.all Entry.isWellFormed)
        (separated .comma (es.map Entry.marks) ++ [.lastComma]) i rs j := by
  have hloop := collect_writes (entryBehindComma?_writes owner) fun e _ => ⟨_, _, rfl⟩
  simp only [entries, ensures_bind, ensures_check, ↓reduceIte, Bool.false_eq_true,
    List.nil_append, ensures_reportHere, ensures_pure, List.append_nil]
  refine ⟨fun _ => Writes.of_ne (List.cons_ne_nil _ _), fun _ => ?_⟩
  refine (entryHere?_writes owner i).mono fun e? rs j hentry => ?_
  cases e? with
  | none => exact Writes.append hentry (writes_noComma j)
  | some e =>
    simp only [ensures_bind, ensures_pure, List.append_nil]
    refine (hloop j).mono fun es rs' k hes => ?_
    rw [List.all_cons, separated_map_cons, List.append_assoc]
    exact Writes.append hentry hes

/-- **Queries are written back**, both parentheses included. -/
theorem query_writes (owner : Owner)
    (hk : i.kind = .fixed .available ∨ i.kind = .fixed .unavailable) :
    (query (TagSet.headerEnd owner)).Ensures i fun q rs j => Writes q.isWhole q.marks i rs j := by
  have hword : i.kind =
      .fixed (if i.kind == .fixed .unavailable then Fixed.unavailable else .available) := by
    rcases hk with hk | hk <;> rw [hk] <;> rfl
  simp only [query, ensures_bind, ensures_position, ensures_kind, ensures_next, ensures_eat,
    ↓reduceIte, Bool.false_eq_true, List.nil_append, ensures_runFrom, ensures_pure,
    List.append_nil]
  refine ⟨fun hopen => ?_, fun _ => ?_⟩
  · refine (entries_writes owner i.next.next).mono fun es rs j hes => ?_
    refine ⟨fun hclose => ?_, fun _ => ?_⟩
    · have hlist := hes.before_fixed hclose
      rw [List.append_assoc] at hlist
      exact (hlist.fixed hopen).fixed hword
    · exact (unclosed_reports _ _ _ j).mono fun _ rs' _ h => Writes.of_ne (by simp [h])
  · simp only [ensures_reportHere]
    exact Writes.of_ne (List.cons_ne_nil _ _)

/-! ## 2. Clauses -/

theorem pattern_writes (pos : PatternPosition) (i : Input) :
    (pattern pos).Ensures i fun b rs j => Writes b.isComplete b.marks i rs j := by
  simp only [pattern, ensures_bind, ensures_position, ensures_kind, List.nil_append]
  split
  case h_1 hk | h_2 hk =>
    simp only [ensures_bind, ensures_next, ensures_pure]
    exact Writes.kind hk rfl
  case h_3 =>
    simp only [ensures_bind, ensures_reportHere, ensures_pure]
    exact Writes.of_ne (List.cons_ne_nil _ _)

theorem initializer?_writes (i : Input) :
    initializer?.Ensures i fun init rs j =>
      Writes (init.all Expr.isComplete) (initMarks init) i rs j := by
  simp only [initializer?, ensures_bind, ensures_eat, ↓reduceIte, Bool.false_eq_true,
    List.nil_append, ensures_pure, List.append_nil]
  refine ⟨fun heq => ?_, fun _ => Writes.nothing i⟩
  exact (expr_writes .full .declared i.next).mono fun e rs j he => Writes.fixed he heq

/-- A binding, whatever its place is called. -/
theorem binding_writes (pos : PatternPosition) (mutable : Bool)
    (hword : i.kind = .fixed (if mutable then .varWord else .letWord)) :
    (pattern pos).Ensures i.next fun b rs j => initializer?.Ensures j fun init rs' k =>
      Writes (b.isComplete && init.all Expr.isComplete) (bindingMarks mutable b init) i (rs ++ rs')
        k := by
  refine (pattern_writes pos i.next).mono fun b rs j hb => ?_
  refine (initializer?_writes j).mono fun init rs' k hinit => ?_
  exact (hb.append hinit).fixed hword

/-- Behind a pattern that was silent, the `=` and the value are written back. -/
theorem caseValue_writes (quiet : Bool) (i : Input) :
    (caseValue quiet).Ensures i fun v rs j =>
      quiet = true → Writes v.isComplete (fixed .eq :: v.marks) i rs j := by
  simp only [caseValue, ensures_bind, ensures_eat, ↓reduceIte, Bool.false_eq_true,
    List.nil_append]
  refine ⟨fun heq => ?_, fun _ => ?_⟩
  · exact (expr_writes .full .declared i.next).mono fun v rs j hv _ => Writes.fixed hv heq
  · split
    · simp only [ensures_bind, ensures_reportHere]
      exact fun _ => Writes.of_ne (by simp)
    · rename_i hquiet
      exact fun h => absurd h hquiet

theorem clause_writes (owner : Owner) (i : Input) :
    (clause owner).Ensures i fun c rs j => Writes c.isComplete c.marks i rs j := by
  simp only [clause, ensures_bind, ensures_position, ensures_kind, List.nil_append]
  split
  case h_1 hk =>
    simp only [ensures_bind, ensures_pure, List.append_nil]
    exact query_writes owner (.inl hk)
  case h_2 hk =>
    simp only [ensures_bind, ensures_pure, List.append_nil]
    exact query_writes owner (.inr hk)
  case h_3 hk =>
    simp only [ensures_bind, ensures_next, ensures_runFrom, ensures_pure, List.nil_append,
      List.append_nil]
    exact binding_writes (.header owner) false hk
  case h_4 hk =>
    simp only [ensures_bind, ensures_next, ensures_runFrom, ensures_pure, List.nil_append,
      List.append_nil]
    exact binding_writes (.header owner) true hk
  case h_5 hk =>
    simp only [ensures_bind, ensures_next, ensures_quietly, ensures_runFrom, ensures_pure,
      List.nil_append, List.append_nil]
    refine (expr_writes .ternary .pattern i.next).mono fun e rs j he => ?_
    refine (caseValue_writes _ j).mono fun v rs' k hv => ?_
    by_cases hrs : rs = []
    · exact (Writes.append he (hv (List.isEmpty_iff.mpr hrs))).fixed hk
    · exact Writes.of_ne fun h => hrs (List.append_eq_nil_iff.mp h).1
  case h_6 =>
    simp only [ensures_bind, ensures_runFrom, ensures_pure, List.append_nil]
    exact expr_writes .full _ i

theorem clauseBehindComma?_writes (owner : Owner) (i : Input) :
    (clauseBehindComma? owner).Ensures i
      (WritesItem Clause.isComplete (fun c => fixed .comma :: c.marks) [] i) := by
  simp only [clauseBehindComma?, ensures_bind, ensures_eat, ↓reduceIte, Bool.false_eq_true,
    List.nil_append, ensures_pure, List.append_nil]
  refine ⟨fun hcomma => ?_, fun _ => Writes.nothing i⟩
  exact (clause_writes owner i.next).mono fun c rs j hc => hc.fixed hcomma

/-- **Headers are written back.** -/
theorem conditions_writes (owner : Owner) (i : Input) :
    (conditions owner).Ensures i fun cs rs j =>
      Writes (cs.all Clause.isComplete) (Stmt.headerMarks cs) i rs j := by
  have hloop := collect_writes (clauseBehindComma?_writes owner) fun c _ => ⟨_, _, rfl⟩
  simp only [conditions, ensures_bind, ensures_pure, List.append_nil]
  refine (clause_writes owner i).mono fun c rs j hc => ?_
  refine (hloop j).mono fun cs rs' k hcs => ?_
  rw [List.all_cons, Stmt.headerMarks, separated_map_cons]
  rw [List.append_nil] at hcs
  exact hc.append hcs

end Parser

end PlatformGate
