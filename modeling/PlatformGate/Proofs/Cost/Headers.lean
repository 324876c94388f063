/-
# A header pays for itself

A clause can be missing like a value: where none begins, an expression is read that is not there.
So its credit is a report, a placeholder and the clause itself, and the comma in front of a clause
pays for all of it.  A query takes its keyword and is never missing.  Inside a query whatever is
reported stands at a terminal that was taken, except for the entry in front of `)` or of the end.
-/
import PlatformGate.Proofs.Cost.Values

namespace PlatformGate.Parser

variable (t : Tariff) {i : Input}

/-! ## 1. Queries -/

theorem component?_pays (i : Input) :
    component?.Ensures i fun _ rs j => Pays t 0 0 i rs j := by
  simp only [component?, ensures_bind, ensures_eat, ↓reduceIte, Bool.false_eq_true,
    List.nil_append]
  refine ⟨fun hdot => ?_, fun _ => .refl i⟩
  -- the dot pays for a report about what is not a number
  have hshare : t.report ≤ t.token := by
    unfold Tariff.token
    omega
  simp only [ensures_kind, List.nil_append]
  refine (?_ : Ensures _ _ fun _ rs j => Pays t t.report 0 i.next rs j).mono
    fun _ rs j h => (h.next (Input.rest_ne_nil hdot)).mono (by omega)
  split
  · simp only [ensures_bind, ensures_next, ensures_pure, List.nil_append]
    exact (Pays.refl _).then_next.mono (by omega)
  · rename_i hk
    simp only [ensures_bind, ensures_pure, List.append_nil]
    exact (invalidToken_pays t hk).mono fun _ _ _ h => h.mono (by omega)
  · simp only [ensures_bind, ensures_reportHere, ensures_pure, List.append_nil]
    exact .report _ _

theorem version?_pays (i : Input) :
    version?.Ensures i fun _ rs j => Pays t 0 0 i rs j := by
  simp only [version?, ensures_bind, ensures_kind, List.nil_append]
  split
  · rename_i hk
    have hne := Input.rest_ne_nil_of_kind (i := i) (by simp [hk])
    simp only [ensures_bind, ensures_next, List.nil_append]
    refine (component?_pays t i.next).mono fun minor? rs j hminor => ?_
    have hpays : Pays t 0 0 i rs j := (hminor.next hne).mono (by omega)
    split
    · simpa only [ensures_pure, List.append_nil] using hpays
    · simp only [ensures_bind]
      refine (component?_pays t j).mono fun patch? rs' k hpatch => ?_
      have hpays' := hpays.trans hpatch
      split <;> simpa only [ensures_pure, List.append_nil] using hpays'
  · rename_i hk
    simp only [ensures_bind, ensures_pure, List.append_nil]
    refine (invalidToken_pays t hk).mono fun _ _ _ h => h.mono ?_
    unfold Tariff.token
    omega
  · exact .refl i

/-- An entry without a platform is a report that no terminal pays for. -/
theorem entryHere?_pays (resume : TagSet) (i : Input) :
    (entryHere? resume).Ensures i fun _ rs j => Pays t t.report 0 i rs j := by
  rw [entryHere?, ensures_unlessIllegal]
  refine ⟨fun _ => ?_, fun _ => ?_⟩
  · exact (leftovers_pays t .availability _ false i).mono fun _ _ _ h => h.mono (by omega)
  have hquiet : Pays t t.report 0 i [] i := (Pays.refl i).mono (by omega)
  simp only [ensures_bind, ensures_position, ensures_kind, List.nil_append]
  split
  · simp only [ensures_bind, ensures_next, ensures_runFrom, ensures_pure, List.append_nil]
    exact hquiet.then_next
  · simp only [ensures_bind, ensures_next, ensures_runFrom, ensures_pure, List.nil_append,
      List.append_nil]
    refine (version?_pays t i.next).mono fun _ rs j h => ?_
    simpa only [List.nil_append] using (hquiet.then_next.trans h).mono (by omega)
  · simp only [ensures_bind, ensures_reportHere, ensures_runFrom, ensures_pure, List.append_nil]
    refine (version?_pays t i).mono fun _ rs j h => ?_
    exact ((Pays.report _ i).trans h).mono (by omega)
  · exact hquiet
  · exact hquiet
  · split
    · exact hquiet
    · simp only [ensures_bind, ensures_reportHere, ensures_pure, List.append_nil]
      exact Pays.report _ i

theorem entryBehindComma?_pays (resume : TagSet) (i : Input) :
    (entryBehindComma? resume).Ensures i fun _ rs j => Pays t 0 0 i rs j := by
  rw [entryBehindComma?, ensures_unlessIllegal]
  refine ⟨fun _ => leftovers_pays t .availability _ false i, fun _ => ?_⟩
  simp only [ensures_bind, ensures_eat, ↓reduceIte, Bool.false_eq_true, List.nil_append]
  refine ⟨fun hcomma => ?_, fun _ => .refl i⟩
  refine (entryHere?_pays t resume i.next).mono fun e? rs j h => ?_
  refine (h.next (Input.rest_ne_nil hcomma)).mono ?_
  unfold Tariff.token
  omega

theorem entries_pays (resume : TagSet) (i : Input) :
    (entries resume).Ensures i fun _ rs j => Pays t t.report 0 i rs j := by
  have hloop : ∀ j, (collect (entryBehindComma? resume)).Ensures j fun _ rs k =>
      Pays t 0 0 j rs k := by
    refine ensures_collect fun j => ?_
    have hadv := entryBehindComma?_advances resume _ j (Nat.le_refl _)
    refine (hadv.and (entryBehindComma?_pays t resume j)).mono fun e? rs k h => ?_
    cases e? with
    | none => exact h.2
    | some e => exact ⟨h.1 rfl, fun es rs' l hes => h.2.trans hes⟩
  simp only [entries, ensures_bind, ensures_check, ↓reduceIte, Bool.false_eq_true,
    List.nil_append, ensures_reportHere, ensures_pure, List.append_nil]
  refine ⟨fun _ => .report _ i, fun _ => ?_⟩
  refine (entryHere?_pays t resume i).mono fun e? rs j h => ?_
  cases e? with
  | none => simpa only [ensures_pure, List.append_nil] using h
  | some e =>
    simp only [ensures_bind, ensures_pure, List.append_nil]
    exact (hloop j).mono fun es rs' k hes => h.trans hes

/-- **The keyword of a query pays** for a query without entries that is not closed, and for the
clause that it is. -/
theorem query_pays (resume : TagSet) (h : i.kind.isAvailability = true) :
    (query resume).Ensures i fun _ rs j => Pays t 0 t.clause i rs j := by
  have hne := Input.rest_ne_nil_of_isAvailability h
  have hshare : 2 * t.report + t.clause ≤ t.token := by
    unfold Tariff.token
    omega
  simp only [query, ensures_bind, ensures_position, ensures_kind, ensures_next, ensures_eat,
    ↓reduceIte, Bool.false_eq_true, List.nil_append, ensures_runFrom, ensures_pure,
    List.append_nil]
  refine ⟨fun hopen => ?_, fun _ => ?_⟩
  · refine (entries_pays t resume i.next.next).mono fun es rs j hes => ?_
    have hentries : Pays t t.report 0 i.next rs j :=
      (hes.next (Input.rest_ne_nil hopen)).mono (by omega)
    refine ⟨fun _ => (hentries.next hne).then_next.mono (by omega), fun _ => ?_⟩
    refine (unclosed_pays t _ _ resume j).mono fun _ rs' k hk => ?_
    exact ((hentries.trans hk).next hne).mono (by omega)
  · simp only [ensures_reportHere]
    exact ((Pays.report _ i.next).next hne).mono (by omega)

/-! ## 2. Clauses -/

theorem pattern_pays (pos : PatternPosition) (i : Input) :
    (pattern pos).Ensures i fun _ rs j => Pays t t.report 0 i rs j := by
  have hnext : Pays t t.report 0 i [] i.next := (Pays.refl i).then_next.mono (by omega)
  simp only [pattern, ensures_bind, ensures_position, ensures_kind, List.nil_append]
  split
  · exact hnext
  · exact hnext
  · simp only [ensures_bind, ensures_reportHere, ensures_pure, List.append_nil]
    exact .report _ i

/-- The `=` pays for the value behind it. -/
theorem initializer?_pays (i : Input) :
    initializer?.Ensures i fun e? rs j => Pays t 0 (Expr.costOption t e?) i rs j := by
  simp only [initializer?, ensures_bind, ensures_eat, ↓reduceIte, Bool.false_eq_true,
    List.nil_append, ensures_pure, List.append_nil]
  refine ⟨fun heq => ?_, fun _ => .refl i⟩
  refine (expr_pays t .full .declared i.next).mono fun e rs j he => ?_
  refine (he.value.next (Input.rest_ne_nil heq)).mono ?_
  simp only [Expr.costOption, Tariff.token]
  omega

theorem caseValue_pays (quiet : Bool) (i : Input) :
    (caseValue quiet).Ensures i (PaysValue t i) := by
  simp only [caseValue, ensures_bind, ensures_eat, ↓reduceIte, Bool.false_eq_true,
    List.nil_append]
  refine ⟨fun heq => ?_, fun _ => placeholder_pays t quiet .missingCaseValue i⟩
  have hne := Input.rest_ne_nil heq
  exact (expr_pays t .full .declared i.next).mono fun e rs j he =>
    (he.value.next hne).mono (by omega)

/-- A binding behind its keyword. -/
theorem binding_pays (mutable : Bool) (owner : Owner) (hne : i.rest ≠ []) :
    (do let p ← pattern (.header owner)
        let init ← initializer?
        return .binding mutable p init (← runFrom i.position) : Parser (Clause Run)).Ensures i.next
      fun c rs j => Pays t 0 (c.cost t) i rs j := by
  simp only [ensures_bind, ensures_runFrom, ensures_pure, List.append_nil]
  refine (pattern_pays t _ i.next).mono fun b rs j hb => ?_
  refine (initializer?_pays t j).mono fun init rs' k hinit => ?_
  refine ((hb.trans hinit).next hne).mono ?_
  simp only [Clause.cost, Tariff.token]
  omega

/-- **A clause pays for itself,** but for the price of one that is missing. -/
theorem clause_pays (owner : Owner) (i : Input) :
    (clause owner).Ensures i fun c rs j =>
      Pays t (t.report + t.expr + t.clause) (c.cost t) i rs j := by
  simp only [clause, ensures_bind, ensures_position, ensures_kind, List.nil_append]
  split
  · rename_i hk
    rw [ensures_bind]
    refine (query_pays t _ (by rw [hk]; rfl)).mono fun q rs j h => ?_
    simp only [ensures_pure, List.append_nil]
    exact h.mono (by simp only [Clause.cost]; omega)
  · rename_i hk
    rw [ensures_bind]
    refine (query_pays t _ (by rw [hk]; rfl)).mono fun q rs j h => ?_
    simp only [ensures_pure, List.append_nil]
    exact h.mono (by simp only [Clause.cost]; omega)
  · rename_i hk
    rw [ensures_bind, ensures_next]
    exact (binding_pays t false owner (Input.rest_ne_nil hk)).mono fun c rs j h => h.mono (by omega)
  · rename_i hk
    rw [ensures_bind, ensures_next]
    exact (binding_pays t true owner (Input.rest_ne_nil hk)).mono fun c rs j h => h.mono (by omega)
  · rename_i hk
    simp only [ensures_bind, ensures_next, ensures_quietly, ensures_runFrom, ensures_pure,
      List.nil_append, List.append_nil]
    refine (expr_pays t .ternary .pattern i.next).mono fun e rs j he => ?_
    refine (caseValue_pays t rs.isEmpty j).mono fun init rs' k hinit => ?_
    refine ((he.value.trans hinit).next (Input.rest_ne_nil hk)).mono ?_
    simp only [Clause.cost, Tariff.token]
    omega
  · simp only [ensures_bind, ensures_runFrom, ensures_pure, List.append_nil]
    refine (expr_pays t .full _ i).mono fun e rs j he => he.value.mono ?_
    simp only [Clause.cost]
    omega

theorem conditions_pays (owner : Owner) (i : Input) :
    (conditions owner).Ensures i fun cs rs j =>
      Pays t (t.report + t.expr + t.clause) (Clause.costAll t cs) i rs j := by
  have hloop : ∀ j, (collect (clauseBehindComma? owner)).Ensures j fun cs rs k =>
      Pays t 0 (Clause.costAll t cs) j rs k := by
    refine ensures_collect fun j => ?_
    simp only [clauseBehindComma?, ensures_bind, ensures_eat, ↓reduceIte, Bool.false_eq_true,
      List.nil_append, ensures_pure, List.append_nil]
    refine ⟨fun hcomma => ?_, fun _ => .refl j⟩
    have hne := Input.rest_ne_nil hcomma
    refine (clause_pays t owner j.next).mono fun c rs k hc => ?_
    refine ⟨hc.length_lt hne, fun cs rs' l hcs => ((hc.next hne).trans hcs).mono ?_⟩
    simp only [Clause.costAll, Tariff.token]
    omega
  simp only [conditions, ensures_bind, ensures_pure, List.append_nil]
  refine (clause_pays t owner i).mono fun c rs j hc => ?_
  refine (hloop j).mono fun cs rs' k hcs => (hc.trans hcs).mono ?_
  simp only [Clause.costAll]
  omega

end PlatformGate.Parser
