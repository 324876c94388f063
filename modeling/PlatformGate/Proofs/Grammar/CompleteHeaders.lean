/-
# Derived headers are read in silence

The converse for queries and clauses.  What comes behind a clause is a comma, `{` or `else`, none of
which goes on with it; behind an entry it is a comma or a parenthesis, and the last comma of a query
may have no entry behind it.
-/
import PlatformGate.Proofs.Grammar.CompleteValues
import PlatformGate.Proofs.Grammar.SoundHeaders

namespace PlatformGate

open Grammar

namespace Parser

variable {i : Input} {us : List Terminal}

/-! ## 1. Queries -/

theorem component?_complete (hdot : headKind i.rest = .fixed .dot)
    (hnumber : isNumber (headKind i.rest.tail) = true) :
    component?.Ensures i fun c? rs j => c?.isSome ∧ rs = [] ∧ j.rest = i.rest.tail.tail := by
  simp only [component?, ensures_bind, ensures_eat, ↓reduceIte, Bool.false_eq_true,
    List.nil_append]
  refine ⟨fun _ => ?_, fun hne => absurd hdot hne⟩
  rw [← Input.rest_next, Input.headKind_rest] at hnumber
  simp only [ensures_kind, List.nil_append]
  cases hk : i.next.kind with
  | number v => exact ⟨rfl, rfl, by rw [← Input.rest_next, ← Input.rest_next]; rfl⟩
  | _ => rw [hk] at hnumber; exact absurd hnumber Bool.false_ne_true

theorem component?_none (hdot : headKind i.rest ≠ .fixed .dot) :
    component?.Ensures i fun c? rs j => c? = none ∧ rs = [] ∧ j = i := by
  simp only [component?, ensures_bind, ensures_eat, ↓reduceIte, Bool.false_eq_true,
    List.nil_append]
  exact ⟨fun h => absurd h hdot, fun _ => ⟨rfl, rfl, rfl⟩⟩

theorem version?_complete (h : Derives (.ref .version) i.rest us)
    (hus : headKind us ≠ .fixed .dot) : Accepts version? i us := by
  obtain ⟨hnumber, htail⟩ := derives_version.mp h
  simp only [Accepts, version?, ensures_bind, ensures_kind, List.nil_append]
  rw [Input.headKind_rest] at hnumber
  cases hk : i.kind with
  | number v =>
    simp only [ensures_bind, ensures_next, List.nil_append]
    rcases htail with rfl | ⟨hdot, hminor, htail⟩
    · rw [← Input.rest_next] at hus ⊢
      refine (component?_none hus).mono fun c? rs j h => ?_
      obtain ⟨rfl, rfl, rfl⟩ := h
      exact ⟨rfl, rfl⟩
    rw [← Input.rest_next] at hdot hminor htail
    refine (component?_complete hdot hminor).mono fun c? rs j h => ?_
    obtain ⟨hsome, rfl, hj⟩ := h
    obtain ⟨minor, rfl⟩ := Option.isSome_iff_exists.mp hsome
    simp only [ensures_bind, List.nil_append]
    rw [← hj] at htail
    rcases htail with rfl | ⟨hdot', hpatch, rfl⟩
    · refine (component?_none hus).mono fun c? rs k h => ?_
      obtain ⟨rfl, rfl, rfl⟩ := h
      exact ⟨rfl, rfl⟩
    · refine (component?_complete hdot' hpatch).mono fun c? rs k h => ?_
      obtain ⟨hsome, rfl, hk⟩ := h
      obtain ⟨patch, rfl⟩ := Option.isSome_iff_exists.mp hsome
      exact ⟨rfl, hk⟩
  | _ => rw [hk] at hnumber; exact absurd hnumber Bool.false_ne_true

theorem version?_none (h : headKind i.rest = .fixed .comma ∨ headKind i.rest = .fixed .rparen) :
    Accepts version? i i.rest := by
  simp only [Accepts, version?, ensures_bind, ensures_kind, List.nil_append]
  rcases h with hk | hk
  · rw [Input.headKind_rest] at hk
    rw [hk]
    exact ⟨rfl, rfl⟩
  · rw [Input.headKind_rest] at hk
    rw [hk]
    exact ⟨rfl, rfl⟩

/-- An entry is followed to the comma or the parenthesis behind it. -/
theorem entryHere?_complete (resume : TagSet) (h : Derives (.ref .entry) i.rest us)
    (hus : headKind us = .fixed .comma ∨ headKind us = .fixed .rparen) :
    (entryHere? resume).Ensures i fun e? rs j => e?.isSome ∧ rs = [] ∧ j.rest = us := by
  have hdot : headKind us ≠ .fixed .dot := by
    intro hdot
    rw [hdot] at hus
    rcases hus with hus | hus <;> exact absurd hus (by decide)
  rcases derives_entry.mp h with ⟨hstar, rfl⟩ | ⟨hword, htail⟩
  · rw [Input.headKind_rest] at hstar
    rw [entryHere?, ensures_unlessIllegal_of_legal (hstar ▸ rfl)]
    simp only [ensures_bind, ensures_position, ensures_kind, List.nil_append, hstar]
    exact ⟨rfl, rfl, i.rest_next⟩
  · rw [Input.headKind_rest] at hword
    cases hk : i.kind with
    | word name =>
      rw [entryHere?, ensures_unlessIllegal_of_legal (hk ▸ rfl)]
      simp only [ensures_bind, ensures_position, ensures_kind, hk, ensures_next, ensures_runFrom,
        ensures_pure, List.nil_append, List.append_nil]
      rw [← Input.rest_next] at htail
      rcases htail with rfl | hversion
      · exact (version?_none hus).mono fun _ _ _ h => ⟨rfl, h⟩
      · exact (version?_complete hversion hdot).mono fun _ _ _ h => ⟨rfl, h⟩
    | _ => rw [hk] at hword; exact absurd hword Bool.false_ne_true

/-- What follows the entries of a query: perhaps a comma, and the closing parenthesis. -/
def EndsEntries (ns os : List Terminal) : Prop :=
  Derives (.opt (.token .comma)) ns os ∧ headKind os = .fixed .rparen

theorem EndsEntries.head {ns os : List Terminal} (h : EndsEntries ns os) :
    headKind ns = .fixed .comma ∨ headKind ns = .fixed .rparen := by
  obtain ⟨hcomma, hclose⟩ := h
  rcases derives_opt.mp hcomma with rfl | hcomma
  · exact .inr hclose
  · exact .inl (derives_token.mp hcomma).1

/-- The commas and entries behind the first entry. -/
theorem collect_entries_complete (resume : TagSet) {ns os : List Terminal}
    (h : Derives (.many (.seq [.token .comma, .ref .entry])) i.rest ns)
    (hns : EndsEntries ns os) : Accepts (collect (entryBehindComma? resume)) i os := by
  refine collect_complete_to (F := fun ns => EndsEntries ns os) (Q := fun _ j => j.rest = os)
    (entryBehindComma?_advances resume _) (fun k ms ns _ h hs hns => ?_) (fun k _ hk => ?_)
    (Nat.le_refl _) h hns
  · obtain ⟨hcomma, hentry⟩ := derives_behindComma.mp h
    have hms : headKind ms = .fixed .comma ∨ headKind ms = .fixed .rparen := by
      rcases head_of_behindCommas hs with rfl | hms
      · exact hns.head
      · exact .inl hms
    rw [← Input.rest_next] at hentry
    rw [Input.headKind_rest] at hcomma
    rw [entryBehindComma?, ensures_unlessIllegal_of_legal (hcomma ▸ rfl)]
    simp only [Bool.false_eq_true, ↓reduceIte, ensures_bind, ensures_eat, List.nil_append]
    exact ⟨fun _ => entryHere?_complete resume hentry hms, fun hne => absurd hcomma hne⟩
  · obtain ⟨hcomma, hclose⟩ := hk
    rcases derives_opt.mp hcomma with rfl | hcomma
    · rw [Input.headKind_rest] at hclose
      rw [entryBehindComma?, ensures_unlessIllegal_of_legal (hclose ▸ rfl)]
      simp only [Bool.false_eq_true, ↓reduceIte, ensures_bind, ensures_eat, List.nil_append]
      exact ⟨fun hcomma => absurd (hclose.symm.trans hcomma) (by decide), fun _ => ⟨rfl, rfl, rfl⟩⟩
    · -- a trailing comma: no entry stands in front of `)`
      obtain ⟨hk, rfl⟩ := derives_token.mp hcomma
      rw [Input.headKind_rest] at hk
      rw [← Input.rest_next, Input.headKind_rest] at hclose
      rw [entryBehindComma?, ensures_unlessIllegal_of_legal (hk ▸ rfl)]
      simp only [Bool.false_eq_true, ↓reduceIte, ensures_bind, ensures_eat, List.nil_append]
      refine ⟨fun _ => ?_, fun hne => absurd hk hne⟩
      rw [entryHere?, ensures_unlessIllegal_of_legal (hclose ▸ rfl)]
      simp only [ensures_bind, ensures_position, ensures_kind, hclose]
      exact ⟨rfl, rfl, k.rest_next⟩

theorem query_complete (resume : TagSet) (h : Derives (.ref .query) i.rest us) :
    Accepts (query resume) i us := by
  obtain ⟨-, hopen, ms, hentry, ns, hentries, os, hcomma, hclose, rfl⟩ := derives_query.mp h
  have hms : headKind ms = .fixed .comma ∨ headKind ms = .fixed .rparen := by
    rcases head_of_behindCommas hentries with rfl | hms
    · exact EndsEntries.head ⟨hcomma, hclose⟩
    · exact .inl hms
  rw [← Input.rest_next] at hopen hentry
  rw [← Input.rest_next] at hentry
  rw [Input.headKind_rest] at hopen
  have hne : i.next.next.kind ≠ .fixed .rparen := by
    intro hk
    rw [← Input.headKind_rest] at hk
    rcases derives_entry.mp hentry with ⟨hstar, -⟩ | ⟨hword, -⟩
    · exact absurd (hk.symm.trans hstar) (by decide)
    · rw [hk] at hword
      exact absurd hword Bool.false_ne_true
  simp only [Accepts, query, entries, ensures_bind, ensures_position, ensures_kind, ensures_next,
    ensures_eat, ensures_check, ↓reduceIte, Bool.false_eq_true, List.nil_append, ensures_runFrom,
    ensures_pure, List.append_nil]
  refine ⟨fun _ => ⟨fun hk => absurd hk hne, fun _ => ?_⟩, fun hno => absurd hopen hno⟩
  refine (entryHere?_complete resume hentry hms).mono fun e? rs j h => ?_
  obtain ⟨hsome, rfl, rfl⟩ := h
  obtain ⟨e, rfl⟩ := Option.isSome_iff_exists.mp hsome
  simp only [ensures_bind, ensures_pure, List.nil_append, List.append_nil]
  refine (collect_entries_complete resume hentries ⟨hcomma, hclose⟩).mono fun es rs k h => ?_
  obtain ⟨rfl, rfl⟩ := h
  exact ⟨fun _ => ⟨rfl, k.rest_next⟩, fun hne => absurd hclose hne⟩

/-! ## 2. Clauses -/

/-- A binding is followed to its end.  Without a value only `=` would go on with it. -/
theorem binding_complete (pos : PatternPosition) (hpattern : isPattern (headKind i.rest.tail) = true)
    (htail : i.rest.tail.tail = us ∧ headKind us ≠ .fixed .eq ∨
      headKind i.rest.tail.tail = .fixed .eq ∧ Derives (.ref .expr) i.rest.tail.tail.tail us ∧
        EndsExpr us) :
    (pattern pos).Ensures i.next fun _ rs j => initializer?.Ensures j fun _ rs' k =>
      rs ++ rs' = [] ∧ k.rest = us := by
  rw [← Input.rest_next] at hpattern htail
  have hread : (pattern pos).Ensures i.next fun _ rs j => rs = [] ∧ j.rest = i.next.rest.tail := by
    simp only [pattern, ensures_bind, ensures_position, ensures_kind, List.nil_append]
    rw [Input.headKind_rest] at hpattern
    split
    case h_1 | h_2 => exact ⟨rfl, i.next.rest_next⟩
    case h_3 hdiscard hword =>
      cases hk : i.next.kind with
      | word name => exact absurd hk (hword name)
      | fixed f =>
        rw [hk] at hpattern
        cases f <;> first | exact absurd hpattern (by decide) | exact absurd hk hdiscard
      | _ => rw [hk] at hpattern; exact absurd hpattern Bool.false_ne_true
  refine hread.mono fun b rs j h => ?_
  obtain ⟨rfl, hj⟩ := h
  rw [← hj] at htail
  simp only [initializer?, ensures_bind, ensures_eat, ↓reduceIte, Bool.false_eq_true,
    List.nil_append, ensures_pure, List.append_nil]
  rcases htail with ⟨rfl, hne⟩ | ⟨heq, hvalue, hus⟩
  · exact ⟨fun heq => absurd heq hne, fun _ => ⟨trivial, rfl⟩⟩
  · rw [← Input.rest_next] at hvalue
    exact ⟨fun _ => expr_complete .full .declared j.next us hvalue hus,
      fun hne => absurd heq hne⟩

theorem clause_complete (owner : Owner) (h : Derives (.ref .clause) i.rest us)
    (hus : EndsExpr us) : Accepts (clause owner) i us := by
  simp only [Accepts, clause, ensures_bind, ensures_position, ensures_kind, List.nil_append]
  rcases derives_clause.mp h with h | h | ⟨hk, ms, hpattern, heq, hvalue⟩ | h
  · have hk := (derives_query.mp h).1
    have hquery := query_complete (TagSet.headerEnd owner) h
    rw [Input.headKind_rest] at hk
    cases hk' : i.kind with
    | fixed f =>
      rw [hk'] at hk
      cases f <;> first
        | exact absurd hk (by decide)
        | (simp only [ensures_bind, ensures_pure, List.append_nil]; exact hquery)
    | _ => rw [hk'] at hk; exact absurd hk Bool.false_ne_true
  · obtain ⟨hk, hpattern, htail⟩ := derives_binding.mp h
    have hbinding := binding_complete (.header owner) hpattern
      (htail.imp (fun h => ⟨h, hus.2⟩) fun h => ⟨h.1, h.2, hus⟩)
    rw [Input.headKind_rest] at hk
    cases hk' : i.kind with
    | fixed f =>
      rw [hk'] at hk
      cases f <;> first
        | exact absurd hk (by decide)
        | (simp only [ensures_bind, ensures_next, ensures_runFrom, ensures_pure, List.nil_append,
            List.append_nil]; exact hbinding)
    | _ => rw [hk'] at hk; exact absurd hk Bool.false_ne_true
  · rw [Input.headKind_rest] at hk
    rw [← Input.rest_next] at hpattern
    simp only [hk, ensures_bind, ensures_next, ensures_quietly, ensures_runFrom, ensures_pure,
      List.nil_append, List.append_nil]
    refine (expr_complete .ternary .pattern i.next ms hpattern (endsTernary_of_eq heq)).mono
      fun e rs j h => ?_
    obtain ⟨rfl, rfl⟩ := h
    rw [← Input.rest_next] at hvalue
    simp only [caseValue, ensures_bind, ensures_eat, ↓reduceIte, Bool.false_eq_true,
      List.nil_append]
    exact ⟨fun _ => expr_complete .full .declared j.next us hvalue hus,
      fun hne => absurd heq hne⟩
  · have hstart := (expr_begins h).1
    rw [Input.headKind_rest] at hstart
    have hexpr := expr_complete .full (.header owner) i us h hus
    split
    case h_6 =>
      simp only [ensures_bind, ensures_runFrom, ensures_pure, List.append_nil]
      exact hexpr
    all_goals
      rename_i hk
      rw [hk] at hstart
      exact absurd hstart Bool.false_ne_true

/-- The clauses of a header are followed to the `{` or `else` behind them. -/
theorem conditions_complete (owner : Owner) (h : Derives (.ref .conditions) i.rest us)
    (hus : headKind us = .fixed .lbrace ∨ headKind us = .fixed .elseWord) :
    Accepts (conditions owner) i us := by
  obtain ⟨ms, hfirst, hothers⟩ := derives_conditions.mp h
  have hends : ∀ {us : List Terminal},
      headKind us = .fixed .lbrace ∨ headKind us = .fixed .elseWord → EndsExpr us :=
    fun h => h.elim (fun h => endsExpr_of_token h (by decide) rfl)
      fun h => endsExpr_of_token h (by decide) rfl
  have hbehind : ∀ {ms us : List Terminal},
      Derives (.many (.seq [.token .comma, .ref .clause])) ms us →
        headKind us = .fixed .lbrace ∨ headKind us = .fixed .elseWord → EndsExpr ms := by
    intro ms us hs hus
    rcases head_of_behindCommas hs with rfl | hcomma
    · exact hends hus
    · exact endsExpr_of_token hcomma (by decide) rfl
  simp only [Accepts, conditions, ensures_bind, ensures_pure, List.append_nil]
  refine (clause_complete owner hfirst (hbehind hothers hus)).mono fun c rs j h => ?_
  obtain ⟨rfl, rfl⟩ := h
  refine collect_complete
    (F := fun us => headKind us = .fixed .lbrace ∨ headKind us = .fixed .elseWord)
    (clauseBehindComma?_advances owner _) (fun k ms us _ h hs hus => ?_) (fun k hk => ?_)
    (Nat.le_refl _) hothers hus <;>
    simp only [clauseBehindComma?, ensures_bind, ensures_eat, ↓reduceIte, Bool.false_eq_true,
      List.nil_append, ensures_pure, List.append_nil]
  · obtain ⟨hcomma, hclause⟩ := derives_behindComma.mp h
    rw [← Input.rest_next] at hclause
    refine ⟨fun _ => ?_, fun hne => absurd hcomma hne⟩
    exact (clause_complete owner hclause (hbehind hs hus)).mono fun _ _ _ h => ⟨rfl, h⟩
  · refine ⟨fun hcomma => ?_, fun _ => ⟨trivial, trivial, trivial⟩⟩
    rw [Input.headKind_rest, hcomma] at hk
    exact hk.elim (fun h => absurd h (by decide)) fun h => absurd h (by decide)

end Parser

end PlatformGate
