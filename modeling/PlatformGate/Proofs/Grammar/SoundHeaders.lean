/-
# Headers read in silence are derived

Queries, their entries and the clauses of a header.  The only place where silence alone is not
enough is a query: its entries may end without a word in front of a token that ends the header, and
it is the missing parenthesis that is reported then.
-/
import PlatformGate.Proofs.Grammar.SoundValues

namespace PlatformGate

open Grammar

namespace Parser

variable {i : Input}

/-! ## 1. Queries -/

theorem component?_sound (i : Input) :
    component?.Ensures i fun c? rs j => rs = [] →
      match c? with
      | none => i.rest = j.rest
      | some _ => headKind i.rest = .fixed .dot ∧ isNumber (headKind i.rest.tail) = true ∧
          i.rest.tail.tail = j.rest := by
  simp only [component?, ensures_bind, ensures_eat, ↓reduceIte, Bool.false_eq_true,
    List.nil_append]
  refine ⟨fun hdot => ?_, fun _ _ => rfl⟩
  simp only [ensures_kind, List.nil_append]
  split
  · rename_i v hk
    simp only [ensures_bind, ensures_next, ensures_pure]
    intro _
    rw [← Input.headKind_rest, Input.rest_next] at hk
    refine ⟨hdot, hk ▸ rfl, ?_⟩
    rw [Input.rest_next, Input.rest_next]
  · simp only [ensures_bind, ensures_invalidToken, ensures_pure]
    exact fun hrs => absurd hrs (List.cons_ne_nil _ _)
  · simp only [ensures_bind, ensures_reportHere, ensures_pure]
    exact fun hrs => absurd hrs (List.cons_ne_nil _ _)

theorem version?_sound (i : Input) :
    version?.Ensures i fun _ rs j => rs = [] →
      (i.rest = j.rest ∨ Derives (.ref .version) i.rest j.rest) := by
  simp only [version?, ensures_bind, ensures_kind, List.nil_append]
  split
  · rename_i major hk
    have hnumber : isNumber (headKind i.rest) = true := by
      rw [Input.headKind_rest, hk]
      rfl
    simp only [ensures_bind, ensures_next, List.nil_append]
    refine (component?_sound i.next).mono fun minor? rs j hminor => ?_
    rw [Input.rest_next] at hminor
    split
    · simp only [ensures_pure, List.append_nil]
      exact fun hrs => .inr (derives_version.mpr ⟨hnumber, .inl (hminor hrs)⟩)
    · simp only [ensures_bind]
      refine (component?_sound j).mono fun patch? rs' k hpatch => ?_
      split
      · simp only [ensures_pure, List.append_nil]
        intro hrs
        obtain ⟨hrs, hrs'⟩ := List.append_eq_nil_iff.mp hrs
        obtain ⟨hdot, hminor, hj⟩ := hminor hrs
        exact .inr (derives_version.mpr ⟨hnumber, .inr ⟨hdot, hminor,
          .inl (hj.trans (hpatch hrs'))⟩⟩)
      · simp only [ensures_pure, List.append_nil]
        intro hrs
        obtain ⟨hrs, hrs'⟩ := List.append_eq_nil_iff.mp hrs
        obtain ⟨hdot, hminor, hj⟩ := hminor hrs
        obtain ⟨hdot', hpatch, hk⟩ := hpatch hrs'
        rw [← hj] at hdot' hpatch hk
        exact .inr (derives_version.mpr ⟨hnumber, .inr ⟨hdot, hminor,
          .inr ⟨hdot', hpatch, hk⟩⟩⟩)
  · simp only [ensures_bind, ensures_invalidToken, ensures_pure]
    exact fun hrs => absurd hrs (List.cons_ne_nil _ _)
  · exact fun _ => .inl rfl

/-- An operator that no query may hold is no end of a header. -/
theorem illegal_not_resume (owner : Owner) {k : Kind String}
    (h : TagSet.illegalInQuery.contains k = true) :
    ((TagSet.headerEnd owner).insert (.fixed .rparen)).contains k = false ∧
      k.isCloser = false := by
  cases k with
  | fixed f => cases owner <;> cases f <;> first | exact ⟨rfl, rfl⟩ | exact absurd h (by decide)
  | _ => exact absurd h Bool.false_ne_true

/-- Such an operator does not go unreported. -/
theorem leftovers_illegal (owner : Owner) (h : TagSet.illegalInQuery.contains i.kind = true) :
    (leftovers .availability ((TagSet.headerEnd owner).insert (.fixed .rparen)) false).Ensures i
      fun _ rs _ => rs ≠ [] := by
  obtain ⟨hstop, hclose⟩ := illegal_not_resume owner h
  rw [ensures_leftovers]
  refine ⟨fun hnone => absurd hnone (Nat.ne_of_gt ?_), fun _ _ _ => List.cons_ne_nil _ _⟩
  have hne : i.rest ≠ [] := by
    apply Input.rest_ne_nil_of_kind
    intro hk
    rw [hk] at h
    exact absurd h Bool.false_ne_true
  obtain ⟨t, ts, hts⟩ := List.exists_cons_of_ne_nil hne
  rw [Input.kind_eq_head hts] at hstop hclose
  rw [hts]
  exact captureLength_pos hstop hclose

theorem entryHere?_sound (owner : Owner) (i : Input) :
    (entryHere? (TagSet.headerEnd owner)).Ensures i fun e? rs j => rs = [] →
      match e? with
      | none => i.rest = j.rest
      | some _ => Derives (.ref .entry) i.rest j.rest := by
  rw [entryHere?, ensures_unlessIllegal]
  refine ⟨fun hillegal => ?_, fun _ => ?_⟩
  · exact (leftovers_illegal owner hillegal).mono fun _ _ _ hrs hnil => absurd hnil hrs
  simp only [ensures_bind, ensures_position, ensures_kind, List.nil_append]
  split
  · rename_i hstar
    simp only [ensures_bind, ensures_next, ensures_runFrom, ensures_pure, List.append_nil]
    exact fun _ => derives_entry.mpr (.inl ⟨hstar, (i.rest_next).symm⟩)
  · rename_i name hword
    simp only [ensures_bind, ensures_next, ensures_runFrom, ensures_pure, List.nil_append,
      List.append_nil]
    refine (version?_sound i.next).mono fun v? rs j hversion hrs => ?_
    rw [Input.rest_next] at hversion
    refine derives_entry.mpr (.inr ⟨?_, hversion hrs⟩)
    rw [Input.headKind_rest, hword]
    rfl
  · simp only [ensures_bind, ensures_reportHere, ensures_runFrom, ensures_pure, List.append_nil]
    refine (version?_sound i).mono fun v? rs j _ hrs => ?_
    exact absurd hrs (List.cons_ne_nil _ _)
  · exact fun _ => rfl
  · exact fun _ => rfl
  · split
    · exact fun _ => rfl
    · exact fun hrs => absurd hrs (List.cons_ne_nil _ _)

/-- The entry behind a comma.  A comma may come last. -/
theorem entryBehindComma?_sound (owner : Owner) (i : Input) :
    (entryBehindComma? (TagSet.headerEnd owner)).Ensures i fun e? rs j => rs = [] →
      match e? with
      | none => Derives (.opt (.token .comma)) i.rest j.rest
      | some _ => Derives (.seq [.token .comma, .ref .entry]) i.rest j.rest := by
  rw [entryBehindComma?, ensures_unlessIllegal]
  refine ⟨fun hillegal => ?_, fun _ => ?_⟩
  · exact (leftovers_illegal owner hillegal).mono fun _ _ _ hrs hnil => absurd hnil hrs
  simp only [ensures_bind, ensures_eat, ↓reduceIte, Bool.false_eq_true, List.nil_append]
  refine ⟨fun hcomma => ?_, fun _ _ => .none⟩
  refine (entryHere?_sound owner i.next).mono fun e? rs j hentry hrs => ?_
  rw [Input.rest_next] at hentry
  have hentry := hentry hrs
  cases e? with
  | none => exact .some (derives_token.mpr ⟨hcomma, hentry⟩)
  | some e => exact derives_behindComma.mpr ⟨hcomma, hentry⟩

/-- Entries in front of the closing parenthesis. -/
theorem entries_sound (owner : Owner) (i : Input) :
    (entries (TagSet.headerEnd owner)).Ensures i fun _ rs j => rs = [] →
      headKind j.rest = .fixed .rparen → ∃ ms, Derives (.ref .entry) i.rest ms ∧
        ∃ ns, Derives (.many (.seq [.token .comma, .ref .entry])) ms ns ∧
          Derives (.opt (.token .comma)) ns j.rest := by
  simp only [entries, ensures_bind, ensures_check, ↓reduceIte, Bool.false_eq_true,
    List.nil_append, ensures_reportHere, ensures_pure, List.append_nil]
  refine ⟨fun _ hrs => absurd hrs (List.cons_ne_nil _ _), fun hopen => ?_⟩
  refine (entryHere?_sound owner i).mono fun e? rs j hentry => ?_
  cases e? with
  | none =>
    simp only [ensures_pure, List.append_nil]
    intro hrs hclose
    rw [← hentry hrs] at hclose
    exact absurd hclose hopen
  | some e =>
    simp only [ensures_bind, ensures_pure, List.append_nil]
    have hloop : (collect (entryBehindComma? (TagSet.headerEnd owner))).Ensures j fun _ rs k =>
        rs = [] → ∃ ns, Derives (.many (.seq [.token .comma, .ref .entry])) j.rest ns ∧
          Derives (.opt (.token .comma)) ns k.rest := by
      refine collect_sound_to (Q := fun ns k => Derives (.opt (.token .comma)) ns k.rest)
        (entryBehindComma?_advances _ _) (fun k _ => ?_) (Nat.le_refl _)
      refine (entryBehindComma?_sound owner k).mono fun e? rs l h hrs => ?_
      cases e? with
      | none => exact h hrs
      | some e => exact h hrs
    refine hloop.mono fun es rs' k hes hrs _ => ?_
    obtain ⟨hrs, hrs'⟩ := List.append_eq_nil_iff.mp hrs
    exact ⟨j.rest, hentry hrs, hes hrs'⟩

theorem query_sound (owner : Owner) (hk : i.kind.isAvailability = true) :
    (query (TagSet.headerEnd owner)).Ensures i fun _ rs j => rs = [] →
      Derives (.ref .query) i.rest j.rest := by
  simp only [query, ensures_bind, ensures_position, ensures_kind, ensures_next, ensures_eat,
    ↓reduceIte, Bool.false_eq_true, List.nil_append, ensures_runFrom, ensures_pure,
    List.append_nil]
  refine ⟨fun hopen => ?_, fun _ => ?_⟩
  · refine (entries_sound owner i.next.next).mono fun es rs j hes => ?_
    refine ⟨fun hclose hrs => ?_, fun _ => ?_⟩
    · rw [Input.rest_next, Input.rest_next] at hes
      obtain ⟨ms, hentry, ns, hentries, hcomma⟩ := hes hrs hclose
      rw [← Input.headKind_rest, Input.rest_next] at hopen
      exact derives_query.mpr ⟨hk, hopen, ms, hentry, ns, hentries, j.rest, hcomma, hclose,
        (j.rest_next).symm⟩
    · refine (unclosed_reports _ _ _ j).mono fun _ rs' _ h hrs => ?_
      exact absurd (List.append_eq_nil_iff.mp hrs).2 h
  · simp only [ensures_reportHere]
    exact fun hrs => absurd hrs (List.cons_ne_nil _ _)

/-! ## 2. Clauses -/

theorem pattern_sound (pos : PatternPosition) (i : Input) :
    (pattern pos).Ensures i fun _ rs j => rs = [] →
      isPattern (headKind i.rest) = true ∧ i.rest.tail = j.rest := by
  simp only [pattern, ensures_bind, ensures_position, ensures_kind, List.nil_append]
  split
  case h_1 hk | h_2 hk =>
    simp only [ensures_bind, ensures_next, ensures_pure]
    refine fun _ => ⟨?_, (i.rest_next).symm⟩
    rw [Input.headKind_rest, hk]
    rfl
  case h_3 =>
    simp only [ensures_bind, ensures_reportHere, ensures_pure]
    exact fun hrs => absurd hrs (List.cons_ne_nil _ _)

theorem initializer?_sound (i : Input) :
    initializer?.Ensures i fun _ rs j => rs = [] → (i.rest = j.rest ∨
      headKind i.rest = .fixed .eq ∧ Derives (.ref .expr) i.rest.tail j.rest) := by
  simp only [initializer?, ensures_bind, ensures_eat, ↓reduceIte, Bool.false_eq_true,
    List.nil_append, ensures_pure, List.append_nil]
  refine ⟨fun heq => ?_, fun _ _ => .inl trivial⟩
  refine (expr_sound .full .declared i.next).mono fun e rs j he hrs => ?_
  rw [Input.rest_next] at he
  exact .inr ⟨heq, he hrs⟩

/-- A binding, whatever its place is called. -/
theorem binding_sound {i : Input} (pos : PatternPosition)
    (hword : isBindingWord i.kind = true) :
    (pattern pos).Ensures i.next fun _ rs j => initializer?.Ensures j fun _ rs' k =>
      rs ++ rs' = [] → Derives (.ref .binding) i.rest k.rest := by
  refine (pattern_sound pos i.next).mono fun b rs j hb => ?_
  refine (initializer?_sound j).mono fun init rs' k hinit hrs => ?_
  obtain ⟨hrs, hrs'⟩ := List.append_eq_nil_iff.mp hrs
  rw [Input.rest_next] at hb
  obtain ⟨hb, hj⟩ := hb hrs
  have hinit := hinit hrs'
  rw [← hj] at hinit
  exact derives_binding.mpr ⟨hword, hb, hinit⟩

theorem clause_sound (owner : Owner) (i : Input) :
    (clause owner).Ensures i fun _ rs j => rs = [] → Derives (.ref .clause) i.rest j.rest := by
  simp only [clause, ensures_bind, ensures_position, ensures_kind, List.nil_append]
  split
  case h_1 hk | h_2 hk =>
    rw [ensures_bind]
    refine (query_sound owner (hk ▸ rfl)).mono fun q rs j h => ?_
    simp only [ensures_pure, List.append_nil]
    exact fun hrs => derives_clause.mpr (.inl (h hrs))
  case h_3 hk | h_4 hk =>
    simp only [ensures_bind, ensures_next, ensures_runFrom, ensures_pure, List.nil_append,
      List.append_nil]
    refine (binding_sound (.header owner) (hk ▸ rfl)).mono fun _ _ _ h => h.mono fun _ _ _ h => ?_
    exact fun hrs => derives_clause.mpr (.inr (.inl (h hrs)))
  case h_5 hk =>
    simp only [ensures_bind, ensures_next, ensures_quietly, ensures_runFrom, ensures_pure,
      List.nil_append, List.append_nil]
    refine (expr_sound .ternary .pattern i.next).mono fun e rs j he => ?_
    rw [Input.rest_next] at he
    simp only [caseValue, ensures_bind, ensures_eat, ↓reduceIte, Bool.false_eq_true,
      List.nil_append]
    refine ⟨fun heq => ?_, fun _ => ?_⟩
    · refine (expr_sound .full .declared j.next).mono fun v rs' k hv hrs => ?_
      obtain ⟨hrs, hrs'⟩ := List.append_eq_nil_iff.mp hrs
      rw [Input.rest_next] at hv
      exact derives_clause.mpr (.inr (.inr (.inl ⟨hk, j.rest, he hrs, heq, hv hrs'⟩)))
    · -- a silent pattern makes the missing `=` a problem
      split
      · simp only [ensures_bind, ensures_reportHere]
        exact fun hrs => absurd (List.append_eq_nil_iff.mp (List.append_eq_nil_iff.mp hrs).2).1
          (List.cons_ne_nil _ _)
      · rename_i hquiet
        intro hrs
        exact absurd (List.isEmpty_iff.mpr (List.append_eq_nil_iff.mp hrs).1) hquiet
  case h_6 =>
    simp only [ensures_bind, ensures_runFrom, ensures_pure, List.append_nil]
    refine (expr_sound .full _ i).mono fun e rs j he hrs => ?_
    exact derives_clause.mpr (.inr (.inr (.inr (he hrs))))

theorem conditions_sound (owner : Owner) (i : Input) :
    (conditions owner).Ensures i fun _ rs j => rs = [] →
      Derives (.ref .conditions) i.rest j.rest := by
  simp only [conditions, ensures_bind, ensures_pure, List.append_nil]
  refine (clause_sound owner i).mono fun c rs j hc => ?_
  have hloop : (collect (clauseBehindComma? owner)).Ensures j fun _ rs k => rs = [] →
      Derives (.many (.seq [.token .comma, .ref .clause])) j.rest k.rest := by
    refine collect_sound (clauseBehindComma?_advances owner _) (fun k _ => ?_) (Nat.le_refl _)
    simp only [clauseBehindComma?, ensures_bind, ensures_eat, ↓reduceIte, Bool.false_eq_true,
      List.nil_append, ensures_pure, List.append_nil]
    refine ⟨fun hcomma => ?_, fun _ _ => trivial⟩
    refine (clause_sound owner k.next).mono fun c rs l hc hrs => ?_
    rw [Input.rest_next] at hc
    exact derives_behindComma.mpr ⟨hcomma, hc hrs⟩
  refine hloop.mono fun cs rs' k hcs hrs => ?_
  obtain ⟨hrs, hrs'⟩ := List.append_eq_nil_iff.mp hrs
  exact derives_conditions.mpr ⟨j.rest, hc hrs, hcs hrs'⟩

end Parser

end PlatformGate
