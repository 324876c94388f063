/-
# Statements and modules read in silence are derived

The rest of the way up.  Between statements silence says one thing more, that nothing was left over
on a line; so every statement but the first begins on a line of its own, as the grammar demands.
-/
import PlatformGate.Proofs.Grammar.SoundHeaders

namespace PlatformGate

open Grammar

namespace Parser

variable {i : Input} {m : Nat}

/-! ## 1. Between statements -/

theorem restOfLine_sound (c : Construct) (i : Input) :
    (restOfLine c).Ensures i fun _ rs j => rs = [] → j = i ∧ EndsLine c i := by
  simp only [restOfLine, ensures_bind, ensures_pure, List.append_nil]
  refine ensures_collect (R := fun i _ rs j => rs = [] → j = i ∧ EndsLine c i) (fun j => ?_) i
  refine ((trailing?_advances c _ j (Nat.le_refl _)).and (trailing?_reads c j)).mono
    fun u? rs k h => ?_
  obtain ⟨hlt, h⟩ := h
  cases u? with
  | none =>
    obtain ⟨-, rfl, hend⟩ := h
    exact fun _ => ⟨rfl, hend⟩
  | some _ =>
    obtain ⟨n, -, -, -, rfl⟩ := h
    exact ⟨hlt rfl, fun _ _ _ _ hrs => absurd hrs (List.cons_ne_nil _ _)⟩

theorem headerTail_sound (owner : Owner) (stop : TagSet) (i : Input) :
    (headerTail owner stop).Ensures i fun _ rs j => rs = [] → j = i := by
  simp only [headerTail, ensures_bind, ensures_atEnd, ensures_atLineStart, ↓reduceIte,
    Bool.false_eq_true, List.nil_append, ensures_pure]
  refine ⟨fun _ _ => trivial, fun _ => ?_⟩
  split
  · exact fun _ => rfl
  · exact leftovers_sound _ stop true i

/-- A statement in front of statements, on a line of its own. -/
theorem stmts_cons {ts ms us : List Terminal} (h : Derives (.ref .stmt) ts ms)
    (hs : Derives (.ref .stmts) ms us)
    (hline : startsLine ms = true ∨ TagSet.statementStart.contains (headKind ms) = false) :
    Derives (.ref .stmts) ts us := by
  refine derives_stmts.mpr (.inr ⟨ms, h, ?_⟩)
  rcases derives_stmts.mp hs with rfl | ⟨ns, hfirst, hlines⟩
  · exact .done
  · rcases hline with hline | hno
    · exact .more (derives_line.mpr ⟨hline, hfirst⟩) hlines
    · exact absurd (hno ▸ (stmt_begins hfirst).1) Bool.false_ne_true

/-- Where a line ends, a new one begins or nothing can begin. -/
theorem lineBreak_of_endsLine {c : Construct} {i : Input} (h : EndsLine c i) :
    startsLine i.rest = true ∨ TagSet.statementStart.contains (headKind i.rest) = false := by
  rcases h with hnil | hline | ⟨-, hclose⟩
  · rw [hnil]
    exact .inr rfl
  · exact .inl hline
  · rw [Input.headKind_rest, hclose]
    exact .inr rfl

/-- A statement behind the word `if` is an `if`. -/
theorem ifStmt_of_word {i : Input} {us : List Terminal} (hif : i.kind = .fixed .ifWord)
    (h : Derives (.ref .stmt) i.rest us) : Derives (.ref .ifStmt) i.rest us := by
  rw [← Input.headKind_rest] at hif
  have hword : ∀ {f : Fixed}, headKind i.rest = .fixed f → f = .ifWord := by
    intro f hf
    rw [hif] at hf
    cases hf
    rfl
  rcases derives_stmt.mp h with h | h | h | h | h | h
  · exact h
  · exact absurd (hword (derives_guardStmt.mp h).1) nofun
  · exact absurd (hword (derives_whileStmt.mp h).1) nofun
  · have hbinding := (derives_binding.mp h).1
    rw [hif] at hbinding
    exact absurd hbinding Bool.false_ne_true
  · exact absurd (hword (derives_returnStmt.mp h).1) nofun
  · have hstart := (expr_begins h).1
    rw [hif] at hstart
    exact absurd hstart Bool.false_ne_true

section Statements

variable (hstmt : ∀ i, i.rest.length < m → stmt.Ensures i fun _ rs j => rs = [] →
  Derives (.ref .stmt) i.rest j.rest)

include hstmt

theorem item_sound (c : Construct) (hi : i.rest.length < m) (hne : i.rest ≠ []) :
    (item stmt c).Ensures i fun _ rs j => rs = [] →
      Derives (.ref .stmt) i.rest j.rest ∧ EndsLine c j := by
  simp only [item, ensures_bind, ensures_kind, List.nil_append]
  split
  · simp only [ensures_bind, ensures_pure, List.append_nil]
    refine (hstmt i hi).mono fun s rs j hs => ?_
    refine (restOfLine_sound c j).mono fun _ rs' k hk hrs => ?_
    obtain ⟨hrs, hrs'⟩ := List.append_eq_nil_iff.mp hrs
    obtain ⟨rfl, hend⟩ := hk hrs'
    exact ⟨hs hrs, hend⟩
  · -- what begins no statement is reported
    simp only [ensures_bind, ensures_pure, List.append_nil]
    refine (junk_reads c hne).mono fun _ rs j hj => ?_
    obtain ⟨n, -, -, -, rfl⟩ := hj
    refine (restOfLine_sound c j).mono fun _ rs' k _ hrs => ?_
    exact absurd (List.append_eq_nil_iff.mp hrs).1 (List.cons_ne_nil _ _)

/-- One round of a block: its closing brace, or a statement that ends its line. -/
theorem blockItem?_sound (opener : Nat) (hi : i.rest.length < m) :
    (blockItem? stmt opener).Ensures i fun s? rs j => rs = [] →
      match s? with
      | none => headKind i.rest = .fixed .rbrace ∧ i.rest.tail = j.rest
      | some _ => Derives (.ref .stmt) i.rest j.rest ∧ EndsLine .block j := by
  simp only [blockItem?, ensures_bind, ensures_eat, ensures_atEnd, ↓reduceIte,
    Bool.false_eq_true, List.nil_append, ensures_pure, List.append_nil]
  refine ⟨fun hclose _ => ⟨hclose, (i.rest_next).symm⟩, fun _ => ⟨fun _ => ?_, fun hne => ?_⟩⟩
  · exact (unclosed_reports _ _ _ i).mono fun _ _ _ h hrs => absurd hrs h
  · exact item_sound hstmt _ hi hne

theorem block_sound (hi : i.rest.length ≤ m) (hopen : i.kind = .fixed .lbrace) :
    (block stmt).Ensures i fun _ rs j => rs = [] → Derives (.ref .block) i.rest j.rest := by
  have hlt := Input.length_next_lt (Input.rest_ne_nil hopen)
  have hloop : ∀ k, k.rest.length ≤ i.next.rest.length →
      (collect (blockItem? stmt i.position)).Ensures k fun _ rs l => rs = [] →
        ∃ ms, Derives (.ref .stmts) k.rest ms ∧ headKind ms = .fixed .rbrace ∧
          ms.tail = l.rest := by
    refine ensures_collect_upTo fun k hk => ?_
    have hadv := blockItem?_advances (m := m) (fun i _ => stmt_reads i)
      (Nat.lt_of_lt_of_le hlt hi) i.position k hk
    refine (hadv.and (blockItem?_sound hstmt i.position (by omega))).mono fun s? rs l h => ?_
    obtain ⟨hadv, hround⟩ := h
    cases s? with
    | none => exact fun hrs => ⟨k.rest, derives_stmts.mpr (.inl rfl), hround hrs⟩
    | some s =>
      refine ⟨hadv rfl, fun ss rs' l' hagain hrs => ?_⟩
      obtain ⟨hrs, hrs'⟩ := List.append_eq_nil_iff.mp hrs
      obtain ⟨hs, hend⟩ := hround hrs
      obtain ⟨ms, hms, hclose⟩ := hagain hrs'
      exact ⟨ms, stmts_cons hs hms (lineBreak_of_endsLine hend), hclose⟩
  simp only [block, ensures_bind, ensures_position, ensures_next, ensures_runFrom, ensures_pure,
    List.nil_append, List.append_nil]
  refine (hloop i.next (Nat.le_refl _)).mono fun ss rs j h hrs => ?_
  obtain ⟨ms, hms, hclose, hj⟩ := h hrs
  rw [Input.rest_next] at hms
  exact derives_block.mpr ⟨hopen, ms, hms, hclose, hj⟩

theorem body_sound (owner : Owner) (hi : i.rest.length ≤ m) :
    (body stmt owner).Ensures i fun _ rs j => rs = [] →
      Derives (.ref .block) i.rest j.rest := by
  simp only [body, ensures_bind, ensures_check, ↓reduceIte, Bool.false_eq_true,
    List.nil_append]
  refine ((headerTail_moves owner _ i).and (headerTail_sound owner _ i)).mono fun _ rs j h => ?_
  obtain ⟨hmoves, hj⟩ := h
  have hle := hmoves.ahead.length_le
  refine ⟨fun hopen => ?_, fun _ => ?_⟩
  · refine (block_sound hstmt (by omega) hopen).mono fun b rs' k hb hrs => ?_
    obtain ⟨hrs, hrs'⟩ := List.append_eq_nil_iff.mp hrs
    obtain rfl := hj hrs
    exact hb hrs'
  · simp only [ensures_atEnd, ensures_reportHere, ensures_pure, List.append_nil,
      List.nil_append]
    exact ⟨fun _ hrs => absurd (List.append_eq_nil_iff.mp hrs).2 (List.cons_ne_nil _ _),
      fun _ hrs => absurd (List.append_eq_nil_iff.mp hrs).2 (List.cons_ne_nil _ _)⟩

/-! ## 2. Statements -/

theorem ifStatement_sound (hi : i.rest.length ≤ m) (hword : i.kind = .fixed .ifWord) :
    (ifStatement stmt).Ensures i fun _ rs j => rs = [] →
      Derives (.ref .ifStmt) i.rest j.rest := by
  have hlt := Input.length_next_lt (Input.rest_ne_nil hword)
  simp only [ifStatement, ensures_bind, ensures_position, ensures_next, ensures_eat, ↓reduceIte,
    Bool.false_eq_true, List.nil_append, ensures_runFrom, ensures_pure, List.append_nil]
  refine ((conditions_reads _ i.next).and (conditions_sound _ i.next)).mono fun cs rs j h => ?_
  obtain ⟨⟨hmoves, -⟩, hcs⟩ := h
  rw [Input.rest_next] at hcs
  have hij := hmoves.ahead.length_le
  refine ((body_reads (m := m) (fun i _ => stmt_reads i) (by omega) _).and
    (body_sound hstmt _ (by omega))).mono fun b rs₁ k h => ?_
  obtain ⟨hread, hb⟩ := h
  have hjk := hread.moves.ahead.length_le
  refine ⟨fun helse => ?_, fun _ hrs => ?_⟩
  · have hlt' := Input.length_next_lt (Input.rest_ne_nil helse)
    simp only [alternative, ensures_bind, ensures_check, ↓reduceIte, Bool.false_eq_true,
      List.nil_append, ensures_pure, List.append_nil]
    refine ⟨fun hif => ?_, fun _ => ?_⟩
    · refine (hstmt k.next (by omega)).mono fun s rs₂ l hs hrs => ?_
      simp only [List.append_eq_nil_iff] at hrs
      obtain ⟨hrs, hrs₁, hrs₂⟩ := hrs
      have hs := ifStmt_of_word hif (hs hrs₂)
      rw [Input.rest_next] at hs
      exact derives_ifStmt.mpr ⟨hword, j.rest, hcs hrs, k.rest, hb hrs₁,
        .inr ⟨helse, .inl hs⟩⟩
    · refine (body_sound hstmt _ (by omega)).mono fun b' rs₂ l hb' hrs => ?_
      simp only [List.append_eq_nil_iff] at hrs
      obtain ⟨hrs, hrs₁, hrs₂⟩ := hrs
      rw [Input.rest_next] at hb'
      exact derives_ifStmt.mpr ⟨hword, j.rest, hcs hrs, k.rest, hb hrs₁,
        .inr ⟨helse, .inr (hb' hrs₂)⟩⟩
  · obtain ⟨hrs, hrs₁⟩ := List.append_eq_nil_iff.mp hrs
    exact derives_ifStmt.mpr ⟨hword, j.rest, hcs hrs, k.rest, hb hrs₁, .inl rfl⟩

theorem guardStatement_sound (hi : i.rest.length ≤ m) (hword : i.kind = .fixed .guardWord) :
    (guardStatement stmt).Ensures i fun _ rs j => rs = [] →
      Derives (.ref .guardStmt) i.rest j.rest := by
  have hlt := Input.length_next_lt (Input.rest_ne_nil hword)
  simp only [guardStatement, ensures_bind, ensures_position, ensures_next, List.nil_append,
    ensures_runFrom, ensures_pure, List.append_nil]
  refine ((conditions_reads _ i.next).and (conditions_sound _ i.next)).mono fun cs rs j h => ?_
  obtain ⟨⟨hmoves, -⟩, hcs⟩ := h
  rw [Input.rest_next] at hcs
  have hij := hmoves.ahead.length_le
  refine ((headerTail_moves _ _ j).and (headerTail_sound _ _ j)).mono fun _ rs₁ k h => ?_
  obtain ⟨hmoves', hk⟩ := h
  have hjk := hmoves'.ahead.length_le
  have hkk := k.ahead_next.length_le
  simp only [guardBody, ensures_bind, ensures_eat, ensures_check, ↓reduceIte, Bool.false_eq_true,
    List.nil_append, ensures_reportHere, ensures_pure, List.append_nil]
  have hreported : ∀ {r : Report Run} {rs₂ : List (Report Run)},
      rs ++ (rs₁ ++ r :: rs₂) ≠ [] := by
    intro r rs₂ hrs
    simp only [List.append_eq_nil_iff] at hrs
    exact absurd hrs.2.2 (List.cons_ne_nil _ _)
  refine ⟨fun helse => ?_, fun _ => ⟨fun hopen => ?_, fun _ hrs => absurd hrs hreported⟩⟩
  · refine (body_sound hstmt _ (by omega)).mono fun b rs₂ l hb hrs => ?_
    simp only [List.append_eq_nil_iff] at hrs
    obtain ⟨hrs, hrs₁, hrs₂⟩ := hrs
    obtain rfl := hk hrs₁
    rw [Input.rest_next] at hb
    exact derives_guardStmt.mpr ⟨hword, k.rest, hcs hrs, helse, hb hrs₂⟩
  · exact (block_sound hstmt (by omega) hopen).mono fun _ _ _ _ hrs => absurd hrs hreported

theorem whileStatement_sound (hi : i.rest.length ≤ m) (hword : i.kind = .fixed .whileWord) :
    (whileStatement stmt).Ensures i fun _ rs j => rs = [] →
      Derives (.ref .whileStmt) i.rest j.rest := by
  have hlt := Input.length_next_lt (Input.rest_ne_nil hword)
  simp only [whileStatement, ensures_bind, ensures_position, ensures_next, List.nil_append,
    ensures_runFrom, ensures_pure, List.append_nil]
  refine ((conditions_reads _ i.next).and (conditions_sound _ i.next)).mono fun cs rs j h => ?_
  obtain ⟨⟨hmoves, -⟩, hcs⟩ := h
  rw [Input.rest_next] at hcs
  have hij := hmoves.ahead.length_le
  refine (body_sound hstmt _ (by omega)).mono fun b rs₁ k hb hrs => ?_
  obtain ⟨hrs, hrs₁⟩ := List.append_eq_nil_iff.mp hrs
  exact derives_whileStmt.mpr ⟨hword, j.rest, hcs hrs, hb hrs₁⟩

omit hstmt in
theorem declaration_sound (mutable : Bool) (hword : isBindingWord i.kind = true) :
    (declaration mutable).Ensures i fun _ rs j => rs = [] →
      Derives (.ref .binding) i.rest j.rest := by
  simp only [declaration, ensures_bind, ensures_position, ensures_next, List.nil_append,
    ensures_runFrom, ensures_pure, List.append_nil]
  exact binding_sound .declared hword

omit hstmt in
theorem returnStatement_sound (hword : i.kind = .fixed .returnWord) :
    returnStatement.Ensures i fun _ rs j => rs = [] →
      Derives (.ref .returnStmt) i.rest j.rest := by
  have hnone : endsReturn i.rest.tail = true → Derives (.ref .returnStmt) i.rest i.next.rest :=
    fun hend => derives_returnStmt.mpr ⟨hword, .inl ⟨hend, (i.rest_next).symm⟩⟩
  simp only [returnStatement, ensures_bind, ensures_position, ensures_next, List.nil_append,
    ensures_runFrom, ensures_pure, List.append_nil, returnValue?, ensures_atEnd,
    ensures_atLineStart, ↓reduceIte, Bool.false_eq_true]
  refine ⟨fun hend _ => hnone ?_, fun hne => ?_⟩
  · rw [← Input.rest_next, hend]
    rfl
  split
  · rename_i hline
    refine fun _ => hnone ?_
    rw [← Input.rest_next, endsReturn, startsLine]
    simp only [Input.atLineStart] at hline
    rw [hline, Bool.or_true, Bool.true_or]
  · rename_i hline
    simp only [ensures_bind, ensures_check, ↓reduceIte, Bool.false_eq_true, List.nil_append,
      ensures_pure, List.append_nil]
    refine ⟨fun hclose _ => hnone ?_, fun hopen => ?_⟩
    · rw [← Input.rest_next, endsReturn, Input.headKind_rest, hclose]
      simp
    · refine (expr_sound .full .returned i.next).mono fun e rs j he hrs => ?_
      have he := he hrs
      rw [Input.rest_next] at he
      refine derives_returnStmt.mpr ⟨hword, .inr ⟨?_, he⟩⟩
      rw [← Input.rest_next, endsReturn, Input.headKind_rest, startsLine]
      simp only [Input.atLineStart] at hline
      simp [hne, hline, hopen]

theorem statement_sound (hi : i.rest.length ≤ m) :
    (statement stmt).Ensures i fun _ rs j => rs = [] →
      Derives (.ref .stmt) i.rest j.rest := by
  simp only [statement, ensures_bind, ensures_kind, List.nil_append]
  split
  case h_1 hk =>
    exact (ifStatement_sound hstmt hi hk).mono fun _ _ _ h hrs => derives_stmt.mpr (.inl (h hrs))
  case h_2 hk =>
    exact (guardStatement_sound hstmt hi hk).mono
      fun _ _ _ h hrs => derives_stmt.mpr (.inr (.inl (h hrs)))
  case h_3 hk =>
    exact (whileStatement_sound hstmt hi hk).mono
      fun _ _ _ h hrs => derives_stmt.mpr (.inr (.inr (.inl (h hrs))))
  case h_4 hk | h_5 hk =>
    exact (declaration_sound _ (hk ▸ rfl)).mono
      fun _ _ _ h hrs => derives_stmt.mpr (.inr (.inr (.inr (.inl (h hrs)))))
  case h_6 hk =>
    exact (returnStatement_sound hk).mono
      fun _ _ _ h hrs => derives_stmt.mpr (.inr (.inr (.inr (.inr (.inl (h hrs))))))
  case h_7 =>
    simp only [expressionStatement, ensures_bind, ensures_position, List.nil_append,
      ensures_runFrom, ensures_pure, List.append_nil]
    exact (expr_sound .full .statement i).mono
      fun _ _ _ h hrs => derives_stmt.mpr (.inr (.inr (.inr (.inr (.inr (h hrs))))))

end Statements

/-- **Statements read in silence are derived.** -/
theorem stmt_sound (i : Input) :
    stmt.Ensures i fun _ rs j => rs = [] → Derives (.ref .stmt) i.rest j.rest := by
  refine stmt_induction (P := fun p i => p.Ensures i fun _ rs j => rs = [] →
    Derives (.ref .stmt) i.rest j.rest) (fun i ih => ?_) i
  exact statement_sound ih (Nat.le_refl _)

/-- One round of the top level: the end, or a statement that ends its line. -/
theorem topLevelItem?_sound (i : Input) :
    topLevelItem?.Ensures i fun s? rs j => rs = [] →
      match s? with
      | none => i.rest = j.rest
      | some _ => Derives (.ref .stmt) i.rest j.rest ∧ EndsLine .topLevel j := by
  simp only [topLevelItem?, ensures_bind, ensures_atEnd, ↓reduceIte, Bool.false_eq_true,
    List.nil_append, ensures_pure, List.append_nil]
  exact ⟨fun _ _ => trivial, fun hne =>
    item_sound (fun i _ => stmt_sound i) _ (Nat.lt_succ_self _) hne⟩

/-- **A source read in silence is a derived module.** -/
theorem topLevel_sound (i : Input) :
    topLevel.Ensures i fun _ rs j => rs = [] → Derives (.ref .stmts) i.rest j.rest := by
  simp only [topLevel, ensures_bind, ensures_pure, List.append_nil]
  refine ensures_collect (R := fun i _ rs j => rs = [] → Derives (.ref .stmts) i.rest j.rest)
    (fun k => ?_) i
  refine ((topLevelItem?_advances _ k (Nat.le_refl _)).and (topLevelItem?_sound k)).mono
    fun s? rs j h => ?_
  obtain ⟨hadv, hround⟩ := h
  cases s? with
  | none => exact fun hrs => derives_stmts.mpr (.inl (hround hrs))
  | some s =>
    refine ⟨hadv rfl, fun ss rs' l hagain hrs => ?_⟩
    obtain ⟨hrs, hrs'⟩ := List.append_eq_nil_iff.mp hrs
    obtain ⟨hs, hend⟩ := hround hrs
    exact stmts_cons hs (hagain hrs') (lineBreak_of_endsLine hend)

end Parser

end PlatformGate
