/-
# Headers and statements are read nested

The same statement for the parsers of queries, clauses and statements.  A statement is only read
where one can begin, and there it takes a terminal; so only error expressions, missing patterns and
clauses of nothing else can be empty.  A clause is such an expression when it took nothing.

The lemmas about one statement speak of `m` terminals at most and ask of the statements inside it
only what they do with fewer.  With the places they keep what an `else` may hold: a statement behind
`else` is an `if` (`Chained`).
-/
import PlatformGate.Proofs.Parse.Lines
import PlatformGate.Proofs.Nesting.Values
import PlatformGate.Proofs.Arena.Holds

namespace PlatformGate

namespace Stmt

variable {ρ : Type}

def isIf : Stmt ρ → Bool
  | ifStmt .. => true
  | _ => false

mutual

/-- Whatever stands behind an `else` without braces is an `if`. -/
def Chained : Stmt ρ → Prop
  | expr .. | declaration .. | returnStmt .. => True
  | ifStmt _ b a _ => BodyChained b ∧ AlternativeChained a
  | guardStmt _ b _ | whileStmt _ b _ => BodyChained b

def BodyChained : Body ρ → Prop
  | .missing => True
  | .block ss _ => ChainedAll ss

def AlternativeChained : Alternative ρ → Prop
  | .body b => BodyChained b
  | .elseIf s => s.isIf = true ∧ Chained s

/-- Every statement of a list is chained. -/
def ChainedAll : List (Stmt ρ) → Prop
  | [] => True
  | s :: ss => Chained s ∧ ChainedAll ss

end

end Stmt

/-- What it means to read statements one after the other. -/
structure ReadsRow (i : Input) (ss : List (Stmt Run)) (j : Input) : Prop where
  fills : Fills i (ss.map Stmt.outline) j
  chained : Stmt.ChainedAll ss

/-- What it means to read a statement where one can begin. -/
structure CoversStmt (i : Input) (s : Stmt Run) (j : Input) : Prop where
  covers : Covers i s.outline j
  chained : s.Chained
  isIf : i.kind = .fixed .ifWord → s.isIf = true

/-- What it means to read a body, or what follows `else`. -/
structure FillsBody (i : Input) (b : Body Run) (j : Input) : Prop where
  fills : Fills i (Stmt.bodyOutlines b) j
  chained : Stmt.BodyChained b

/-- A statement that was read has taken a terminal. -/
theorem CoversStmt.position_lt {i j : Input} {s : Stmt Run} (h : CoversStmt i s j) :
    i.position < j.position := by
  have hplace := h.covers.across.place
  rw [Stmt.place_outline] at hplace
  have hsolid : s.place.first ≠ s.place.past := by
    have hnested := h.covers.across.nested
    cases s <;> exact fun heq => absurd (hnested.1 heq) Bool.false_ne_true
  rw [hplace] at hsolid
  exact Nat.lt_of_le_of_ne h.covers.across.le hsolid

theorem ReadsRow.nil {i j : Input} (h : i.Ahead j) : ReadsRow i [] j := ⟨.of_ahead h, trivial⟩

theorem ReadsRow.append {i j k : Input} {ss ss' : List (Stmt Run)} (h : ReadsRow i ss j)
    (h' : ReadsRow j ss' k) : ReadsRow i (ss ++ ss') k := by
  constructor
  · rw [List.map_append]
    exact h.fills.append h'.fills
  · have hall := h.chained
    clear h
    induction ss with
    | nil => exact h'.chained
    | cons s ss ih => exact ⟨hall.1, ih hall.2⟩

namespace Parser

variable {i : Input}

/-! ## 1. Queries -/

theorem version?_ahead (i : Input) : version?.Ensures i fun _ _ j => i.Ahead j :=
  (version?_moves i).mono fun _ _ _ h => h.ahead

/-- A number is taken for a version. -/
theorem version?_takes {v : Nat} (hk : i.kind = .number v) :
    version?.Ensures i fun _ _ j => i.Ahead j ∧ i.position < j.position := by
  have hlt := Input.position_lt_next (Input.rest_ne_nil_of_kind (i := i) (by simp [hk]))
  have hcomponent : ∀ j, component?.Ensures j fun _ _ k => j.Ahead k :=
    fun j => (component?_moves j).mono fun _ _ _ h => h.ahead
  simp only [version?, ensures_bind, ensures_kind, hk, ensures_next]
  refine (hcomponent i.next).mono fun minor? rs j hj => ?_
  have hle := hj.position_le
  have hahead := i.ahead_next.trans hj
  cases minor? with
  | none =>
    rw [ensures_pure]
    exact ⟨hahead, by omega⟩
  | some minor =>
    simp only [ensures_bind]
    refine (hcomponent j).mono fun patch? rs' k hk => ?_
    have hle' := hk.position_le
    cases patch? <;> exact ⟨hahead.trans hk, Nat.lt_of_lt_of_le hlt (Nat.le_trans hle hle')⟩

/-- **An entry takes a terminal.** -/
theorem entryHere?_fills (resume : TagSet) (i : Input) :
    (entryHere? resume).Ensures i fun e? _ j => Fills i (e?.toList.map Entry.outline) j := by
  rw [entryHere?, ensures_unlessIllegal]
  refine ⟨fun _ => (leftovers_ahead _ _ false i).mono fun _ _ _ h => .of_ahead h, fun _ => ?_⟩
  have hnone : Fills i ((none : Option (Entry Run)).toList.map Entry.outline) i :=
    .of_ahead (.refl i)
  simp only [ensures_bind, ensures_position, ensures_kind]
  split
  · rename_i hk
    have hne := Input.rest_ne_nil hk
    exact ((Fills.of_ahead (.refl i.next)).covers_behind hne).fills
  · rename_i name hk
    have hne := Input.rest_ne_nil_of_kind (i := i) (by simp [hk])
    simp only [ensures_bind, ensures_next, ensures_runFrom, ensures_pure]
    refine (version?_ahead i.next).mono fun version rs j hj => ?_
    exact ((Fills.of_ahead hj).covers_behind hne).fills
  · rename_i v hk
    simp only [ensures_bind, ensures_reportHere, ensures_runFrom, ensures_pure]
    refine (version?_takes hk).mono fun version rs j hj => ?_
    exact ((Fills.of_ahead hj.1).covers hj.2).fills
  · exact hnone
  · exact hnone
  · split <;> exact hnone

theorem entryBehindComma?_fills (resume : TagSet) (i : Input) :
    (entryBehindComma? resume).Ensures i fun e? _ j =>
      Fills i (e?.toList.map Entry.outline) j := by
  rw [entryBehindComma?, ensures_unlessIllegal]
  refine ⟨fun _ => (leftovers_ahead _ _ false i).mono fun _ _ _ h => .of_ahead h, fun _ => ?_⟩
  simp only [ensures_bind, ensures_eat, ↓reduceIte, Bool.false_eq_true]
  refine ⟨fun _ => ?_, fun _ => .of_ahead (.refl i)⟩
  exact (entryHere?_fills resume i.next).mono fun e? rs j h => .after_ahead i.ahead_next h

theorem entries_fills (resume : TagSet) (i : Input) :
    (entries resume).Ensures i fun es _ j => Fills i (es.map Entry.outline) j := by
  have hloop : ∀ j, (collect (entryBehindComma? resume)).Ensures j fun es _ k =>
      Fills j (es.map Entry.outline) k := by
    refine ensures_collect fun j => ?_
    have hadv := entryBehindComma?_advances resume _ j (Nat.le_refl _)
    refine (hadv.and (entryBehindComma?_fills resume j)).mono fun e? rs k h => ?_
    cases e? with
    | none => exact h.2
    | some e => exact ⟨h.1 rfl, fun es rs' l hes => h.2.append hes⟩
  simp only [entries, ensures_bind, ensures_check, ↓reduceIte, Bool.false_eq_true]
  refine ⟨fun _ => .of_ahead (.refl i), fun _ => ?_⟩
  refine (entryHere?_fills resume i).mono fun e? rs j h => ?_
  cases e? with
  | none => exact h
  | some e => exact (hloop j).mono fun es rs' k hes => h.append hes

/-- **A query is read nested.** -/
theorem query_covers (resume : TagSet) (hne : i.rest ≠ []) :
    (query resume).Ensures i fun q _ j => Covers i q.outline j := by
  simp only [query, ensures_bind, ensures_position, ensures_kind, ensures_next, ensures_eat,
    ↓reduceIte, Bool.false_eq_true, ensures_runFrom, ensures_pure]
  refine ⟨fun _ => ?_, fun _ => (Fills.of_ahead (.refl i.next)).covers_behind hne⟩
  refine (entries_fills resume i.next.next).mono fun es rs j hes => ?_
  have hfills := Fills.after_ahead i.next.ahead_next hes
  -- the query ends with its parenthesis or where reading resumes
  have hclose : ∀ {k : Input}, j.Ahead k →
      Covers i (.node false ⟨i.position, k.position⟩ (es.map Entry.outline)) k :=
    fun hk => (hfills.then_ahead hk).covers_behind hne
  exact ⟨fun _ => hclose j.ahead_next,
    fun _ => (unclosed_ahead .availability _ resume j).mono fun _ _ k hk => hclose hk⟩

/-! ## 2. Clauses -/

theorem pattern_covers (pos : PatternPosition) (i : Input) :
    (pattern pos).Ensures i fun b _ j => Covers i b.outline j := by
  simp only [pattern, ensures_bind, ensures_position, ensures_kind]
  split
  · rename_i hk
    exact .terminal (Input.rest_ne_nil hk)
  · rename_i name hk
    exact .terminal (Input.rest_ne_nil_of_kind (by simp [hk]))
  · exact .hollow i

theorem initializer?_fills (i : Input) :
    initializer?.Ensures i fun e? _ j => Fills i (e?.toList.map Expr.outline) j := by
  simp only [initializer?, ensures_bind, ensures_eat, ↓reduceIte, Bool.false_eq_true]
  refine ⟨fun _ => ?_, fun _ => .of_ahead (.refl i)⟩
  exact (expr_covers .full .declared i.next).mono fun e rs j he =>
    .after_ahead i.ahead_next he.fills

/-- A pattern and its value, behind the keyword that binds it. -/
theorem binding_fills (pos : PatternPosition) (i : Input) :
    (pattern pos).Ensures i fun b _ j => initializer?.Ensures j fun init _ k =>
      Fills i (b.outline :: init.toList.map Expr.outline) k :=
  (pattern_covers pos i).mono fun _ _ j hb =>
    (initializer?_fills j).mono fun _ _ _ hinit => hb.fills.append hinit

theorem caseValue_fills (quiet : Bool) (i : Input) :
    (caseValue quiet).Ensures i fun e _ j => Fills i [e.outline] j := by
  simp only [caseValue, ensures_bind, ensures_eat, ↓reduceIte, Bool.false_eq_true]
  refine ⟨fun _ => ?_, fun _ => ?_⟩
  · exact (expr_covers .full .declared i.next).mono fun e rs j he =>
      .after_ahead i.ahead_next he.fills
  · split <;> exact (Covers.hollow i).fills

/-- Only an error expression covers nothing. -/
theorem isError_of_nested {e : Expr Run} (h : e.outline.Nested)
    (hempty : e.place.first = e.place.past) : e.isError = true := by
  cases e with
  | error p => rfl
  | _ => exact absurd (h.1 hempty) Bool.false_ne_true

/-- A clause that is a query covers what the query does. -/
theorem availability_covers (resume : TagSet) (hne : i.rest ≠ []) :
    (query resume).Ensures i fun q _ j => Covers i (Clause.availability q).outline j := by
  refine (query_covers resume hne).mono fun q rs j h => ?_
  have hplace : q.place = ⟨i.position, j.position⟩ := h.across.place
  refine ⟨h.ahead, hplace, h.across.nested.1, ?_⟩
  rw [hplace]
  exact h.across.row

/-- **A clause is read nested.**  It is empty only as an error expression. -/
theorem clause_covers (owner : Owner) (i : Input) :
    (clause owner).Ensures i fun c _ j => Covers i c.outline j := by
  simp only [clause, ensures_bind, ensures_position, ensures_kind]
  split
  · rename_i hk
    exact availability_covers _ (Input.rest_ne_nil hk)
  · rename_i hk
    exact availability_covers _ (Input.rest_ne_nil hk)
  · rename_i hk
    have hne := Input.rest_ne_nil hk
    exact (binding_fills _ i.next).mono fun _ _ _ h => h.mono fun _ _ _ h => h.covers_behind hne
  · rename_i hk
    have hne := Input.rest_ne_nil hk
    exact (binding_fills _ i.next).mono fun _ _ _ h => h.mono fun _ _ _ h => h.covers_behind hne
  · rename_i hk
    simp only [ensures_bind, ensures_next, ensures_quietly, ensures_runFrom, ensures_pure]
    refine (expr_covers .ternary .pattern i.next).mono fun e rs j he => ?_
    refine (caseValue_fills rs.isEmpty j).mono fun init rs' k hinit => ?_
    exact (he.fills.append hinit).covers_behind (Input.rest_ne_nil hk)
  · simp only [ensures_bind, ensures_runFrom, ensures_pure]
    refine (expr_covers .full _ i).mono fun e rs j he => ?_
    refine ⟨he.ahead, rfl, fun hempty => ?_, he.across.row⟩
    refine isError_of_nested he.across.nested ?_
    rw [← Expr.place_outline, he.across.place]
    exact hempty

theorem conditions_fills (owner : Owner) (i : Input) :
    (conditions owner).Ensures i fun cs _ j => Fills i (cs.map Clause.outline) j := by
  have hloop : ∀ j, (collect (clauseBehindComma? owner)).Ensures j fun cs _ k =>
      Fills j (cs.map Clause.outline) k := by
    refine ensures_collect fun j => ?_
    simp only [clauseBehindComma?, ensures_bind, ensures_eat, ↓reduceIte, Bool.false_eq_true]
    refine ⟨fun hcomma => ?_, fun _ => .of_ahead (.refl j)⟩
    have hlt := Input.position_lt_next (Input.rest_ne_nil hcomma)
    refine (clause_covers owner j.next).mono fun c rs k hc => ?_
    have hfills := Fills.after_ahead j.ahead_next hc.fills
    have hle := hc.fills.position_le
    exact ⟨hfills.ahead.length_lt (by omega), fun cs rs' l hcs => hfills.append hcs⟩
  simp only [conditions, ensures_bind, ensures_pure]
  refine (clause_covers owner i).mono fun c rs j hc => ?_
  exact (hloop j).mono fun cs rs' k hcs => hc.fills.append hcs

/-! ## 3. Blocks -/

theorem restOfLine_ahead (c : Construct) (i : Input) :
    (restOfLine c).Ensures i fun _ _ j => i.Ahead j :=
  (restOfLine_reads (C := fun _ => True) trivial i).mono fun _ _ _ h => h.1.ahead

theorem headerTail_ahead (owner : Owner) (stop : TagSet) (i : Input) :
    (headerTail owner stop).Ensures i fun _ _ j => i.Ahead j :=
  (headerTail_moves owner stop i).mono fun _ _ _ h => h.ahead

/-- What is asked of one round of a loop over statements. -/
def RoundFills (i : Input) : Option (Option (Stmt Run)) → List (Report Run) → Input → Prop
  | none, _, j => i.Ahead j
  | some s?, _, j => ReadsRow i s?.toList j ∧ i.position < j.position

/-- **A loop over statements reads a row.** -/
theorem collect_fills {item : Parser (Option (Option (Stmt Run)))} {m : Nat}
    (hitem : ∀ i, i.rest.length ≤ m → item.Ensures i (RoundFills i)) :
    ∀ i, i.rest.length ≤ m → (collect item).Ensures i fun items _ j =>
      ReadsRow i (items.filterMap id) j := by
  refine ensures_collect_upTo fun i hi => (hitem i hi).mono fun s?? rs j h => ?_
  cases s?? with
  | none => exact .nil h
  | some s? =>
    obtain ⟨hrow, hlt⟩ := h
    refine ⟨hrow.fills.ahead.length_lt hlt, fun items rs' k hitems => ?_⟩
    cases s? with
    | none => exact ⟨.after_ahead hrow.fills.ahead hitems.fills, hitems.chained⟩
    | some s => exact hrow.append hitems

section Blocks

variable {stmt : Parser (Stmt Run)} {m : Nat}
variable (hstmt : ∀ i, i.rest.length < m → TagSet.statementStart.contains i.kind = true →
  stmt.Ensures i fun s _ j => CoversStmt i s j)

include hstmt

/-- An item takes a terminal, whether it gives a statement or not. -/
theorem item_fills (c : Construct) (hm : i.rest.length < m) (hne : i.rest ≠ []) :
    (item stmt c).Ensures i fun s? _ j =>
      ReadsRow i s?.toList j ∧ i.position < j.position := by
  simp only [item, ensures_bind, ensures_kind]
  split
  · rename_i hstart
    rw [ensures_bind]
    refine (hstmt i hm hstart).mono fun s rs j hs => ?_
    rw [ensures_bind]
    refine (restOfLine_ahead c j).mono fun _ rs' k hk => ?_
    have hlt := hs.position_lt
    have hle := hk.position_le
    exact ⟨⟨hs.covers.fills.then_ahead hk, hs.chained, trivial⟩, Nat.lt_of_lt_of_le hlt hle⟩
  · rw [ensures_bind]
    refine (junk_reads c hne).mono fun _ rs j hj => ?_
    obtain ⟨n, hpos, hn, rfl, -⟩ := hj
    rw [ensures_bind]
    refine (restOfLine_ahead c _).mono fun _ rs' k hk => ?_
    have hlt : i.position < (i.skip n).position := Nat.lt_add_of_pos_right hpos
    exact ⟨.nil ((Input.ahead_skip hn).trans hk), Nat.lt_of_lt_of_le hlt hk.position_le⟩

theorem blockItem?_fills (opener : Nat) (hm : i.rest.length < m) :
    (blockItem? stmt opener).Ensures i (RoundFills i) := by
  simp only [blockItem?, ensures_bind, ensures_eat, ensures_atEnd, ↓reduceIte,
    Bool.false_eq_true]
  refine ⟨fun _ => i.ahead_next, fun _ => ⟨fun _ => ?_, fun hne => ?_⟩⟩
  · exact unclosed_ahead .block opener _ i
  · exact item_fills hstmt .block hm hne

/-- **A block is read nested.** -/
theorem block_fills (hm : i.rest.length ≤ m) (hopen : i.kind = .fixed .lbrace) :
    (block stmt).Ensures i fun b _ j => FillsBody i b j := by
  have hlt := Input.position_lt_next (Input.rest_ne_nil hopen)
  have hshort := i.ahead_next.length_lt hlt
  simp only [block, ensures_bind, ensures_position, ensures_next, ensures_runFrom, ensures_pure]
  refine (collect_fills (m := m - 1) (fun k hk => blockItem?_fills hstmt i.position (by omega))
    i.next (by omega)).mono fun items rs j hitems => ?_
  constructor
  · rw [Stmt.bodyOutlines, Stmt.outlines_eq_map]
    exact (hitems.fills.covers_behind (Input.rest_ne_nil hopen)).fills
  · exact hitems.chained

theorem body_fills (hm : i.rest.length ≤ m) (owner : Owner) :
    (body stmt owner).Ensures i fun b _ j => FillsBody i b j := by
  simp only [body, ensures_bind, ensures_check, ↓reduceIte, Bool.false_eq_true]
  refine (headerTail_ahead owner _ i).mono fun _ rs j hj => ?_
  have hstop := hj.stop_eq
  have hle := hj.position_le
  refine ⟨fun hopen => ?_, fun _ => ?_⟩
  · exact (block_fills hstmt (by omega) hopen).mono fun b rs' k hb =>
      ⟨.after_ahead hj hb.fills, hb.chained⟩
  · exact ⟨.of_ahead hj, trivial⟩

/-! ## 4. Statements -/

theorem alternative_fills (hm : i.rest.length < m) :
    (alternative stmt).Ensures i fun a _ j =>
      Fills i (Stmt.alternativeOutlines a) j ∧ Stmt.AlternativeChained a := by
  simp only [alternative, ensures_bind, ensures_check, ↓reduceIte, Bool.false_eq_true,
    ensures_pure]
  refine ⟨fun hif => ?_, fun _ => ?_⟩
  · refine (hstmt i hm (by rw [hif]; decide)).mono fun s rs j hs => ?_
    exact ⟨hs.covers.fills, hs.isIf hif, hs.chained⟩
  · exact (body_fills hstmt (Nat.le_of_lt hm) .ifStatement).mono fun b rs j hb =>
      ⟨hb.fills, hb.chained⟩

theorem ifStatement_covers (hm : i.rest.length ≤ m) (hne : i.rest ≠ []) :
    (ifStatement stmt).Ensures i fun s _ j => CoversStmt i s j := by
  have hlt := Input.position_lt_next hne
  have hstop := i.ahead_next.stop_eq
  simp only [ifStatement, ensures_bind, ensures_position, ensures_next, ensures_eat, ↓reduceIte,
    Bool.false_eq_true, ensures_runFrom, ensures_pure]
  refine (conditions_fills _ i.next).mono fun cs rs j hcs => ?_
  have hstop₁ := hcs.ahead.stop_eq
  have hij := hcs.position_le
  refine (body_fills hstmt (by omega) _).mono fun b rs' k hb => ?_
  have hstop₂ := hb.fills.ahead.stop_eq
  have hjk := hb.fills.position_le
  have hfront := hcs.append hb.fills
  refine ⟨fun helse => ?_, fun _ => ?_⟩
  · have hkl := Input.position_lt_next (Input.rest_ne_nil helse)
    have hstop₃ := k.ahead_next.stop_eq
    refine (alternative_fills hstmt (by omega)).mono fun a rs'' l ha => ?_
    refine ⟨?_, ⟨hb.chained, ha.2⟩, fun _ => rfl⟩
    rw [Stmt.outline, ← List.append_assoc]
    exact (hfront.append (.after_ahead k.ahead_next ha.1)).covers_behind hne
  · refine ⟨?_, ⟨hb.chained, trivial⟩, fun _ => rfl⟩
    rw [Stmt.outline, ← List.append_assoc]
    exact (hfront.append (.of_ahead (.refl k))).covers_behind hne

theorem guardBody_fills (hm : i.rest.length ≤ m) :
    (guardBody stmt).Ensures i fun b _ j => FillsBody i b j := by
  simp only [guardBody, ensures_bind, ensures_eat, ensures_check, ↓reduceIte, Bool.false_eq_true,
    ensures_reportHere, ensures_pure]
  have hstop := i.ahead_next.stop_eq
  have hle := i.ahead_next.position_le
  refine ⟨fun _ => ?_, fun _ => ⟨fun hopen => ?_, fun _ => ⟨.of_ahead (.refl i), trivial⟩⟩⟩
  · exact (body_fills hstmt (by omega) _).mono fun b rs j hb =>
      ⟨.after_ahead i.ahead_next hb.fills, hb.chained⟩
  · exact block_fills hstmt hm hopen

theorem guardStatement_covers (hm : i.rest.length ≤ m) (hne : i.rest ≠ [])
    (hk : i.kind ≠ .fixed .ifWord) :
    (guardStatement stmt).Ensures i fun s _ j => CoversStmt i s j := by
  have hlt := Input.position_lt_next hne
  have hstop := i.ahead_next.stop_eq
  simp only [guardStatement, ensures_bind, ensures_position, ensures_next, ensures_runFrom,
    ensures_pure]
  refine (conditions_fills _ i.next).mono fun cs rs j hcs => ?_
  refine (headerTail_ahead _ _ j).mono fun _ rs' k hk' => ?_
  have hstop₁ := hcs.ahead.stop_eq
  have hstop₂ := hk'.stop_eq
  have hij := hcs.position_le
  have hjk := hk'.position_le
  refine (guardBody_fills hstmt (by omega)).mono fun b rs'' l hb => ?_
  have hfills := (hcs.then_ahead hk').append hb.fills
  exact ⟨hfills.covers_behind hne, hb.chained, fun h => absurd h hk⟩

theorem whileStatement_covers (hm : i.rest.length ≤ m) (hne : i.rest ≠ [])
    (hk : i.kind ≠ .fixed .ifWord) :
    (whileStatement stmt).Ensures i fun s _ j => CoversStmt i s j := by
  have hlt := Input.position_lt_next hne
  have hstop := i.ahead_next.stop_eq
  simp only [whileStatement, ensures_bind, ensures_position, ensures_next, ensures_runFrom,
    ensures_pure]
  refine (conditions_fills _ i.next).mono fun cs rs j hcs => ?_
  have hstop₁ := hcs.ahead.stop_eq
  have hij := hcs.position_le
  refine (body_fills hstmt (by omega) _).mono fun b rs' k hb => ?_
  exact ⟨(hcs.append hb.fills).covers_behind hne, hb.chained, fun h => absurd h hk⟩

end Blocks

theorem declaration_covers (mutable : Bool) (hne : i.rest ≠ []) (hk : i.kind ≠ .fixed .ifWord) :
    (declaration mutable).Ensures i fun s _ j => CoversStmt i s j := by
  simp only [declaration, ensures_bind, ensures_position, ensures_next, ensures_runFrom,
    ensures_pure]
  refine (binding_fills _ i.next).mono fun b rs j hb => hb.mono fun init rs' k h => ?_
  exact ⟨h.covers_behind hne, trivial, fun h => absurd h hk⟩

theorem returnStatement_covers (hne : i.rest ≠ []) (hk : i.kind ≠ .fixed .ifWord) :
    returnStatement.Ensures i fun s _ j => CoversStmt i s j := by
  simp only [returnStatement, ensures_bind, ensures_position, ensures_next, ensures_runFrom,
    ensures_pure]
  have hvalue : returnValue?.Ensures i.next fun e? _ j =>
      Fills i.next (e?.toList.map Expr.outline) j := by
    have hnone : Fills i.next ((none : Option (Expr Run)).toList.map Expr.outline) i.next :=
      .of_ahead (.refl _)
    simp only [returnValue?, ensures_bind, ensures_atEnd, ensures_atLineStart, ↓reduceIte,
      Bool.false_eq_true]
    refine ⟨fun _ => hnone, fun _ => ?_⟩
    split
    · exact hnone
    · simp only [ensures_bind, ensures_check, ↓reduceIte, Bool.false_eq_true]
      refine ⟨fun _ => hnone, fun _ => ?_⟩
      exact (expr_covers .full .returned i.next).mono fun e rs j he => he.fills
  refine hvalue.mono fun e? rs j h => ?_
  exact ⟨h.covers_behind hne, trivial, fun h => absurd h hk⟩

/-- An expression that can begin takes a terminal, so a statement made of one is not empty. -/
theorem expressionStatement_covers (hstart : TagSet.expressionStart.contains i.kind = true) :
    expressionStatement.Ensures i fun s _ j => CoversStmt i s j := by
  simp only [expressionStatement, ensures_bind, ensures_position, ensures_runFrom, ensures_pure]
  refine ((expr_covers .full .statement i).and (expr_reads .full .statement i)).mono
    fun e rs j h => ?_
  obtain ⟨hcovers, -, hstarts⟩ := h
  refine ⟨hcovers.fills.covers (hstarts hstart), trivial, fun hk => ?_⟩
  rw [hk] at hstart
  exact absurd hstart (by decide)

theorem statement_covers {stmt : Parser (Stmt Run)} {m : Nat}
    (hstmt : ∀ i, i.rest.length < m → TagSet.statementStart.contains i.kind = true →
      stmt.Ensures i fun s _ j => CoversStmt i s j)
    (hm : i.rest.length ≤ m) (hstart : TagSet.statementStart.contains i.kind = true) :
    (statement stmt).Ensures i fun s _ j => CoversStmt i s j := by
  simp only [statement, ensures_bind, ensures_kind]
  split
  case h_1 hk => exact ifStatement_covers hstmt hm (Input.rest_ne_nil hk)
  case h_2 hk => exact guardStatement_covers hstmt hm (Input.rest_ne_nil hk) (by simp [hk])
  case h_3 hk => exact whileStatement_covers hstmt hm (Input.rest_ne_nil hk) (by simp [hk])
  case h_4 hk => exact declaration_covers false (Input.rest_ne_nil hk) (by simp [hk])
  case h_5 hk => exact declaration_covers true (Input.rest_ne_nil hk) (by simp [hk])
  case h_6 hk => exact returnStatement_covers (Input.rest_ne_nil hk) (by simp [hk])
  case h_7 hif hguard hwhile hlet hvar hreturn =>
    have hk := isStatementKeyword_eq_false hif hguard hwhile hlet hvar hreturn
    exact expressionStatement_covers (expressionStart_of_statementStart hstart hk)

theorem stmtWithin_covers (n : Nat) (i : Input) (h : i.rest.length < n)
    (hstart : TagSet.statementStart.contains i.kind = true) :
    (stmtWithin n).Ensures i fun s _ j => CoversStmt i s j := by
  induction n generalizing i with
  | zero => exact absurd h (Nat.not_lt_zero _)
  | succ n ih => exact statement_covers ih (Nat.le_of_lt_succ h) hstart

/-- **A statement is read nested.** -/
theorem stmt_covers (i : Input) (hstart : TagSet.statementStart.contains i.kind = true) :
    stmt.Ensures i fun s _ j => CoversStmt i s j :=
  (stmtWithin_covers (i.rest.length + 1) i (Nat.lt_succ_self _) hstart).of_eq rfl

theorem topLevelItem?_fills (i : Input) : topLevelItem?.Ensures i (RoundFills i) := by
  simp only [topLevelItem?, ensures_bind, ensures_atEnd, ↓reduceIte, Bool.false_eq_true]
  refine ⟨fun _ => .refl i, fun hne => ?_⟩
  exact item_fills (fun j _ => stmt_covers j) .topLevel (Nat.lt_succ_self _) hne

/-- **The top level is read in a row.** -/
theorem topLevel_fills (i : Input) : topLevel.Ensures i fun ss _ j => ReadsRow i ss j := by
  simp only [topLevel, ensures_bind, ensures_pure]
  exact collect_fills (fun j _ => topLevelItem?_fills j) i (Nat.le_refl _)

end Parser

/-! ## 5. Outcomes -/

/-- **The spans of an outcome fit its source.**  Its trees, however much of the source is malformed,
have spans that begin and end with tokens and lie inside each other; those of neighbours follow each
other, and only what stands for something that is missing may be empty. -/
theorem Outcome.outlines_fit (source : String) (limit : Nat) :
    ∃ ss, (∀ ss', (ofSource source limit).Holds ss' ↔ ss' = ss) ∧
      (Stmt.outlines ss).Pairwise (fun o o' => o.place.stop ≤ o'.place.start) ∧
      ∀ o ∈ Stmt.outlines ss, o.Fits source := by
  have hread := Parser.topLevel_fills (Input.start (Terminal.ofTokens (Token.ofSource source)))
  have hstop := hread.fills.ahead.stop_eq
  have hlength := congrArg List.length (Token.terminals_ofSource source)
  have hrow := hread.fills.row
  rw [List.length_map] at hlength
  change _ + _ = 0 + (Terminal.ofTokens (Token.ofSource source)).length at hstop
  refine ⟨_, holds_ofSource_iff source limit, ?_⟩
  rw [Stmt.outlines_mapAll, Outline.mapAll_eq_map, Stmt.outlines_eq_map]
  refine ⟨hrow.apart_locate (by omega), fun o' ho' => ?_⟩
  obtain ⟨o, ho, rfl⟩ := List.mem_map.mp ho'
  obtain ⟨hnested, -, hlast⟩ := hrow.bounds o ho
  exact hnested.fits o (by omega)

end PlatformGate
