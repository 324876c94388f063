/-
# Rows of statements tile what was read

A block and the top level are read row by row: a statement if one can begin, and leftovers up to the
end of the line.  `Whole.Rows` says of some rows what the tokens of a source are to each other: the
statements and the leftovers tile all there is, statements begin lines, and inside every statement
the blocks are as they should be.  One row is added by `Rows.cons`; so the loops over blocks and over
the top level have their rows by induction, and a statement has its blocks by recursion.
-/
import PlatformGate.Proofs.Parse.Unbounded
import PlatformGate.Proofs.Tiling.Runs

namespace PlatformGate

/-! ## 1. Rows -/

namespace Whole

/-- The statements read in a row of lines from `i` up to the index `hi`. -/
structure Rows (w : Whole) (c : Construct) (i : Input) (ss : List (Stmt Run)) (hi : Nat) :
    Prop where
  tiled : w.Tiled c ⟨i.position, hi⟩ (ss.map Stmt.place)
  blocks : ∀ s ∈ ss, s.EveryBlock w.Braced
  /-- No leftovers of the top level are a part of a statement. -/
  apart : ∀ s ∈ ss, ∀ p ∈ w.leftovers .topLevel, p.liesIn s.place = false
  lines : ∀ s ∈ ss, w.At s.place.first (fun t => t.lineStart = true) ∨ s.place.first = i.position
  /-- Behind the end of a line all of them begin one. -/
  fresh : EndsLine c i → ∀ s ∈ ss, w.At s.place.first fun t => t.lineStart = true

/-- One row: a statement or none, and the leftovers behind it. -/
structure Row (w : Whole) (c : Construct) (i : Input) (s? : Option (Stmt Run)) (hi : Nat) :
    Prop where
  tiled : w.Tiled c ⟨i.position, hi⟩ (s?.toList.map Stmt.place)
  blocks : ∀ s ∈ s?, s.EveryBlock w.Braced
  apart : ∀ s ∈ s?, ∀ p ∈ w.leftovers .topLevel, p.liesIn s.place = false
  first : ∀ s ∈ s?, s.place.first = i.position

variable {w : Whole} {c : Construct} {i j : Input}

theorem rows_nil (hcut : w.Cut i.position) : w.Rows c i [] i.position where
  tiled := by
    refine ⟨[], ?_, rfl⟩
    rw [List.map_nil, own_point hcut]
    exact .refl _
  blocks := by simp
  apart := by simp
  lines := by simp
  fresh := by simp

/-- **One row in front of others.** -/
theorem Rows.cons {s? : Option (Stmt Run)} {ss : List (Stmt Run)} {hi : Nat}
    (h : w.Row c i s? j.position) (hline : EndsLine c i → i.atLineStart = true)
    (hat : i.atLineStart = true → w.At i.position fun t => t.lineStart = true)
    (hrest : w.Rows c j ss hi) (hends : EndsLine c j) (hcut : w.Cut j.position) :
    w.Rows c i (s?.toList ++ ss) hi where
  tiled := by
    rw [List.map_append]
    exact h.tiled.append hrest.tiled hcut
  blocks := by
    intro s hs
    rcases List.mem_append.mp hs with hs | hs
    · exact h.blocks s (Option.mem_toList.mp hs)
    · exact hrest.blocks s hs
  apart := by
    intro s hs
    rcases List.mem_append.mp hs with hs | hs
    · exact h.apart s (Option.mem_toList.mp hs)
    · exact hrest.apart s hs
  lines := by
    intro s hs
    rcases List.mem_append.mp hs with hs | hs
    · exact .inr (h.first s (Option.mem_toList.mp hs))
    · exact .inl (hrest.fresh hends s hs)
  fresh := by
    intro hi s hs
    rcases List.mem_append.mp hs with hs | hs
    · rw [h.first s (Option.mem_toList.mp hs)]
      exact hat (hline hi)
    · exact hrest.fresh hends s hs

end Whole

/-- The statements of a row and of the rows behind it. -/
theorem filterMap_id_cons (s? : Option (Stmt Run)) (items : List (Option (Stmt Run))) :
    (s? :: items).filterMap id = s?.toList ++ items.filterMap id := by
  cases s? <;> rfl

/-- Where a row begins, the end of a line is the start of one. -/
theorem EndsLine.atLineStart {c : Construct} {i : Input} (h : EndsLine c i) (hne : i.rest ≠ [])
    (hclose : c = .block → i.kind ≠ .fixed .rbrace) : i.atLineStart = true := by
  rcases h with hnil | hline | ⟨hc, hkind⟩
  · exact absurd hnil hne
  · exact hline
  · exact absurd hkind (hclose hc)

/-- What the rounds of a block come to, from `i` up to `j`.  They are rows up to where the block
closes, and behind that nothing is left over. -/
def BlockRows (opener : Nat) (i : Input) (items : List (Option (Stmt Run)))
    (rs : List (Report Run)) (j : Input) : Prop :=
  ∀ w : Whole, w.Part i rs j →
    ∃ stop, w.Closes opener stop j.position ∧ w.Cut stop ∧
      w.Rows .block i (items.filterMap id) stop ∧ w.own .block ⟨stop, j.position⟩ [] = []

namespace Parser

variable {i : Input}

/-! ## 2. One row -/

/-- The rest of a line is tiled by leftovers. -/
theorem restOfLine_tiled (c : Construct) (i : Input) :
    (restOfLine c).Ensures i fun _ rs j => ∀ w : Whole, w.Part i rs j →
      w.Tiled c ⟨i.position, j.position⟩ [] := by
  have hloop : ∀ k, (collect (trailing? c)).Ensures k fun _ rs l =>
      Moves (fun _ => True) k rs l ∧ ∀ w : Whole, w.Part k rs l →
        w.Tiled c ⟨k.position, l.position⟩ [] := by
    refine ensures_collect fun k => (trailing?_reads c k).mono fun u? rs l h => ?_
    cases u? with
    | none =>
      obtain ⟨rfl, rfl, -⟩ := h
      exact ⟨.refl _, fun w hw => hw.tiled_nil⟩
    | some _ =>
      obtain ⟨n, hpos, hn, rfl, rfl⟩ := h
      have hmoves := Moves.leftover (C := fun _ => True) (c := c) trivial hpos hn
      have hlt : k.position < (k.skip n).position := Nat.lt_add_of_pos_right hpos
      refine ⟨hmoves.ahead.length_lt hlt, ?_⟩
      intro _ rs' l ⟨hrest, htiled⟩
      refine ⟨hmoves.trans hrest, ?_⟩
      intro w hw
      have hright := hw.right hmoves
      exact Whole.Tiled.append ((hw.left hrest).tiled_leftover hlt) (htiled w hright)
        (hright.cut hrest)
  simp only [restOfLine, ensures_bind, ensures_pure, List.append_nil]
  exact (hloop i).mono fun _ _ _ h => h.2

section Blocks

variable {stmt : Parser (Stmt Run)} {m : Nat}
variable (hstmt : ∀ i, i.rest.length < m → stmt.Ensures i (ReadsStmt i))
variable (hblocks : ∀ i, i.rest.length < m →
  stmt.Ensures i fun s rs j => ∀ w : Whole, w.Part i rs j → s.EveryBlock w.Braced)

include hstmt hblocks

/-- **An item is a row.** -/
theorem item_tiled (c : Construct) (hm : i.rest.length < m) (hne : i.rest ≠ []) :
    (item stmt c).Ensures i fun s? rs j => ∀ w : Whole, w.Part i rs j →
      w.Row c i s? j.position := by
  simp only [item, ensures_bind, ensures_kind, List.nil_append]
  split
  · rename_i hstart
    simp only [ensures_bind, ensures_pure, List.append_nil]
    refine ((hstmt i hm).and (hblocks i hm)).mono fun s rs j h => ?_
    obtain ⟨hs, hsb⟩ := h
    have hline := (restOfLine_reads (C := fun _ => True) (c := c) trivial j).and
      (restOfLine_tiled c j)
    refine hline.mono fun _ rs' k h => ?_
    obtain ⟨⟨hk, -⟩, hkt⟩ := h
    intro w hw
    have hlt := hs.starts hstart
    have hleft := hw.left hk
    have hright := hw.right hs.moves
    constructor
    · have hone : w.Tiled c ⟨i.position, j.position⟩ [s.place] := by
        rw [hs.spans.place]
        exact Whole.tiled_stmt hlt
      exact hone.append (hkt w hright) (hright.cut hk)
    · rintro _ ⟨⟩
      exact hsb w hleft
    · rintro _ ⟨⟩ p hp
      rw [← Bool.not_eq_true, hs.spans.place]
      intro hin
      obtain ⟨r, hr, hc, rfl⟩ := Whole.mem_leftovers.mp hp
      have hnested := hs.moves.causes r (hleft.mem_of_liesIn hr hc hin)
      rw [hc] at hnested
      exact hnested
    · rintro _ ⟨⟩
      rw [hs.spans.place]
  · simp only [ensures_bind, ensures_pure, List.append_nil]
    refine (junk_reads c hne).mono fun _ rs j hj => ?_
    obtain ⟨n, hpos, hn, rfl, rfl⟩ := hj
    have hmoves := Moves.leftover (C := fun _ => True) (c := c) trivial hpos hn
    have hlt : i.position < (i.skip n).position := Nat.lt_add_of_pos_right hpos
    have hline := (restOfLine_reads (C := fun _ => True) (c := c) trivial (i.skip n)).and
      (restOfLine_tiled c (i.skip n))
    refine hline.mono fun _ rs' k h => ?_
    obtain ⟨⟨hk, -⟩, hkt⟩ := h
    intro w hw
    have hright := hw.right hmoves
    constructor
    · exact Whole.Tiled.append ((hw.left hk).tiled_leftover hlt) (hkt w hright) (hright.cut hk)
    · rintro _ ⟨⟩
    · rintro _ ⟨⟩
    · rintro _ ⟨⟩

/-! ## 3. Blocks -/

/-- One round of a block: a row, or the end of the block. -/
theorem blockItem?_tiled (opener : Nat) (hm : i.rest.length < m) :
    (blockItem? stmt opener).Ensures i fun s?? rs j =>
      match s?? with
      | none => (∀ r ∈ rs, r.cause ≠ .leftover .block) ∧
          ∀ w : Whole, w.Part i rs j → w.Closes opener i.position j.position
      | some s? => i.rest ≠ [] ∧ i.kind ≠ .fixed .rbrace ∧ EndsLine .block j ∧
          ∀ w : Whole, w.Part i rs j → w.Row .block i s? j.position := by
  simp only [blockItem?, ensures_bind, ensures_eat, ensures_atEnd, ↓reduceIte,
    Bool.false_eq_true, List.nil_append, ensures_pure, List.append_nil]
  refine ⟨fun hclose => ?_, fun hopen => ⟨fun hend => ?_, fun hne => ?_⟩⟩
  · have hne := Input.rest_ne_nil hclose
    refine ⟨by simp, ?_⟩
    intro w hw
    left
    obtain ⟨t, ht, hkind⟩ := hw.at_kind hne
    exact ⟨Input.position_next hne, t, ht, hkind.trans hclose⟩
  · rw [ensures_unclosed, hend]
    refine ⟨by simp, ?_⟩
    intro w hw
    right
    exact ⟨rfl, hw.position_eq hend, _, hw.mem (List.mem_singleton_self _), rfl⟩
  · have hitem := (item_reads hstmt (C := fun _ => True) (fun _ _ => trivial) (c := .block)
      trivial hm hne).and (item_tiled hstmt hblocks .block hm hne)
    exact hitem.mono fun _ _ _ h => ⟨hne, hopen, h.1.2.2.1, h.2⟩

/-- The rows of a block, behind its opening brace. -/
theorem collect_blockItems_tiled {opener n : Nat} (hn : n < m) :
    ∀ i, i.rest.length ≤ n → (collect (blockItem? stmt opener)).Ensures i fun items rs j =>
      opener < i.position → Moves Cause.Nested i rs j ∧ BlockRows opener i items rs j := by
  refine ensures_collect_upTo fun k hk => ?_
  have hadv := blockItem?_advances hstmt hn opener k hk
  have hitem := blockItem?_tiled hstmt hblocks opener (Nat.lt_of_le_of_lt hk hn)
  by_cases hp : opener < k.position
  · have hreads := blockItem?_reads hstmt (Nat.lt_of_le_of_lt hk hn) hp
    refine (hadv.and (hreads.and hitem)).mono fun s?? rs l ⟨hadv, hread, hrow⟩ => ?_
    cases s?? with
    | none =>
      obtain ⟨hquiet, hcloses⟩ := hrow
      intro _
      refine ⟨hread, fun w hw => ?_⟩
      have hcut := hw.cut hread
      exact ⟨k.position, hcloses w hw, hcut, Whole.rows_nil hcut, hw.own_eq_nil hquiet []⟩
    | some s? =>
      refine ⟨hadv rfl, fun items rs' l' hitems _ => ?_⟩
      obtain ⟨hmoves, hlt, -⟩ := hread
      obtain ⟨hne, hopen, hends, hrow⟩ := hrow
      obtain ⟨hmoves', hrows⟩ := hitems (by omega)
      refine ⟨hmoves.trans hmoves', fun w hw => ?_⟩
      have hright := hw.right hmoves
      obtain ⟨stop, hcloses, hcut, hrest, hown⟩ := hrows w hright
      refine ⟨stop, hcloses, hcut, ?_, hown⟩
      rw [filterMap_id_cons]
      exact Whole.Rows.cons (hrow w (hw.left hmoves')) (fun h => h.atLineStart hne fun _ => hopen)
        hw.at_lineStart hrest hends (hright.cut hmoves')
  · refine hadv.mono fun s?? rs l hadv => ?_
    cases s?? with
    | none => exact fun h => absurd h hp
    | some s? => exact ⟨hadv rfl, fun _ _ _ _ h => absurd h hp⟩

/-- **Every block in a body is as it should be.**  Its leftovers stand behind the opening brace and in
front of where it closes. -/
theorem block_tiled (hm : i.rest.length ≤ m) (hopen : i.kind = .fixed .lbrace) :
    (block stmt).Ensures i fun b rs j => ∀ w : Whole, w.Part i rs j →
      Stmt.BodyEveryBlock w.Braced b := by
  have hne := Input.rest_ne_nil hopen
  have hlt := Input.position_lt_next hne
  have hshort := i.ahead_next.length_lt hlt
  have hloop : ∀ k, k.rest.length ≤ i.next.rest.length →
      (collect (blockItem? stmt i.position)).Ensures k _ :=
    collect_blockItems_tiled hstmt hblocks (Nat.lt_of_lt_of_le hshort hm)
  simp only [block, ensures_bind, ensures_position, ensures_next, ensures_runFrom, ensures_pure,
    List.nil_append, List.append_nil]
  refine (hloop i.next (Nat.le_refl _)).mono fun items rs j h => ?_
  obtain ⟨hmoves, hrows⟩ := h hlt
  intro w hw
  have hinner := hw.behind_ahead i.ahead_next
  obtain ⟨stop, hcloses, hcut, hrows, hown⟩ := hrows w hinner
  constructor
  · constructor
    · obtain ⟨t, ht, hkind⟩ := hw.at_kind hne
      exact ⟨t, ht, hkind.trans hopen⟩
    · refine ⟨stop, hcloses, ?_⟩
      obtain ⟨tiles, hperm, htile⟩ := hrows.tiled
      rw [Input.position_next hne] at hperm htile
      refine ⟨tiles, hperm.trans (List.Perm.append_left _ ?_), htile⟩
      have htile : Run.Tile (i.position + 1) stop tiles := htile
      have hstop : stop ≤ j.position := by
        rcases hcloses with ⟨hpast, -⟩ | ⟨hpast, -⟩ <;> omega
      have hquiet : w.Part i ([] ++ rs) j := hw
      have hfront := (hquiet.left hmoves).own_eq_nil (c := .block) (by simp) []
      rw [Input.position_next hne] at hfront
      have hafter : w.Cut (i.position + 1) := by
        rw [← Input.position_next hne]
        exact hinner.cut hmoves
      refine (Whole.own_inner hafter hcut (Nat.le_succ _) htile.le hstop ?_ hfront hown).symm
      intro s hs
      have hbounds := htile.bounds s (hperm.mem_iff.mpr (List.mem_append_left _ hs))
      exact ⟨hbounds.1, hbounds.2.2⟩
    · intro p hp
      obtain ⟨s, hs, rfl⟩ := List.mem_map.mp hp
      rw [← Input.position_next hne]
      exact hrows.lines s hs
  · rw [Stmt.everyBlockAll_iff]
    exact hrows.blocks

theorem body_tiled (hm : i.rest.length ≤ m) (owner : Owner) :
    (body stmt owner).Ensures i fun b rs j => ∀ w : Whole, w.Part i rs j →
      Stmt.BodyEveryBlock w.Braced b := by
  simp only [body, ensures_bind, ensures_check, ↓reduceIte, Bool.false_eq_true,
    List.nil_append]
  refine (headerTail_moves owner _ i).mono fun _ rs j hj => ?_
  have hle := hj.ahead.stop_eq
  have hij := hj.ahead.position_le
  refine ⟨fun hopen => ?_, fun _ => ?_⟩
  · refine (block_tiled hstmt hblocks (by omega) hopen).mono fun b rs' k hb => ?_
    intro w hw
    exact hb w (hw.right hj)
  · simp only [ensures_atEnd, ensures_reportHere, ensures_pure, List.append_nil,
      List.nil_append]
    exact ⟨fun _ _ _ => trivial, fun _ _ _ => trivial⟩

/-! ## 4. Statements -/

theorem alternative_tiled (hm : i.rest.length < m) :
    (alternative stmt).Ensures i fun a rs j => ∀ w : Whole, w.Part i rs j →
      Stmt.AlternativeEveryBlock w.Braced a := by
  simp only [alternative, ensures_bind, ensures_check, ↓reduceIte, Bool.false_eq_true,
    List.nil_append, ensures_pure, List.append_nil]
  refine ⟨fun _ => ?_, fun _ => ?_⟩
  · exact hblocks i hm
  · exact body_tiled hstmt hblocks (Nat.le_of_lt hm) .ifStatement

theorem ifStatement_tiled (hm : i.rest.length ≤ m) (hne : i.rest ≠ []) :
    (ifStatement stmt).Ensures i fun s rs j => ∀ w : Whole, w.Part i rs j →
      s.EveryBlock w.Braced := by
  have hlt := Input.position_lt_next hne
  have hstop := i.ahead_next.stop_eq
  simp only [ifStatement, ensures_bind, ensures_position, ensures_next, ensures_eat, ↓reduceIte,
    Bool.false_eq_true, List.nil_append, ensures_runFrom, ensures_pure, List.append_nil]
  refine (conditions_reads _ i.next).mono fun cs rs j hcs => ?_
  have hstop₁ := hcs.1.ahead.stop_eq
  have hij := hcs.1.ahead.position_le
  have hbody := (body_reads hstmt (i := j) (by omega) .ifStatement).and
    (body_tiled hstmt hblocks (by omega) .ifStatement)
  refine hbody.mono fun b rs' k h => ?_
  obtain ⟨hb, hbt⟩ := h
  have hstop₂ := hb.moves.ahead.stop_eq
  have hjk := hb.moves.ahead.position_le
  refine ⟨fun helse => ?_, fun _ => ?_⟩
  · have hkl := Input.position_lt_next (Input.rest_ne_nil helse)
    have hstop₃ := k.ahead_next.stop_eq
    have halternative := (alternative_reads hstmt (i := k.next) (by omega)).and
      (alternative_tiled hstmt hblocks (by omega))
    refine halternative.mono fun a rs'' l h => ?_
    obtain ⟨ha, hat⟩ := h
    intro w hw
    have hrest := (hw.behind_ahead i.ahead_next).right hcs.1
    constructor
    · exact hbt w (hrest.left (.after_ahead k.ahead_next ha.1))
    · exact hat w ((hrest.right hb.moves).behind_ahead k.ahead_next)
  · intro w hw
    exact ⟨hbt w ((hw.behind_ahead i.ahead_next).right hcs.1), trivial⟩

theorem guardBody_tiled (hm : i.rest.length ≤ m) :
    (guardBody stmt).Ensures i fun b rs j => ∀ w : Whole, w.Part i rs j →
      Stmt.BodyEveryBlock w.Braced b := by
  simp only [guardBody, ensures_bind, ensures_eat, ensures_check, ↓reduceIte, Bool.false_eq_true,
    List.nil_append, ensures_reportHere, ensures_pure, List.append_nil]
  have hstop := i.ahead_next.stop_eq
  have hle := i.ahead_next.position_le
  refine ⟨fun _ => ?_, fun _ => ⟨fun hopen => ?_, fun _ => fun _ _ => trivial⟩⟩
  · refine (body_tiled hstmt hblocks (by omega) _).mono fun b rs j hb => ?_
    intro w hw
    exact hb w (hw.behind_ahead i.ahead_next)
  · refine (block_tiled hstmt hblocks hm hopen).mono fun b rs j hb => ?_
    intro w hw
    exact hb w (hw.right (.here (C := fun _ => True) trivial trivial))

theorem guardStatement_tiled (hm : i.rest.length ≤ m) (hne : i.rest ≠ []) :
    (guardStatement stmt).Ensures i fun s rs j => ∀ w : Whole, w.Part i rs j →
      s.EveryBlock w.Braced := by
  have hlt := Input.position_lt_next hne
  have hstop := i.ahead_next.stop_eq
  simp only [guardStatement, ensures_bind, ensures_position, ensures_next, List.nil_append,
    ensures_runFrom, ensures_pure, List.append_nil]
  refine (conditions_reads _ i.next).mono fun cs rs j hcs => ?_
  refine (headerTail_moves _ _ j).mono fun _ rs' k hk => ?_
  have hstop₁ := hcs.1.ahead.stop_eq
  have hstop₂ := hk.ahead.stop_eq
  have hij := hcs.1.ahead.position_le
  have hjk := hk.ahead.position_le
  refine (guardBody_tiled hstmt hblocks (by omega)).mono fun b rs'' l hb => ?_
  intro w hw
  exact hb w (((hw.behind_ahead i.ahead_next).right hcs.1).right hk)

theorem whileStatement_tiled (hm : i.rest.length ≤ m) (hne : i.rest ≠ []) :
    (whileStatement stmt).Ensures i fun s rs j => ∀ w : Whole, w.Part i rs j →
      s.EveryBlock w.Braced := by
  have hlt := Input.position_lt_next hne
  have hstop := i.ahead_next.stop_eq
  simp only [whileStatement, ensures_bind, ensures_position, ensures_next, List.nil_append,
    ensures_runFrom, ensures_pure, List.append_nil]
  refine (conditions_reads _ i.next).mono fun cs rs j hcs => ?_
  have hstop₁ := hcs.1.ahead.stop_eq
  have hij := hcs.1.ahead.position_le
  refine (body_tiled hstmt hblocks (by omega) _).mono fun b rs' k hb => ?_
  intro w hw
  exact hb w ((hw.behind_ahead i.ahead_next).right hcs.1)

theorem statement_tiled (hm : i.rest.length ≤ m) :
    (statement stmt).Ensures i fun s rs j => ∀ w : Whole, w.Part i rs j →
      s.EveryBlock w.Braced := by
  simp only [statement, ensures_bind, ensures_kind, List.nil_append]
  split
  · rename_i hk; exact ifStatement_tiled hstmt hblocks hm (Input.rest_ne_nil hk)
  · rename_i hk; exact guardStatement_tiled hstmt hblocks hm (Input.rest_ne_nil hk)
  · rename_i hk; exact whileStatement_tiled hstmt hblocks hm (Input.rest_ne_nil hk)
  -- the others hold no blocks
  · exact fun _ _ => trivial
  · exact fun _ _ => trivial
  · exact fun _ _ => trivial
  · exact fun _ _ => trivial

end Blocks

/-- **Every block in a statement is as it should be.**  The statements inside a block have fewer
terminals left. -/
theorem stmt_tiled (i : Input) :
    stmt.Ensures i fun s rs j => ∀ w : Whole, w.Part i rs j → s.EveryBlock w.Braced := by
  refine stmt_induction (P := fun p i => p.Ensures i fun s rs j => ∀ w : Whole, w.Part i rs j →
    s.EveryBlock w.Braced) (fun i ih => ?_) i
  exact statement_tiled (fun i _ => stmt_reads i) ih (Nat.le_refl _)

/-! ## 5. The top level -/

/-- One round of the top level is a row, or nothing is left. -/
theorem topLevelItem?_tiled (i : Input) :
    topLevelItem?.Ensures i fun s?? rs j =>
      match s?? with
      | none => True
      | some s? => i.rest ≠ [] ∧ ∀ w : Whole, w.Part i rs j → w.Row .topLevel i s? j.position := by
  simp only [topLevelItem?, ensures_bind, ensures_atEnd, ↓reduceIte, Bool.false_eq_true,
    List.nil_append, ensures_pure, List.append_nil]
  refine ⟨fun _ => trivial, fun hne => ?_⟩
  have hitem := item_tiled (fun i _ => stmt_reads i) (fun i _ => stmt_tiled i) .topLevel
    (Nat.lt_succ_self _) hne
  exact hitem.mono fun _ _ _ h => ⟨hne, h⟩

/-- **The rows of the top level tile the source** from `i` to its end. -/
theorem collect_topLevelItems_tiled :
    ∀ i, (collect topLevelItem?).Ensures i fun items rs j =>
      Moves (fun _ => True) i rs j ∧ ∀ w : Whole, w.Part i rs j →
        w.Rows .topLevel i (items.filterMap id) w.terminals.length := by
  refine ensures_collect fun k => ?_
  refine ((topLevelItem?_reads k).and (topLevelItem?_tiled k)).mono fun s?? rs l ⟨hread, hrow⟩ => ?_
  cases s?? with
  | none =>
    obtain ⟨rfl, rfl, hend⟩ := hread
    refine ⟨.refl _, fun w hw => ?_⟩
    rw [← hw.position_eq hend]
    exact Whole.rows_nil (hw.cut (.refl (C := fun _ => True) _))
  | some s? =>
    obtain ⟨hmoves, hlt, hends, -⟩ := hread
    obtain ⟨hne, hrow⟩ := hrow
    refine ⟨hmoves.ahead.length_lt hlt, fun items rs' l' hitems => ?_⟩
    obtain ⟨hmoves', hrows⟩ := hitems
    refine ⟨hmoves.trans hmoves', fun w hw => ?_⟩
    have hright := hw.right hmoves
    rw [filterMap_id_cons]
    exact Whole.Rows.cons (hrow w (hw.left hmoves')) (fun h => h.atLineStart hne nofun)
      hw.at_lineStart (hrows w hright) hends (hright.cut hmoves')

/-- **All that is read of a source are rows,** from its first terminal to its end. -/
theorem topLevel_tiled (ts : List Terminal) :
    topLevel.Ensures (Input.start ts) fun ss rs _ =>
      Whole.Rows ⟨ts, rs⟩ .topLevel (Input.start ts) ss ts.length := by
  simp only [topLevel, ensures_bind, ensures_pure, List.append_nil]
  refine (collect_topLevelItems_tiled (Input.start ts)).mono fun items rs j h => ?_
  apply h.2
  exact ⟨rfl, Nat.zero_le _, [], [], by simp, by simp, by simp⟩

end Parser

end PlatformGate
