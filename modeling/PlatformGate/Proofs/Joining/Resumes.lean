/-
# What stands below is not damaged

Let the brackets of a source be nested, whatever else is wrong with it, and let another begin with
`guard`, `while` or `return`.  Below the first, the second gives the statements and the diagnostics
that it gives by itself, further on (`Outcome.ofSource_resumes`).

The loop over the top level comes to stand in front of the second source, since no round of it reads
past (`reaches_line`).  From there it does what it does by itself: its first token lies differently
in its line, but a statement keyword is taken without a look at that (`topLevel_head`).
-/
import PlatformGate.Proofs.Arena.Holds
import PlatformGate.Proofs.Joining.Heads
import PlatformGate.Proofs.Joining.Moved
import PlatformGate.Proofs.Joining.ShiftLines
import PlatformGate.Proofs.Joining.StaysLines
import PlatformGate.Proofs.Report.Emit

namespace PlatformGate

namespace Parser

/-! ## 1. Up to the line -/

/-- From `i` the loop over the top level comes to `j`, with these items and these reports. -/
structure Reaches (i : Input) (items : List (Option (Stmt Run))) (rs : List (Report Run))
    (j : Input) : Prop where
  ahead : i.Ahead j
  value : (collect topLevelItem? i).value = items ++ (collect topLevelItem? j).value
  reports : (collect topLevelItem? i).reports = rs ++ (collect topLevelItem? j).reports
  /-- No report begins behind the next terminal. -/
  places : ∀ r ∈ rs, r.place.first ≤ j.position

theorem Reaches.refl (i : Input) : Reaches i [] [] i where
  ahead := .refl i
  value := rfl
  reports := rfl
  places := by simp

/-- One round, and what follows it. -/
theorem Reaches.cons {i j : Input} {s? : Option (Stmt Run)} {items : List (Option (Stmt Run))}
    {rs : List (Report Run)} (hitem : (topLevelItem? i).value = some s?)
    (h : Reaches (topLevelItem? i).next items rs j) :
    Reaches i (s? :: items) ((topLevelItem? i).reports ++ rs) j := by
  have hreads := topLevelItem?_reads i
  unfold Ensures at hreads
  rw [hitem] at hreads
  obtain ⟨hmoves, -, -⟩ := hreads
  have hloop : collect topLevelItem? i =
      ⟨s? :: (collect topLevelItem? (topLevelItem? i).next).value,
        (topLevelItem? i).reports ++ (collect topLevelItem? (topLevelItem? i).next).reports,
        (collect topLevelItem? (topLevelItem? i).next).next⟩ := by
    rw [collect_eq (topLevelItem?_advances _), round, bind_apply]
    simp only [hitem, bind_apply, pure_apply, List.append_nil]
  constructor
  · exact hmoves.ahead.trans h.ahead
  · rw [hloop]
    exact congrArg (s? :: ·) h.value
  · rw [hloop, List.append_assoc]
    exact congrArg ((topLevelItem? i).reports ++ ·) h.reports
  · intro r hr
    rcases List.mem_append.mp hr with hr | hr
    · exact Nat.le_trans (hmoves.placed r hr).2.1 h.ahead.position_le
    · exact h.places r hr

/-- The whole of what is left, from either place. -/
theorem Reaches.topLevel {i j : Input} {items : List (Option (Stmt Run))} {rs : List (Report Run)}
    (h : Reaches i items rs j) :
    (topLevel i).value = items.filterMap id ++ (topLevel j).value ∧
      (topLevel i).reports = rs ++ (topLevel j).reports := by
  simp only [Parser.topLevel, bind_apply, pure_apply, List.append_nil, h.value, h.reports,
    List.filterMap_append, and_self]

/-- **The loop over the top level comes to stand in front of the line.**  A round takes a terminal
and stays in front of it; so at some time nothing else is left. -/
theorem reaches_line {line : List Terminal} (hline : Anchored line) (n : Nat) :
    ∀ i : Input, i.Before line n 0 0 → ∃ items rs j, Reaches i items rs j ∧ j.rest = line := by
  induction n with
  | zero =>
    intro i h
    have hnil := List.length_eq_zero_iff.mp (Nat.le_zero.mp h.1)
    exact absurd hnil (h.rest_ne_nil hline)
  | succ n ih =>
    intro i h
    by_cases hrest : i.rest = line
    · exact ⟨[], [], i, .refl i, hrest⟩
    · have hreads := topLevelItem?_reads i
      have hbefore := before_topLevelItem? hline (n + 1) i ⟨h, hrest⟩
      unfold Ensures at hreads hbefore
      cases hitem : (topLevelItem? i).value with
      | none =>
        rw [hitem] at hreads
        exact absurd hreads.2.2 (h.rest_ne_nil hline)
      | some s? =>
        rw [hitem] at hreads
        obtain ⟨hmoves, hlt, -⟩ := hreads
        have hshort := hmoves.ahead.length_lt hlt
        have hfew : (topLevelItem? i).next.Before line n 0 0 :=
          ⟨Nat.le_of_lt_succ (Nat.lt_of_lt_of_le hshort h.1), hbefore.2⟩
        obtain ⟨items, rs, j, hreaches, hj⟩ := ih _ hfew
        exact ⟨s? :: items, (topLevelItem? i).reports ++ rs, j, hreaches.cons hitem, hj⟩

/-! ## 2. From the line on -/

/-- From its first keyword on a source is read as by itself, further on. -/
theorem topLevel_from {t u : Terminal} (n : Nat) (after : List Terminal) (hkind : u.kind = t.kind)
    (hkeyword : t.kind.isStatementKeyword = true) :
    topLevel ⟨n, u :: after⟩ =
      ⟨(topLevel (Input.start (t :: after))).value.map (Stmt.shift n),
        (topLevel (Input.start (t :: after))).reports.map (Report.map (Run.shift n)),
        (topLevel (Input.start (t :: after))).next.shift n⟩ := by
  have hshift : (⟨n, t :: after⟩ : Input) = (Input.start (t :: after)).shift n := by
    simp [Input.start, Input.shift]
  rw [topLevel_head hkind (statementStart_of_keyword hkeyword), hshift, shifted_topLevel]

/-- **What stands below nested terminals is read as by itself,** further on. -/
theorem topLevel_below {before after : List Terminal} {t u : Terminal}
    (hnested : nested [] before = true) (hkind : u.kind = t.kind)
    (hanchor : t.kind.isFixed Fixed.isAnchor = true) (hline : u.lineStart = true) :
    ∃ ss rs,
      (topLevel (Input.start (before ++ u :: after))).value =
        ss ++ (topLevel (Input.start (t :: after))).value.map (Stmt.shift before.length) ∧
      (topLevel (Input.start (before ++ u :: after))).reports =
        rs ++ (topLevel (Input.start (t :: after))).reports.map
          (Report.map (Run.shift before.length)) ∧
      ∀ r ∈ rs, r.place.first ≤ before.length := by
  have hanchored : Anchored (u :: after) := ⟨u, after, rfl, hline, hkind ▸ hanchor⟩
  have hbefore : (Input.start (before ++ u :: after)).Before (u :: after)
      (before ++ u :: after).length 0 0 :=
    ⟨Nat.le_refl _, before, [], rfl, hnested, Nat.zero_le _, rfl⟩
  obtain ⟨items, rs, j, hreaches, hj⟩ := reaches_line hanchored _ _ hbefore
  have hposition : j.position = before.length := by
    have hstop := hreaches.ahead.stop_eq
    rw [hj] at hstop
    simp only [Input.start, List.length_append] at hstop
    omega
  obtain rfl : j = ⟨before.length, u :: after⟩ := by rw [← hposition, ← hj]
  obtain ⟨hvalue, hreports⟩ := hreaches.topLevel
  rw [topLevel_from _ after hkind (isStatementKeyword_of_anchor hanchor)] at hvalue hreports
  exact ⟨items.filterMap id, rs, hvalue, hreports, hposition ▸ hreaches.places⟩

end Parser

/-! ## 3. Sources -/

namespace Outcome

variable {before after : String} {first : Token String}

theorem not_endOfFile_of_anchor {k : Kind String} (h : k.isFixed Fixed.isAnchor = true) :
    k ≠ .endOfFile := by
  rcases anchor_cases h with rfl | rfl | rfl <;> nofun

/-- All that the top level of a source says and gives lies among its tokens. -/
theorem inside_topLevel (source : String) :
    Parser.topLevel.Ensures (Input.start (Terminal.ofTokens (Token.ofSource source)))
      fun ss rs _ => (∀ r ∈ rs, r.Inside (Token.ofSource source).length) ∧
        ∀ s ∈ ss, s.Everywhere (Run.Inside (Token.ofSource source).length) := by
  have hsize : (Session.start (Token.ofSource source) source 0).spans.size =
      (Token.ofSource source).length := by
    simp [Session.start]
  have hlooks := (Session.on_start (Token.ofSource source) source 0).looksInside .module
  unfold Session.LooksInside at hlooks
  rw [hsize] at hlooks
  exact hlooks

/-- The terminals of a source with a known first token, by themselves and below another. -/
theorem ofTokens_below_first (before : String) (hfirst : (Token.ofSource after).head? = some first)
    (hsolid : first.kind ≠ .endOfFile) :
    ∃ t u ts, Terminal.ofTokens (Token.ofSource after) = t :: ts ∧
      Terminal.ofTokens (Token.ofSource (before ++ "\n" ++ after)) =
        Terminal.ofTokens (Token.ofSource before) ++ u :: ts ∧
      u.kind = t.kind ∧ t.kind = first.kind ∧ u.lineStart = true := by
  have hhead : ∀ t ∈ (Token.ofSource after).head?, t.kind ≠ .endOfFile := by
    intro t ht
    obtain rfl := Option.some.inj (hfirst.symm.trans ht)
    exact hsolid
  obtain ⟨t, u, ts, hafter, hjoined, hkind, -, hline⟩ := Terminal.ofTokens_below before after hhead
  refine ⟨t, u, ts, hafter, hjoined, hkind, ?_, hline⟩
  obtain ⟨rest, hrest⟩ := List.head?_eq_some_iff.mp hfirst
  rw [hrest, Terminal.ofTokens_cons hsolid] at hafter
  rw [← (List.cons.inj hafter).1]
  rfl

theorem length_ofTokens (source : String) :
    (Terminal.ofTokens (Token.ofSource source)).length = (Token.beforeEnd source).length := by
  rw [Token.terminals_ofSource, List.length_map]

/-- The terminals of a source below another, read by themselves and there. -/
theorem topLevel_ofSource_below
    (hnested : nested [] (Terminal.ofTokens (Token.ofSource before)) = true)
    (hfirst : (Token.ofSource after).head? = some first)
    (hanchor : first.kind.isFixed Fixed.isAnchor = true) :
    ∃ ss rs,
      (Parser.topLevel (Input.start
          (Terminal.ofTokens (Token.ofSource (before ++ "\n" ++ after))))).value =
        ss ++ (Parser.topLevel (Input.start (Terminal.ofTokens (Token.ofSource after)))).value.map
          (Stmt.shift (Token.beforeEnd before).length) ∧
      (Parser.topLevel (Input.start
          (Terminal.ofTokens (Token.ofSource (before ++ "\n" ++ after))))).reports =
        rs ++ (Parser.topLevel (Input.start (Terminal.ofTokens (Token.ofSource after)))).reports.map
          (Report.map (Run.shift (Token.beforeEnd before).length)) ∧
      ∀ r ∈ rs, r.place.first ≤ (Token.beforeEnd before).length := by
  obtain ⟨t, u, ts, hafter, hjoined, hkind, hfirst', hline⟩ :=
    ofTokens_below_first before hfirst (not_endOfFile_of_anchor hanchor)
  rw [hafter, hjoined, ← length_ofTokens]
  exact Parser.topLevel_below hnested hkind (hfirst' ▸ hanchor) hline

section Anchor

variable (hnested : nested [] (Terminal.ofTokens (Token.ofSource before)) = true)
variable (hfirst : (Token.ofSource after).head? = some first)
variable (hanchor : first.kind.isFixed Fixed.isAnchor = true)

include hnested hfirst hanchor

/-- The statements below another source. -/
theorem holds_below : ∃ ss ss', (ofSource after 0).Holds ss' ∧
    (ofSource (before ++ "\n" ++ after) 0).Holds
      (ss ++ Stmt.mapAll (Span.shift (Text.byteLength before.toList + 1)) ss') := by
  obtain ⟨ss, -, hvalue, -, -⟩ := topLevel_ofSource_below hnested hfirst hanchor
  have hinside := (inside_topLevel after).2
  refine ⟨Stmt.mapAll (Run.locate (before ++ "\n" ++ after)) ss, _,
    (holds_ofSource_iff after 0 _).mpr rfl, (holds_ofSource_iff _ 0 _).mpr ?_⟩
  rw [hvalue, Stmt.mapAll_eq_map _ (_ ++ _), List.map_append, ← Stmt.mapAll_eq_map,
    ← Stmt.mapAll_eq_map]
  exact congrArg (_ ++ ·) (Stmt.locate_below hinside).symm

/-- The diagnostics below another source. -/
theorem diagnostics_below : ∃ ds, (ofSource (before ++ "\n" ++ after) 0).diagnostics =
    ds ++ (ofSource after 0).diagnostics.map
      (Diagnostic.shift (Text.byteLength before.toList + 1)) ∧
    ∀ d ∈ ds, d.span.start ≤ first.span.start + (Text.byteLength before.toList + 1) := by
  obtain ⟨-, rs, -, hreports, hplaces⟩ := topLevel_ofSource_below hnested hfirst hanchor
  have hinside := (inside_topLevel after).1
  refine ⟨rs.map fun r => (r.map (Run.locate (before ++ "\n" ++ after))).toDiagnostic
    (before ++ "\n" ++ after), ?_, ?_⟩
  · rw [diagnostics_ofSource, diagnostics_ofSource, hreports, List.map_append, List.map_map,
      List.map_map]
    apply congrArg (_ ++ ·)
    apply List.map_congr_left
    intro r hr
    exact Report.toDiagnostic_below (hinside r hr)
  · intro d hd
    obtain ⟨r, hr, rfl⟩ := List.mem_map.mp hd
    have hsolid := not_endOfFile_of_anchor hanchor
    obtain ⟨u, hu, hspan⟩ := Token.first_below before hfirst hsolid
    have hstart := Run.start_locate_le hu (hplaces r hr)
    rw [hspan] at hstart
    exact hstart

end Anchor

/-- **Errors in a source with nested brackets do not damage what stands below it.**  Let a source
begin with `guard`, `while` or `return`.  Below the other it gives its own statements, behind those
of the other, and its own diagnostics, behind some of which none begins after its first token; all of
them further on by the bytes of the other and the line break. -/
theorem ofSource_resumes
    (hnested : nested [] (Terminal.ofTokens (Token.ofSource before)) = true)
    (hfirst : (Token.ofSource after).head? = some first)
    (hanchor : first.kind.isFixed Fixed.isAnchor = true) :
    let below := ofSource (before ++ "\n" ++ after) 0
    let k := Text.byteLength before.toList + 1
    (∃ ss ss', (ofSource after 0).Holds ss' ∧
      below.Holds (ss ++ Stmt.mapAll (Span.shift k) ss')) ∧
    ∃ ds, below.diagnostics = ds ++ (ofSource after 0).diagnostics.map (Diagnostic.shift k) ∧
      ∀ d ∈ ds, d.span.start ≤ first.span.start + k :=
  ⟨holds_below hnested hfirst hanchor, diagnostics_below hnested hfirst hanchor⟩

/-- A call that is given up in front of `let`, and with it the header around it. -/
theorem ofSource_resumes_open_list :
    let before := "if f(1 2\nlet = ) " ++ Text.braced " "
    let after := "\treturn 1 2"
    let first : Token String := ⟨.fixed .returnWord, ⟨1, 7⟩, { blank := true, lineStart := true }⟩
    let below := ofSource (before ++ "\n" ++ after) 0
    let k := Text.byteLength before.toList + 1
    nested [] (Terminal.ofTokens (Token.ofSource before)) = true ∧
    (Token.ofSource after).head? = some first ∧ first.kind.isFixed Fixed.isAnchor = true ∧
    below.diagnostics.map Diagnostic.code =
      [.e1008, .e1003, .e1010, .e1012, .e1007, .e1009, .e1009, .e1009] ∧
    (∃ ss ss', (ofSource after 0).Holds ss' ∧
      below.Holds (ss ++ Stmt.mapAll (Span.shift k) ss')) ∧
    ∃ ds, below.diagnostics = ds ++ (ofSource after 0).diagnostics.map (Diagnostic.shift k) ∧
      ∀ d ∈ ds, d.span.start ≤ first.span.start + k :=
  ⟨by decide +kernel, by decide +kernel, rfl, by decide +kernel,
    ofSource_resumes (by decide +kernel) (by decide +kernel) rfl⟩

end Outcome

end PlatformGate
