/-
# Below a source without problems

Let a source have no diagnostics, and let another begin with any keyword of a statement.  Below the
first, the second gives its own statements behind those of the first, and there are no diagnostics
but its own (`Outcome.ofSource_joins`).

Nothing was left open, so each round over the first source is a round in front of the second
(`topLevel_onto`), and no place of its trees is that of the end of file, which is gone
(`Run.locate_above`).
-/
import PlatformGate.Proofs.Joining.Resumes
import PlatformGate.Proofs.Joining.Rounds
import PlatformGate.Proofs.Nesting.Lines
import PlatformGate.Proofs.Nesting.Solid
import PlatformGate.Proofs.Printing.Lines

namespace PlatformGate

namespace Parser

variable {line before after : List Terminal} {i : Input} {t u : Terminal}

/-! ## 1. Terminals -/

/-- The loop over the top level ends behind the last terminal. -/
theorem collect_topLevelItem?_next (i : Input) :
    (collect topLevelItem? i).next = ⟨i.position + i.rest.length, []⟩ := by
  have hreads := topLevel_reads i
  unfold Ensures at hreads
  obtain ⟨hmoves, hend, -⟩ := hreads
  have hstop := hmoves.ahead.stop_eq
  have hnext : (topLevel i).next = (collect topLevelItem? i).next := rfl
  rw [hnext] at hstop hend
  rw [hend, List.length_nil, Nat.add_zero] at hstop
  rw [← hstop, ← hend]

/-- **A top level without a report is read again in front of the line,** and goes on there. -/
theorem topLevel_onto (hline : Separate line) (hquiet : (topLevel i).reports = []) :
    (topLevel (i.onto line)).value =
        (topLevel i).value ++ (topLevel ⟨i.position + i.rest.length, line⟩).value ∧
      (topLevel (i.onto line)).reports =
        (topLevel ⟨i.position + i.rest.length, line⟩).reports := by
  have hloop : (collect topLevelItem? i).reports = [] := (List.append_eq_nil_iff.mp hquiet).1
  have honto := collect_onto topLevelItem?_advances topLevelItem?_advances
    (fun j s? hvalue hreports => topLevelItem?_onto hline hvalue hreports) topLevelItem?_stop hloop
    rfl
  rw [collect_topLevelItem?_next] at honto
  simp only [topLevel, bind_apply, pure_apply, honto, List.filterMap_append, List.append_nil]
  exact ⟨rfl, rfl⟩

/-- **Below terminals without a report a statement is read as by itself,** and so are they. -/
theorem topLevel_joined (hquiet : (topLevel (Input.start before)).reports = [])
    (hkind : u.kind = t.kind) (hkeyword : t.kind.isStatementKeyword = true)
    (hline : u.lineStart = true) :
    (topLevel (Input.start (before ++ u :: after))).value =
        (topLevel (Input.start before)).value ++
          (topLevel (Input.start (t :: after))).value.map (Stmt.shift before.length) ∧
      (topLevel (Input.start (before ++ u :: after))).reports =
        (topLevel (Input.start (t :: after))).reports.map
          (Report.map (Run.shift before.length)) := by
  have hopens : u.kind.isFixed Fixed.opensLine = true := by
    rw [hkind]
    exact opensLine_of_keyword hkeyword
  have hseparate : Separate (u :: after) := ⟨u, after, rfl, hline, hopens⟩
  obtain ⟨hvalue, hreports⟩ := topLevel_onto hseparate hquiet
  have hposition : (Input.start before).position + (Input.start before).rest.length =
      before.length := Nat.zero_add _
  rw [hposition, topLevel_from _ after hkind hkeyword] at hvalue hreports
  exact ⟨hvalue, hreports⟩

end Parser

/-! ## 2. Places -/

section Above

variable {before after : String}

/-- A token of a text has its span above another text as well. -/
theorem Token.getElem?_spans_above (after : String) {i : Nat} (h : i < (beforeEnd before).length) :
    ((ofSource (before ++ "\n" ++ after)).map span)[i]? = ((ofSource before).map span)[i]? := by
  obtain ⟨eof, hsource, -⟩ := ofSource_eq_append before
  have hlt : i < ((beforeEnd before).map span).length := by
    rw [List.length_map]
    exact h
  rw [spans_below, hsource, List.map_append, List.getElem?_append_left hlt,
    List.getElem?_append_left hlt]

/-- **A run of some tokens stands where it stands** above another text. -/
theorem Run.locate_above (after : String) {r : Run} (h : r.Solid (Token.beforeEnd before).length) :
    r.locate (before ++ "\n" ++ after) = r.locate before := by
  obtain ⟨hlt, hpast⟩ := h
  have hfirst := Token.getElem?_spans_above after (Nat.lt_of_lt_of_le hlt hpast)
  have hbefore : r.past - 1 < (Token.beforeEnd before).length := by omega
  have hlast := Token.getElem?_spans_above after hbefore
  unfold locate toSpan
  simp only [List.getElem?_toArray, hfirst, hlast]

end Above

namespace Outcome

variable {source before after : String} {first : Token String}

/-- An outcome holds what the top level gives, at its places in the source. -/
theorem holds_topLevel (source : String) :
    (ofSource source 0).Holds (Stmt.mapAll (Run.locate source)
      (Parser.topLevel (Input.start (Terminal.ofTokens (Token.ofSource source)))).value) :=
  (holds_ofSource_iff source 0 _).mpr rfl

/-- Whoever reads a source without diagnostics has nothing to report. -/
theorem silent_of_clean (h : (ofSource source 0).diagnostics = []) :
    (Parser.topLevel (Input.start (Terminal.ofTokens (Token.ofSource source)))).reports = [] := by
  rw [diagnostics_ofSource] at h
  exact List.map_eq_nil_iff.mp h

/-- All places in the trees of such a source are those of some of its tokens. -/
theorem solid_topLevel (h : (ofSource source 0).diagnostics = []) :
    Stmt.EverywhereAll (Run.Solid (Token.beforeEnd source).length)
      (Parser.topLevel (Input.start (Terminal.ofTokens (Token.ofSource source)))).value := by
  have hread := Parser.topLevel_fills (Input.start (Terminal.ofTokens (Token.ofSource source)))
  have hwrites := Parser.topLevel_writes (Input.start (Terminal.ofTokens (Token.ofSource source)))
  have hstop := hread.fills.ahead.stop_eq
  have hlength := length_ofTokens source
  change _ + _ = 0 + (Terminal.ofTokens (Token.ofSource source)).length at hstop
  obtain ⟨hcomplete, -⟩ := hwrites (silent_of_clean h)
  refine Stmt.everywhereAll_solid _ hcomplete fun o ho => ?_
  rw [Stmt.outlines_eq_map] at ho
  obtain ⟨hnested, -, hlast⟩ := hread.fills.row.bounds o ho
  exact ⟨hnested, by omega⟩

/-- The trees of a source without diagnostics stand above another source where they stand by
themselves. -/
theorem locate_above (after : String) (h : (ofSource before 0).diagnostics = []) :
    let ss := (Parser.topLevel (Input.start (Terminal.ofTokens (Token.ofSource before)))).value
    Stmt.mapAll (Run.locate (before ++ "\n" ++ after)) ss =
      Stmt.mapAll (Run.locate before) ss := by
  intro ss
  -- the lemma about places moved twice asks for a first move, and this one moves nothing
  have hss : Stmt.mapAll (Run.shift 0) ss = ss := by
    have hshift := Parser.shifted_topLevel (k := 0)
      (Input.start (Terminal.ofTokens (Token.ofSource before)))
    rw [Stmt.mapAll_eq_map]
    exact (congrArg Step.value hshift).symm
  rw [← hss]
  apply Stmt.mapAll_mapAll
  exact Stmt.EverywhereAll.mono (fun _ hr => Run.locate_above after hr) ss (solid_topLevel h)

/-! ## 3. Sources -/

section Joined

variable (hclean : (ofSource before 0).diagnostics = [])
variable (hfirst : (Token.ofSource after).head? = some first)
variable (hkeyword : first.kind.isStatementKeyword = true)

include hclean hfirst hkeyword

/-- The terminals of both sources, read together. -/
theorem topLevel_ofSource_joined :
    let joined := Parser.topLevel (Input.start
      (Terminal.ofTokens (Token.ofSource (before ++ "\n" ++ after))))
    let above := Parser.topLevel (Input.start (Terminal.ofTokens (Token.ofSource before)))
    let below := Parser.topLevel (Input.start (Terminal.ofTokens (Token.ofSource after)))
    joined.value =
        above.value ++ below.value.map (Stmt.shift (Token.beforeEnd before).length) ∧
      joined.reports =
        below.reports.map (Report.map (Run.shift (Token.beforeEnd before).length)) := by
  have hsolid : first.kind ≠ .endOfFile := by
    intro hk
    rw [hk] at hkeyword
    exact absurd hkeyword Bool.false_ne_true
  obtain ⟨t, u, ts, hafter, hjoined, hkind, hfirst', hline⟩ :=
    ofTokens_below_first before hfirst hsolid
  rw [hafter, hjoined, ← length_ofTokens]
  exact Parser.topLevel_joined (silent_of_clean hclean) hkind (hfirst' ▸ hkeyword) hline

theorem holds_joined : ∃ ss ss', (ofSource before 0).Holds ss ∧ (ofSource after 0).Holds ss' ∧
    (ofSource (before ++ "\n" ++ after) 0).Holds
      (ss ++ Stmt.mapAll (Span.shift (Text.byteLength before.toList + 1)) ss') := by
  obtain ⟨hvalue, -⟩ := topLevel_ofSource_joined hclean hfirst hkeyword
  have hholds := holds_topLevel (before ++ "\n" ++ after)
  refine ⟨_, _, holds_topLevel before, holds_topLevel after, ?_⟩
  rw [hvalue, Stmt.mapAll_eq_map _ (_ ++ _), List.map_append, ← Stmt.mapAll_eq_map,
    ← Stmt.mapAll_eq_map, locate_above after hclean,
    Stmt.locate_below (inside_topLevel after).2] at hholds
  exact hholds

theorem diagnostics_joined : (ofSource (before ++ "\n" ++ after) 0).diagnostics =
    (ofSource after 0).diagnostics.map
      (Diagnostic.shift (Text.byteLength before.toList + 1)) := by
  obtain ⟨-, hreports⟩ := topLevel_ofSource_joined hclean hfirst hkeyword
  rw [diagnostics_ofSource, diagnostics_ofSource, hreports, List.map_map, List.map_map]
  apply List.map_congr_left
  intro r hr
  exact Report.toDiagnostic_below ((inside_topLevel after).1 r hr)

end Joined

/-- **Below a source without diagnostics everything is as by itself.**  Let a source begin with a
keyword of a statement.  Below the other it gives its own statements, behind those of the other, and
its own diagnostics and no more; all of them further on by the bytes of the other and the line
break. -/
theorem ofSource_joins (hclean : (ofSource before 0).diagnostics = [])
    (hfirst : (Token.ofSource after).head? = some first)
    (hkeyword : first.kind.isStatementKeyword = true) :
    let joined := ofSource (before ++ "\n" ++ after) 0
    let k := Text.byteLength before.toList + 1
    (∃ ss ss', (ofSource before 0).Holds ss ∧ (ofSource after 0).Holds ss' ∧
      joined.Holds (ss ++ Stmt.mapAll (Span.shift k) ss')) ∧
    joined.diagnostics = (ofSource after 0).diagnostics.map (Diagnostic.shift k) :=
  ⟨holds_joined hclean hfirst hkeyword, diagnostics_joined hclean hfirst hkeyword⟩

/-- A `return` in front of `let` has no value, and a `(` on the next line in a block above it opens
no call. -/
theorem ofSource_joins_return :
    let before := "while a " ++ Text.braced " f\n(1) " ++ "\nreturn"
    let after := "let = 1 2"
    let first : Token String := ⟨.fixed .letWord, ⟨0, 3⟩, { lineStart := true }⟩
    let joined := ofSource (before ++ "\n" ++ after) 0
    let k := Text.byteLength before.toList + 1
    (ofSource before 0).diagnostics = [] ∧ (Token.ofSource after).head? = some first ∧
    first.kind.isStatementKeyword = true ∧
    joined.diagnostics.map Diagnostic.code = [.e1012, .e1009] ∧
    (∃ ss ss', (ofSource before 0).Holds ss ∧ (ofSource after 0).Holds ss' ∧
      joined.Holds (ss ++ Stmt.mapAll (Span.shift k) ss')) ∧
    joined.diagnostics = (ofSource after 0).diagnostics.map (Diagnostic.shift k) :=
  ⟨by decide +kernel, by decide +kernel, rfl, by decide +kernel,
    @ofSource_joins _ _ ⟨.fixed .letWord, ⟨0, 3⟩, { lineStart := true }⟩ (by decide +kernel)
      (by decide +kernel) rfl⟩

end Outcome

end PlatformGate
