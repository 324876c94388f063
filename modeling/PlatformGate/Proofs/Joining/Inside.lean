/-
# A source inside a block

A source without diagnostics may be put into the block of a `while`: there are no diagnostics either,
and the block holds the statements of the source (`Outcome.ofSource_inside`).

The loop over a block is not the loop over the top level.  It looks for its `}` in front of each
statement, it ends the rest of a line at `}`, and it reports where the source ends.  None of this
shows while nothing is reported: no statement begins with `}`, what stood in front of the end of the
source stands in front of a `}` on a line of its own, and that `}` ends the block.
-/
import PlatformGate.Proofs.Joining.Clean

namespace PlatformGate

/-- The same terminals, but the first may lie otherwise in its line. -/
structure Terminal.Alike (us ts : List Terminal) : Prop where
  kinds : us.map Terminal.kind = ts.map Terminal.kind
  tail : us.tail = ts.tail

namespace Parser

variable {ts us : List Terminal} {t rb : Terminal} {n : Nat}

/-! ## 1. The statements of a block -/

/-- What is read without a report begins as a statement. -/
theorem statementStart_of_silent (h : (collect topLevelItem? ⟨n, t :: ts⟩).reports = []) :
    TagSet.statementStart.contains t.kind = true := by
  rw [collect_eq (topLevelItem?_advances _), round, bind_apply,
    topLevelItem?_eq (List.cons_ne_nil _ _)] at h
  exact statementStart_of_quiet (List.cons_ne_nil _ _) (List.append_eq_nil_iff.mp h).1

/-- How the first terminal lies in its line does not matter. -/
theorem collect_topLevelItem?_alike (h : Terminal.Alike us ts)
    (hquiet : (collect topLevelItem? ⟨n, ts⟩).reports = []) :
    collect topLevelItem? ⟨n, us⟩ = collect topLevelItem? ⟨n, ts⟩ := by
  obtain ⟨hkinds, htail⟩ := h
  cases ts with
  | nil => rw [List.map_eq_nil_iff.mp hkinds]
  | cons t ts =>
    obtain ⟨u, us, rfl, hkind, -⟩ := List.map_eq_cons_iff.mp hkinds
    obtain rfl : us = ts := htail
    exact collect_topLevelItem?_head hkind (statementStart_of_silent hquiet)

/-- Terminals read without a report are read in the same way further on. -/
theorem collect_topLevelItem?_from (halike : Terminal.Alike us ts)
    (hquiet : (topLevel (Input.start ts)).reports = []) :
    collect topLevelItem? ⟨n, us⟩ =
      ⟨(collect topLevelItem? (Input.start ts)).value.map (Option.map (Stmt.shift n)), [],
        ⟨n + us.length, []⟩⟩ := by
  have hloop : (collect topLevelItem? (Input.start ts)).reports = [] :=
    (List.append_eq_nil_iff.mp hquiet).1
  have hshift := shifted_collect (shifted_topLevelItem? (k := n)) (Input.start ts)
  have hstart : (Input.start ts).shift n = ⟨n, ts⟩ := by simp [Input.start, Input.shift]
  rw [hstart, hloop, List.map_nil] at hshift
  have hsame : collect topLevelItem? ⟨n, us⟩ = collect topLevelItem? ⟨n, ts⟩ :=
    collect_topLevelItem?_alike halike (by rw [hshift])
  have hnext := collect_topLevelItem?_next ⟨n, us⟩
  rw [hsame, hshift] at hnext ⊢
  exact congrArg (Step.mk _ []) hnext

/-- A block ends with its `}`. -/
theorem collect_blockItem?_close (opener : Nat) (hclose : rb.kind = .fixed .rbrace) :
    collect (blockItem? stmt opener) ⟨n, [rb]⟩ = ⟨[], [], ⟨n + 1, []⟩⟩ := by
  obtain ⟨kind, lineStart, newline⟩ := rb
  obtain rfl : kind = .fixed .rbrace := hclose
  rfl

/-- **A block in front of its `}` gives what the top level gives.** -/
theorem collect_blockItem?_inside (opener : Nat) (halike : Terminal.Alike us ts)
    (hquiet : (topLevel (Input.start ts)).reports = []) (hclose : rb.kind = .fixed .rbrace)
    (hline : rb.lineStart = true) :
    collect (blockItem? stmt opener) ⟨n, us ++ [rb]⟩ =
      ⟨(collect topLevelItem? (Input.start ts)).value.map (Option.map (Stmt.shift n)), [],
        ⟨n + us.length + 1, []⟩⟩ := by
  have hseparate : Separate [rb] := ⟨rb, [], rfl, hline, by rw [hclose]; rfl⟩
  have hloop := collect_topLevelItem?_from (n := n) halike hquiet
  have honto := collect_onto (i := ⟨n, us⟩) topLevelItem?_advances
    (fun m => blockItem?_advances (fun i _ => stmt_reads i) (Nat.lt_succ_self m) opener)
    (fun j s? hvalue hreports => blockItem?_onto hseparate hvalue hreports opener)
    topLevelItem?_stop (by rw [hloop]) rfl
  have hend : ((collect topLevelItem? ⟨n, us⟩).next.onto [rb] : Input) = ⟨n + us.length, [rb]⟩ := by
    rw [hloop]
    rfl
  rw [hend, collect_blockItem?_close opener hclose, hloop, List.append_nil] at honto
  exact honto

/-! ## 2. The statement around the block -/

/-- The opening brace of a block, on the line of its header. -/
def openBrace : Terminal := { kind := .fixed .lbrace }

/-- The terminals of `while c` and an opening brace. -/
def whileHeader : List Terminal :=
  [{ kind := .fixed .whileWord, lineStart := true }, { kind := .word "c" }, openBrace]

/-- The condition is a name, and nothing goes on with it. -/
theorem conditions_while :
    conditions .whileStatement ⟨1, { kind := .word "c" } :: openBrace :: ts⟩ =
      ⟨[.expr (.ident "c" ⟨1, 2⟩) ⟨1, 2⟩], [], ⟨2, openBrace :: ts⟩⟩ := by
  have hkind : kind ⟨1, { kind := .word "c" } :: openBrace :: ts⟩ =
      ⟨.word "c", [], ⟨1, { kind := .word "c" } :: openBrace :: ts⟩⟩ := rfl
  have hexpr : expr .full (.header .whileStatement) ⟨1, { kind := .word "c" } :: openBrace :: ts⟩ =
      ⟨.ident "c" ⟨1, 2⟩, [], ⟨2, openBrace :: ts⟩⟩ := by
    rw [expr_full_eq]
    rfl
  have hothers : collect (clauseBehindComma? .whileStatement) ⟨2, openBrace :: ts⟩ =
      ⟨[], [], ⟨2, openBrace :: ts⟩⟩ := rfl
  simp only [conditions, clause, bind_apply, pure_apply, position, runFrom, hkind, hexpr, hothers,
    List.nil_append]

section While

variable {items : List (Option (Stmt Run))} {m : Nat}
variable (hblock : collect (blockItem? stmt 2) ⟨3, ts⟩ = ⟨items, [], ⟨m, []⟩⟩)

include hblock

theorem body_while : body stmt .whileStatement ⟨2, openBrace :: ts⟩ =
    ⟨.block (items.filterMap id) ⟨2, m⟩, [], ⟨m, []⟩⟩ := by
  have htail : headerTail .whileStatement TagSet.bodyStart ⟨2, openBrace :: ts⟩ =
      ⟨(), [], ⟨2, openBrace :: ts⟩⟩ := rfl
  have hcheck : check .lbrace ⟨2, openBrace :: ts⟩ = ⟨true, [], ⟨2, openBrace :: ts⟩⟩ := rfl
  have hnext : next ⟨2, openBrace :: ts⟩ = ⟨(), [], ⟨3, ts⟩⟩ := rfl
  simp only [body, block, bind_apply, pure_apply, htail, hcheck, hnext, hblock, position, runFrom,
    ↓reduceIte, List.nil_append]

/-- A `while` with a block that is closed. -/
theorem stmt_while : stmt ⟨0, whileHeader ++ ts⟩ =
    ⟨.whileStmt [.expr (.ident "c" ⟨1, 2⟩) ⟨1, 2⟩] (.block (items.filterMap id) ⟨2, m⟩) ⟨0, m⟩, [],
      ⟨m, []⟩⟩ := by
  have hkind : kind ⟨0, whileHeader ++ ts⟩ = ⟨.fixed .whileWord, [], ⟨0, whileHeader ++ ts⟩⟩ := rfl
  have hnext : next ⟨0, whileHeader ++ ts⟩ =
      ⟨(), [], ⟨1, { kind := .word "c" } :: openBrace :: ts⟩⟩ := rfl
  rw [stmt_eq]
  simp only [statement, whileStatement, bind_apply, pure_apply, hkind, hnext, conditions_while,
    body_while hblock, position, runFrom, List.nil_append]

end While

/-- A statement with nothing behind it is all there is. -/
theorem topLevel_single {i : Input} {s : Stmt Run} {m : Nat}
    (hstart : TagSet.statementStart.contains i.kind = true) (h : stmt i = ⟨s, [], ⟨m, []⟩⟩) :
    topLevel i = ⟨[s], [], ⟨m, []⟩⟩ := by
  have hne : i.rest ≠ [] := by
    refine Input.rest_ne_nil_of_kind fun hk => ?_
    rw [hk] at hstart
    exact absurd hstart Bool.false_ne_true
  have hitem : item stmt .topLevel i = ⟨some s, [], ⟨m, []⟩⟩ := by
    rw [item_of_endsLine hstart (by rw [h]; exact .inl rfl), h]
  have hstop : collect topLevelItem? ⟨m, []⟩ = ⟨[], [], ⟨m, []⟩⟩ := rfl
  have hloop : collect topLevelItem? i = ⟨[some s], [], ⟨m, []⟩⟩ := by
    rw [collect_eq (topLevelItem?_advances _), round, bind_apply, topLevelItem?_eq hne, hitem]
    simp only [bind_apply, pure_apply, hstop, List.nil_append]
  simp only [topLevel, bind_apply, pure_apply, hloop, List.nil_append]
  rfl

/-- **Inside the block of a `while` the statements are those of the top level.** -/
theorem topLevel_inside (halike : Terminal.Alike us ts)
    (hquiet : (topLevel (Input.start ts)).reports = []) (hclose : rb.kind = .fixed .rbrace)
    (hline : rb.lineStart = true) : ∃ m,
    topLevel (Input.start (whileHeader ++ (us ++ [rb]))) =
      ⟨[.whileStmt [.expr (.ident "c" ⟨1, 2⟩) ⟨1, 2⟩]
          (.block ((topLevel (Input.start ts)).value.map (Stmt.shift 3)) ⟨2, m⟩) ⟨0, m⟩], [],
        ⟨m, []⟩⟩ := by
  have hblock := collect_blockItem?_inside (n := 3) 2 halike hquiet hclose hline
  have hstmt := stmt_while hblock
  rw [← map_filterMap_id] at hstmt
  exact ⟨_, topLevel_single rfl hstmt⟩

end Parser

/-! ## 3. Sources -/

/-- A `while` up to its body. -/
def whileLine : String := "while c " ++ Fixed.lbrace.spelling

/-- The source in the block of a `while`, put together from three texts on lines of their own. -/
def inWhile (source : String) : String :=
  whileLine ++ "\n" ++ (source ++ "\n" ++ Fixed.rbrace.spelling)

theorem inWhile_eq (source : String) :
    "while c " ++ Text.braced ("\n" ++ source ++ "\n") = inWhile source := by
  unfold inWhile whileLine Text.braced
  simp only [String.append_assoc]

section Texts

variable {source : String}

/-- If anything is read of a source, its first token is not the end of file. -/
theorem Terminal.not_endOfFile_of_head {ts : List (Token String)} (h : ofTokens ts ≠ []) :
    ∀ t ∈ ts.head?, t.kind ≠ .endOfFile := by
  intro t ht hk
  obtain ⟨rest, rfl⟩ := List.head?_eq_some_iff.mp ht
  apply h
  simp [ofTokens, hk]

/-- The terminals of a source in the block of a `while`. -/
theorem Terminal.ofTokens_inside (source : String) : ∃ us rb,
    Alike us (ofTokens (Token.ofSource source)) ∧ rb.kind = .fixed .rbrace ∧ rb.lineStart = true ∧
      ofTokens (Token.ofSource (inWhile source)) = Parser.whileHeader ++ (us ++ [rb]) := by
  have hclose : ofTokens (Token.ofSource Fixed.rbrace.spelling) =
      [{ kind := .fixed .rbrace, lineStart := true }] := by decide +kernel
  have hheader : ofTokens (Token.ofSource whileLine) = Parser.whileHeader := by decide +kernel
  obtain ⟨t, rb, ts, hrb, hafter, hkind, -, hline⟩ :=
    ofTokens_below source Fixed.rbrace.spelling (by decide +kernel)
  rw [hclose] at hrb
  obtain ⟨rfl, rfl⟩ := List.cons.inj hrb
  obtain ⟨t', u, ts', hfirst, hinside, hkind', -, hline'⟩ :=
    ofTokens_below whileLine (source ++ "\n" ++ Fixed.rbrace.spelling)
      (not_endOfFile_of_head (by rw [hafter]; exact List.append_ne_nil_of_right_ne_nil _ nofun))
  rw [hheader] at hinside
  rw [hafter] at hfirst
  unfold inWhile
  rw [hinside]
  cases hts : ofTokens (Token.ofSource source) with
  | nil =>
    -- nothing but the brace stands below the header
    rw [hts] at hfirst
    obtain ⟨rfl, rfl⟩ := List.cons.inj hfirst
    exact ⟨[], u, ⟨rfl, rfl⟩, hkind'.trans hkind, hline', rfl⟩
  | cons first more =>
    rw [hts] at hfirst
    obtain ⟨rfl, rfl⟩ := List.cons.inj hfirst
    refine ⟨u :: more, rb, ⟨?_, rfl⟩, hkind, hline, rfl⟩
    rw [List.map_cons, List.map_cons, hkind']

/-- A run of some tokens of a source stands further on inside a block. -/
theorem Run.locate_inside {r : Run} (h : r.Solid (Token.beforeEnd source).length) :
    (r.shift 3).locate (inWhile source) = (r.locate source).shift 10 := by
  have hlength : (Token.beforeEnd whileLine).length = 3 := by decide +kernel
  have hinside : r.Inside (Token.ofSource (source ++ "\n" ++ Fixed.rbrace.spelling)).length := by
    obtain ⟨-, u, us, -, hjoined, -⟩ := Token.ofSource_below source Fixed.rbrace.spelling
    obtain ⟨hlt, hpast⟩ := h
    rw [hjoined, List.length_append]
    exact ⟨by omega, by omega⟩
  have hbelow := locate_below whileLine hinside
  rw [hlength, locate_above _ h] at hbelow
  exact hbelow

/-- The condition of the `while`. -/
theorem Run.locate_condition (source : String) :
    (⟨1, 2⟩ : Run).locate (inWhile source) = ⟨6, 7⟩ := by
  unfold inWhile
  rw [locate_above _ ⟨by decide, by decide +kernel⟩]
  decide +kernel

end Texts

namespace Outcome

variable {source : String}

/-- The trees of a source without diagnostics stand further on inside a block. -/
theorem locate_inside (h : (ofSource source 0).diagnostics = []) :
    let ss := (Parser.topLevel (Input.start (Terminal.ofTokens (Token.ofSource source)))).value
    Stmt.mapAll (Run.locate (inWhile source)) (ss.map (Stmt.shift 3)) =
      Stmt.mapAll (Span.shift 10) (Stmt.mapAll (Run.locate source) ss) := by
  intro ss
  unfold Stmt.shift
  rw [← Stmt.mapAll_eq_map]
  apply Stmt.mapAll_mapAll
  exact Stmt.EverywhereAll.mono (fun _ hr => Run.locate_inside hr) ss (solid_topLevel h)

/-- **A block agrees with the top level.**  A source without diagnostics has none in the block of a
`while` either, and this block holds the statements of the source, further on by the bytes of the
header and the line break. -/
theorem ofSource_inside (h : (ofSource source 0).diagnostics = []) :
    let inside := ofSource ("while c " ++ Text.braced ("\n" ++ source ++ "\n")) 0
    inside.diagnostics = [] ∧ ∃ ss place whole, (ofSource source 0).Holds ss ∧
      inside.Holds [.whileStmt [.expr (.ident "c" ⟨6, 7⟩) ⟨6, 7⟩]
        (.block (Stmt.mapAll (Span.shift 10) ss) place) whole] := by
  obtain ⟨us, rb, halike, hclose, hline, hterminals⟩ := Terminal.ofTokens_inside source
  obtain ⟨m, hread⟩ := Parser.topLevel_inside halike (silent_of_clean h) hclose hline
  rw [← hterminals] at hread
  rw [inWhile_eq]
  intro inside
  constructor
  · rw [diagnostics_ofSource, hread, List.map_nil]
  · have hholds := holds_topLevel (inWhile source)
    rw [hread] at hholds
    refine ⟨_, Run.locate (inWhile source) ⟨2, m⟩, Run.locate (inWhile source) ⟨0, m⟩,
      holds_topLevel source, ?_⟩
    rw [← locate_inside h, ← Run.locate_condition source]
    exact hholds

/-- A `return` without a value may stand in front of the brace. -/
theorem ofSource_inside_return :
    let source := "guard a else " ++ Text.braced " return b " ++ "\nreturn"
    let inside := ofSource ("while c " ++ Text.braced ("\n" ++ source ++ "\n")) 0
    (ofSource source 0).diagnostics = [] ∧
    inside.diagnostics = [] ∧ ∃ ss place whole, (ofSource source 0).Holds ss ∧
      inside.Holds [.whileStmt [.expr (.ident "c" ⟨6, 7⟩) ⟨6, 7⟩]
        (.block (Stmt.mapAll (Span.shift 10) ss) place) whole] :=
  ⟨by decide +kernel, ofSource_inside (by decide +kernel)⟩

end Outcome

end PlatformGate
