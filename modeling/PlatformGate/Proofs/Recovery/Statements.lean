/-
# Leftovers and the statements behind them

A keyword that begins a statement on its own line ends leftovers, unless it stands in brackets that
were opened among them.  The first token of leftovers is not looked at; whether it can be such a
keyword depends on who reports.  Headers, blocks, queries and the top level never begin leftovers
with one.  A tuple and a call do: where `)` is missing in front of a statement they take that
statement (`leftovers_take_statement`).
-/
import PlatformGate.Proofs.Recovery.TrailLines
import PlatformGate.Proofs.Session.Limits

namespace PlatformGate

open Terminal

/-- The `n`th token is a keyword that begins a statement on its line, outside of the brackets that
are opened from the `m`th token on. -/
structure Token.BeginsStatement (source : String) (m n : Nat) (t : Token String) : Prop where
  token : (Token.beforeEnd source)[n]? = some t
  keyword : t.kind.isStatementKeyword = true
  line : t.layout.lineStart = true
  outside : depthBehind 0 ((Token.between source m n).map Terminal.ofToken) = 0

/-- The codes of diagnostics that quote leftover code. -/
def Code.isOfLeftovers (c : Code) : Bool := c == .e1006 || c == .e1008 || c == .e1009

theorem Cause.leftover_of_code {ρ : Type} {cause : Cause ρ} (h : cause.code.isOfLeftovers = true) :
    ∃ c, cause = .leftover c := by
  cases cause with
  | leftover c => exact ⟨c, rfl⟩
  | unclosed c opener => cases c <;> exact absurd h nofun
  | _ => exact absurd h nofun

namespace Outcome

variable {source : String}

/-- A limit on errors adds no diagnostic. -/
theorem mem_diagnostics_of_limited {limit : Nat} {d : Diagnostic}
    (h : d ∈ (ofSource source limit).diagnostics) : d ∈ (ofSource source 0).diagnostics := by
  rcases Nat.eq_zero_or_pos limit with rfl | hpos
  · exact h
  · rw [diagnostics_of_limit source hpos] at h
    exact List.mem_of_mem_take h

/-- A diagnostic that quotes leftover code is about leftovers. -/
theorem exists_leftover {d : Diagnostic} (hd : d ∈ (ofSource source 0).diagnostics)
    (hcode : d.code.isOfLeftovers = true) :
    ∃ c place, ⟨.leftover c, place⟩ ∈ (Whole.ofSource source).reports ∧
      d = (Report.map (Run.locate source) ⟨.leftover c, place⟩).toDiagnostic source := by
  rw [diagnostics_ofSource] at hd
  obtain ⟨⟨cause, place⟩, hr, rfl⟩ := List.mem_map.mp hd
  rw [Report.code_toDiagnostic] at hcode
  obtain ⟨c, rfl⟩ := Cause.leftover_of_code hcode
  exact ⟨c, place, hr, rfl⟩

/-- **Leftover code holds no statement that begins on a line of its own.**  Behind the first token
of the code that is quoted, and outside of the brackets in it, no keyword begins a statement.  The
first token is such a keyword only in code that was left over in a tuple or in a call. -/
theorem leftovers_spare_statements {limit : Nat} {d : Diagnostic}
    (hd : d ∈ (ofSource source limit).diagnostics) (hcode : d.code.isOfLeftovers = true) :
    ∃ m first, (Token.beforeEnd source)[m]? = some first ∧ d.span.start = first.span.start ∧
      ∀ n t, Token.BeginsStatement source m n t → m ≤ n → t.span.stop ≤ d.span.stop →
        n = m ∧ ∃ c text, (c = .tuple ∨ c = .call) ∧ d.code = Construct.leftoverCode c ∧
          d.message = c.leftoverMessage text := by
  obtain ⟨c, place, hr, rfl⟩ := exists_leftover (mem_diagnostics_of_limited hd) hcode
  have hspares := (Whole.trail_ofSource source).spares _ hr
  have hsolid := Whole.solid_leftovers c place (Whole.mem_leftovers.mpr ⟨_, hr, rfl, rfl⟩)
  obtain ⟨first, last, hfirst, hlast, hplace⟩ := hsolid.exists_tokens
  have hstart : (place.locate source).start = first.span.start := by rw [hplace]
  refine ⟨place.first, first, hfirst, hstart, ?_⟩
  intro n t ht hmn hstop
  have hn : n < place.past := by
    have hle : t.span.stop ≤ (place.locate source).stop := hstop
    rw [hplace] at hle
    have := ((Token.inOrder_beforeEnd source).le_iff ht.token hlast).2.mp hle
    have := hsolid.1
    omega
  have hget : ((Token.beforeEnd source).map Terminal.ofToken)[n]? = some (Terminal.ofToken t) := by
    rw [List.getElem?_map, ht.token]
    rfl
  have hbegins : (Terminal.ofToken t).beginsStatement = true :=
    Bool.and_eq_true_iff.mpr ⟨ht.line, ht.keyword⟩
  have hdepth := ht.outside
  rw [Token.between, List.map_drop, List.map_take] at hdepth
  obtain ⟨heq, hc⟩ := hspares c rfl n _ hmn hn hget hbegins hdepth
  exact ⟨heq, c, _, hc, rfl, rfl⟩

/-- In `f(1` with a declaration on the next line, the call takes the declaration. -/
theorem leftovers_take_statement :
    let source := "f(1\nlet y = 2"
    let d : Diagnostic :=
      { code := .e1008
        message := "unexpected code 'let y = 2' in function call"
        span := ⟨4, 13⟩ }
    let t : Token String := ⟨.fixed .letWord, ⟨4, 7⟩, ⟨false, true, false, true⟩⟩
    d ∈ (ofSource source 0).diagnostics ∧ Token.BeginsStatement source 3 3 t ∧
      d.span.covers t.span = true :=
  ⟨by decide +kernel, ⟨by decide +kernel, rfl, rfl, by decide +kernel⟩, rfl⟩

/-- Where the line of the call has more to take, it takes no more than that line. -/
theorem leftovers_spare_statements_two_values :
    let source := "f(1 2\nlet y = 2"
    let d : Diagnostic :=
      { code := .e1008
        message := "unexpected code '2' in function call"
        span := ⟨4, 5⟩ }
    d ∈ (ofSource source 0).diagnostics ∧ d.code.isOfLeftovers = true ∧
      ∃ m first, (Token.beforeEnd source)[m]? = some first ∧ d.span.start = first.span.start ∧
        ∀ n t, Token.BeginsStatement source m n t → m ≤ n → t.span.stop ≤ d.span.stop →
          n = m ∧ ∃ c text, (c = .tuple ∨ c = .call) ∧ d.code = Construct.leftoverCode c ∧
            d.message = c.leftoverMessage text := by
  intro source d
  have hd : d ∈ (ofSource source 0).diagnostics := by decide +kernel
  exact ⟨hd, rfl, leftovers_spare_statements hd rfl⟩

end Outcome

end PlatformGate
