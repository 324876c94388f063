/-
# The limit on errors only cuts the list short

A sink with a limit keeps the first errors and counts the others (`Sink.Truncates`).  A session never
asks its sink what it keeps: the one thing that a parser is told about reports is whether there were
any.  So two sessions that differ in their limit alone go on side by side (`Session.Truncates`), and
what comes of a source is the same up to the end of the list.
-/
import PlatformGate.Proofs.Report.Emit

namespace PlatformGate

/-! ## 1. Two sinks -/

namespace Sink

/-- The sink `s` has a limit and `u` has none.  Both took the same errors and no warnings. -/
structure Truncates (s u : Sink) : Prop where
  limited : 1 ≤ s.limit
  unlimited : u.limit = 0
  stored : s.stored = u.stored.take s.limit
  counted : s.errorCount = u.stored.length ∧ u.errorCount = u.stored.length
  suppressed : s.suppressed = (u.stored.drop s.limit).length ∧ u.suppressed = 0

variable {s u : Sink}

theorem truncates_withLimit {limit : Nat} (h : 1 ≤ limit) :
    Truncates (withLimit limit) (withLimit 0) where
  limited := h
  unlimited := rfl
  stored := List.take_nil.symm
  counted := ⟨rfl, rfl⟩
  suppressed := ⟨by simp [withLimit], rfl⟩

/-- The limit is reached when the other sink keeps as many. -/
theorem Truncates.limitReached_iff (h : Truncates s u) :
    s.limitReached = true ↔ s.limit ≤ u.stored.length := by
  have hlimit := h.limited
  rw [limitReached, h.counted.1, h.suppressed.1, List.length_drop]
  simp only [Bool.and_eq_true, decide_eq_true_eq]
  omega

/-- **One more error** is kept by both sinks, or counted by the one and kept by the other. -/
theorem Truncates.emit (h : Truncates s u) (d : Diagnostic) : Truncates (s.emit d) (u.emit d) := by
  have hother : u.emit d =
      { u with errorCount := u.errorCount + 1, stored := u.stored ++ [d] } := by
    simp [Sink.emit, limitReached_of_unlimited h.unlimited]
  have hreached := h.limitReached_iff
  rw [hother]
  by_cases hfull : s.limit ≤ u.stored.length
  · have hemit : s.emit d =
        { s with errorCount := s.errorCount + 1, suppressed := s.suppressed + 1 } := by
      simp [Sink.emit, hreached.mpr hfull]
    rw [hemit]
    refine ⟨h.limited, h.unlimited, ?_, ?_, ?_⟩
    · rw [List.take_append_of_le_length hfull, h.stored]
    · simp [h.counted]
    · rw [List.drop_append_of_le_length hfull, List.length_append, h.suppressed.1]
      exact ⟨rfl, h.suppressed.2⟩
  · have hemit : s.emit d =
        { s with errorCount := s.errorCount + 1, stored := s.stored ++ [d] } := by
      simp [Sink.emit, mt hreached.mp hfull]
    have hroom : (u.stored ++ [d]).length ≤ s.limit := by
      rw [List.length_append, List.length_singleton]
      omega
    rw [hemit]
    refine ⟨h.limited, h.unlimited, ?_, ?_, ?_⟩
    · rw [List.take_of_length_le hroom, h.stored, List.take_of_length_le (by omega)]
    · simp [h.counted]
    · rw [List.drop_of_length_le hroom, h.suppressed.1, List.drop_of_length_le (by omega)]
      exact ⟨rfl, h.suppressed.2⟩

theorem Truncates.emitAll (h : Truncates s u) (ds : List Diagnostic) :
    Truncates (s.emitAll ds) (u.emitAll ds) := by
  induction ds generalizing s u with
  | nil => exact h
  | cons d ds ih =>
    rw [emitAll_cons, emitAll_cons]
    exact ih (h.emit d)

end Sink

/-! ## 2. Two sessions -/

namespace Session

variable {s u : Session} {α : Type}

/-- The sessions differ in nothing but the limit of their sinks. -/
structure Truncates (s u : Session) : Prop where
  text : s.text = u.text
  spans : s.spans = u.spans
  input : s.input = u.input
  arena : s.arena = u.arena
  sink : s.sink.Truncates u.sink

theorem truncates_start (tokens : List (Token String)) (text : String) {limit : Nat}
    (h : 1 ≤ limit) : Truncates (start tokens text limit) (start tokens text 0) :=
  ⟨rfl, rfl, rfl, rfl, Sink.truncates_withLimit h⟩

theorem Truncates.locate_eq (h : Truncates s u) : s.locate = u.locate := by
  funext r
  rw [locate, locate, h.spans]

/-- **A parser gives the same in both sessions.** -/
theorem Truncates.run (h : Truncates s u) (p : Parser α) :
    (s.run p).1 = (u.run p).1 ∧ Truncates (s.run p).2 (u.run p).2 := by
  unfold Session.run
  rw [h.input, h.text, h.locate_eq]
  exact ⟨rfl, rfl, h.spans, rfl, h.arena, h.sink.emitAll _⟩

/-- Nodes are kept in the same places. -/
theorem Truncates.keep (h : Truncates s u) (layout : StateM (Arena Span) α) :
    (s.keep layout).1 = (u.keep layout).1 ∧ Truncates (s.keep layout).2 (u.keep layout).2 := by
  unfold Session.keep
  rw [h.arena]
  exact ⟨rfl, h.text, h.spans, h.input, rfl, h.sink⟩

theorem Truncates.module (h : Truncates s u) :
    s.module.1 = u.module.1 ∧ Truncates s.module.2 u.module.2 := by
  obtain ⟨hvalue, hrun⟩ := h.run Parser.topLevel
  unfold Session.module
  simp only [hvalue, hrun.locate_eq]
  exact hrun.keep _

end Session

/-! ## 3. Outcomes -/

namespace Outcome

/-- An outcome is what a session is left with behind the module. -/
theorem ofSource_eq (source : String) (limit : Nat) :
    let s := (Session.start (Token.ofSource source) source limit).module
    ofSource source limit = ⟨s.1, s.2.arena, s.2.sink.stored, s.2.sink.suppressed,
      (Token.internAll NameTable.initial (Token.ofSource source)).2⟩ := rfl

section Limited

variable (source : String) {limit : Nat} (h : 1 ≤ limit)

include h

/-- The tree under a limit is the whole tree. -/
theorem tree_of_limit : (ofSource source limit).module = (ofSource source 0).module ∧
    (ofSource source limit).arena = (ofSource source 0).arena := by
  obtain ⟨hmodule, hrest⟩ := (Session.truncates_start (Token.ofSource source) source h).module
  rw [ofSource_eq, ofSource_eq]
  exact ⟨hmodule, hrest.arena⟩

/-- The diagnostics under a limit are the first ones, and the others are counted. -/
theorem sink_of_limit :
    (ofSource source limit).diagnostics = (ofSource source 0).diagnostics.take limit ∧
    (ofSource source limit).suppressed = ((ofSource source 0).diagnostics.drop limit).length ∧
    (ofSource source 0).suppressed = 0 := by
  have hsink := (Session.truncates_start (Token.ofSource source) source h).module.2.sink
  have hlimit : (Session.start (Token.ofSource source) source limit).module.2.sink.limit = limit :=
    Sink.limit_emitAll _ _
  have hstored := hsink.stored
  have hsuppressed := hsink.suppressed
  rw [hlimit] at hstored hsuppressed
  rw [ofSource_eq, ofSource_eq]
  exact ⟨hstored, hsuppressed⟩

theorem diagnostics_of_limit :
    (ofSource source limit).diagnostics = (ofSource source 0).diagnostics.take limit :=
  (sink_of_limit source h).1

end Limited

/-- A limit hides no diagnostic where there is none under it. -/
theorem diagnostics_eq_nil_of_limit {source : String} {limit : Nat}
    (h : (ofSource source limit).diagnostics = []) : (ofSource source 0).diagnostics = [] := by
  rcases Nat.eq_zero_or_pos limit with rfl | hpos
  · exact h
  · rw [diagnostics_of_limit source hpos] at h
    exact (List.take_eq_nil_iff.mp h).resolve_left (Nat.ne_of_gt hpos)

/-- **A limit on errors only cuts the list of diagnostics short.**  Tree and names are the same, the
diagnostics are the first ones, the others are counted, and whether there are errors is the same. -/
theorem ofSource_limited (source : String) {limit : Nat} (h : 1 ≤ limit) :
    let o : Outcome := ofSource source limit
    let u : Outcome := ofSource source 0
    o.module = u.module ∧ o.arena = u.arena ∧ o.names = u.names ∧
      o.diagnostics = u.diagnostics.take limit ∧
      o.suppressed = (u.diagnostics.drop limit).length ∧
      o.hasErrors = u.hasErrors := by
  obtain ⟨hmodule, harena⟩ := tree_of_limit source h
  obtain ⟨hdiagnostics, hkept, hnone⟩ := sink_of_limit source h
  have hnames : (ofSource source limit).names = (ofSource source 0).names := by
    rw [ofSource_eq, ofSource_eq]
  refine ⟨hmodule, harena, hnames, hdiagnostics, hkept, ?_⟩
  unfold hasErrors
  rw [hdiagnostics, hkept, hnone]
  obtain ⟨n, rfl⟩ : ∃ n, limit = n + 1 := ⟨limit - 1, by omega⟩
  cases (ofSource source 0).diagnostics <;> simp

/-- Of three closing brackets that close nothing, one is kept and two are counted. -/
theorem ofSource_limited_strays :
    let o := ofSource ") ] )" 1
    let u := ofSource ") ] )" 0
    1 ≤ 1 ∧ u.diagnostics.length = 3 ∧
      o.module = u.module ∧ o.arena = u.arena ∧ o.names = u.names ∧
      o.diagnostics = u.diagnostics.take 1 ∧
      o.suppressed = (u.diagnostics.drop 1).length ∧
      o.hasErrors = u.hasErrors :=
  ⟨Nat.le_refl 1, by decide +kernel, ofSource_limited ") ] )" (Nat.le_refl 1)⟩

end Outcome

end PlatformGate
