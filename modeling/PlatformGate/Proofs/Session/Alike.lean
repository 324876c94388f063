/-
# Only kinds and lines decide

A reader is given terminals, and a terminal is the kind of a token and how the token lies in its
line.  So two sources whose tokens agree in that are read alike, whatever their blanks and comments
are and whatever text the messages quote from.  What does differ are the offsets, and they come in
by `Session.locate` alone: each diagnostic of the one is the wording of the same report as that of
the other (`Diagnostic.Alike`), and the arenas differ in nothing but places.

`InStep` is what any calls keep, and `Alike` what a caller sees of it.
-/
import Mathlib.Data.List.Forall2
import PlatformGate.Proofs.Arena.Places
import PlatformGate.Proofs.Joining.Moved
import PlatformGate.Proofs.Query.Contract

namespace PlatformGate

variable {source source' : String} {text text' : String}

/-! ## 1. Terminals and names -/

/-- The terminals are all that a reader is given. -/
theorem Terminal.ofTokens_congr {ts ts' : List (Token String)}
    (h : ts.map ofToken = ts'.map ofToken) : ofTokens ts = ofTokens ts' := by
  have hmap : ∀ us : List (Token String),
      ofTokens us = (us.map ofToken).takeWhile fun t => t.kind != .endOfFile := by
    intro us
    rw [List.takeWhile_map]
    rfl
  rw [hmap, hmap, h]

/-- Texts are numbered in the order of the tokens, wherever these stand. -/
theorem Token.internAll_congr {ts ts' : List (Token String)}
    (h : ts.map Token.kind = ts'.map Token.kind) (table : NameTable) :
    (internAll table ts).2 = (internAll table ts').2 := by
  induction ts generalizing ts' table with
  | nil =>
    obtain rfl := List.map_eq_nil_iff.mp h.symm
    rfl
  | cons t ts ih =>
    obtain ⟨t', ts', rfl, hkind, hrest⟩ := List.map_eq_cons_iff.mp h.symm
    rw [internAll, internAll]
    dsimp only
    rw [hkind]
    exact ih hrest.symm _

/-! ## 2. Diagnostics -/

/-- The spans cover the tokens at the same indexes, each among its own tokens. -/
def Span.SameTokens (ts ts' : List (Token String)) (p p' : Span) : Prop :=
  ∃ r : Run, r.Inside ts.length ∧ p = r.toSpan (ts.map Token.span).toArray ∧
    p' = r.toSpan (ts'.map Token.span).toArray

/-- What the diagnostic quotes of a text. -/
def Diagnostic.quotation (text : String) (d : Diagnostic) : String :=
  (Text.slice? text d.span.start d.span.stop).getD ""

/-- The diagnostics say the same of the same tokens.  Only what a message quotes may differ. -/
structure Diagnostic.Alike (ts ts' : List (Token String)) (text text' : String)
    (d d' : Diagnostic) : Prop where
  code : d.code = d'.code
  severity : d.severity = d'.severity
  span : Span.SameTokens ts ts' d.span d'.span
  notes : List.Forall₂
    (fun n n' => n.message = n'.message ∧ Span.SameTokens ts ts' n.span n'.span) d.notes d'.notes
  wording : ∃ cause : Cause Run, d.code = cause.code ∧
    d.message = cause.message (d.quotation text) ∧
    d'.message = cause.message (d'.quotation text')

/-- **One report gives two diagnostics that are alike.** -/
theorem Report.alike {ts ts' : List (Token String)} {r : Report Run} (h : r.Inside ts.length) :
    Diagnostic.Alike ts ts' text text'
      ((r.map (Run.toSpan (ts.map Token.span).toArray)).toDiagnostic text)
      ((r.map (Run.toSpan (ts'.map Token.span).toArray)).toDiagnostic text') := by
  obtain ⟨hplace, hnotes⟩ := h
  constructor
  · rw [code_toDiagnostic, code_toDiagnostic]
  · rfl
  · exact ⟨r.place, hplace, rfl, rfl⟩
  · unfold toDiagnostic Report.map
    rw [Cause.note?_map, Cause.note?_map]
    cases hnote : r.cause.note? with
    | none => exact .nil
    | some note => exact .cons ⟨rfl, note.1, hnotes note hnote, rfl, rfl⟩ .nil
  · exact ⟨r.cause, code_toDiagnostic .., Cause.message_map .., Cause.message_map ..⟩

/-- The sinks took as many errors and keep related ones. -/
structure Sink.Related (R : Diagnostic → Diagnostic → Prop) (s s' : Sink) : Prop where
  limit : s.limit = s'.limit
  errorCount : s.errorCount = s'.errorCount
  suppressed : s.suppressed = s'.suppressed
  stored : List.Forall₂ R s.stored s'.stored

namespace Sink.Related

variable {R : Diagnostic → Diagnostic → Prop} {s s' : Sink}

theorem emit (h : s.Related R s') {d d' : Diagnostic} (hd : R d d') :
    (s.emit d).Related R (s'.emit d') := by
  have hreached : s.limitReached = s'.limitReached := by
    unfold limitReached
    rw [h.limit, h.errorCount, h.suppressed]
  have hcount : s.errorCount + 1 = s'.errorCount + 1 := congrArg (· + 1) h.errorCount
  unfold Sink.emit
  rw [hreached]
  split
  · exact ⟨h.limit, hcount, congrArg (· + 1) h.suppressed, h.stored⟩
  · exact ⟨h.limit, hcount, h.suppressed, List.rel_append h.stored (.cons hd .nil)⟩

theorem emitAll (h : s.Related R s') {ds ds' : List Diagnostic} (hds : List.Forall₂ R ds ds') :
    (s.emitAll ds).Related R (s'.emitAll ds') := by
  induction hds generalizing s s' with
  | nil => exact h
  | cons hd _ ih => exact ih (h.emit hd)

end Sink.Related

/-! ## 3. Arenas -/

/-- Actions that come to the same without places come to the same from arenas of one shape. -/
theorem Arena.Commutes.shape_eq {ρ α : Type} {m m' : StateM (Arena ρ) α}
    {u : StateM (Arena Unit) α} (h : Commutes (fun _ => ()) id m u)
    (h' : Commutes (fun _ => ()) id m' u) {a a' : Arena ρ} (ha : a.shape = a'.shape) :
    (m.run a).1 = (m'.run a').1 ∧ (m.run a).2.shape = (m'.run a').2.shape := by
  have hboth : u.run a.shape = u.run a'.shape := congrArg u.run ha
  exact Prod.mk.inj ((h a).symm.trans (hboth.trans (h' a')))

/-- Trees that differ in places alone. -/
theorem Clause.forget_map {ρ σ : Type} {c : Clause ρ} {P : ρ → Prop} (h : c.Everywhere P)
    (f f' : ρ → σ) : (c.map f).map (fun _ => ()) = (c.map f').map fun _ => () :=
  Clause.map_map (h.mono fun _ _ => rfl)

theorem Stmt.forget_mapAll {ρ σ : Type} {ss : List (Stmt ρ)} {P : ρ → Prop}
    (h : ∀ s ∈ ss, s.Everywhere P) (f f' : ρ → σ) :
    mapAll (fun _ => ()) (mapAll f ss) = mapAll (fun _ => ()) (mapAll f' ss) := by
  refine mapAll_mapAll ss (everywhereAll_iff.mpr fun s hs => ?_)
  exact Everywhere.mono (fun _ _ => rfl) s (h s hs)

/-! ## 4. Two sessions -/

namespace Session

variable {s s' : Session} {α : Type}

/-- The sessions stand at the same terminal of sources that look the same, and what has come of them
differs in places and quotations alone. -/
structure InStep (source source' text text' : String) (s s' : Session) : Prop where
  left : s.On (Token.ofSource source)
  right : s'.On (Token.ofSource source')
  texts : s.text = text ∧ s'.text = text'
  input : s.input = s'.input
  shape : s.arena.shape = s'.arena.shape
  sink : s.sink.Related
    (Diagnostic.Alike (Token.ofSource source) (Token.ofSource source') text text') s'.sink

theorem inStep_start
    (h : (Token.ofSource source).map Terminal.ofToken =
      (Token.ofSource source').map Terminal.ofToken)
    (text text' : String) (limit : Nat) :
    InStep source source' text text' (start (Token.ofSource source) text limit)
      (start (Token.ofSource source') text' limit) where
  left := on_start ..
  right := on_start ..
  texts := ⟨rfl, rfl⟩
  input := congrArg Input.start (Terminal.ofTokens_congr h)
  shape := rfl
  sink := ⟨rfl, rfl, rfl, .nil⟩

/-- **A parser gives the same in both sessions,** and reports the same. -/
theorem InStep.run (h : InStep source source' text text' s s') {p : Parser α}
    (hahead : s.input.Ahead (p s.input).next)
    (hreports : ∀ r ∈ (p s.input).reports, r.Inside s.spans.size) :
    (s.run p).1 = (s'.run p).1 ∧
      InStep source source' text text' (s.run p).2 (s'.run p).2 := by
  have hinput : (s'.run p).1 = (p s.input).value := by rw [h.input]; rfl
  refine ⟨hinput.symm, h.left.run hahead, h.right.run (h.input ▸ hahead), h.texts, ?_, h.shape, ?_⟩
  · change (p s.input).next = (p s'.input).next
    rw [h.input]
  · have hsize : s.spans.size = (Token.ofSource source).length := by simp [h.left.spans_eq]
    rw [sink_run, sink_run]
    refine h.sink.emitAll ?_
    unfold told
    rw [← h.input]
    refine List.forall₂_map_left_iff.mpr (List.forall₂_map_right_iff.mpr ?_)
    refine List.forall₂_same.mpr fun r hr => ?_
    unfold locate
    rw [h.left.spans_eq, h.right.spans_eq, h.texts.1, h.texts.2]
    exact Report.alike (hsize ▸ hreports r hr)

/-- Nodes are kept under the same ids. -/
theorem InStep.keep (h : InStep source source' text text' s s')
    {m m' : StateM (Arena Span) α} {u : StateM (Arena Unit) α}
    (hm : Arena.Commutes (fun _ => ()) id m u) (hm' : Arena.Commutes (fun _ => ()) id m' u) :
    (s.keep m).1 = (s'.keep m').1 ∧
      InStep source source' text text' (s.keep m).2 (s'.keep m').2 := by
  obtain ⟨hvalue, hshape⟩ := hm.shape_eq hm' h.shape
  exact ⟨hvalue, ⟨h.left.spans_eq, h.left.rest_eq, h.left.position_le, h.left.counted⟩,
    ⟨h.right.spans_eq, h.right.rest_eq, h.right.position_le, h.right.counted⟩, h.texts, h.input,
    hshape, h.sink⟩

theorem InStep.clause (h : InStep source source' text text' s s') (owner : Owner) :
    (s.clause owner).1 = (s'.clause owner).1 ∧
      InStep source source' text text' (s.clause owner).2 (s'.clause owner).2 := by
  obtain ⟨hreports, hplaces⟩ := h.left.looksInside (.clause owner)
  have hplaces : (s.run (Parser.clause owner)).1.Everywhere _ := hplaces
  obtain ⟨hvalue, hrun⟩ := h.run (ahead_clause owner s.input) hreports
  unfold Session.clause
  dsimp only
  rw [← hvalue]
  refine hrun.keep (Clause.layout_map _ _) ?_
  rw [Clause.forget_map hplaces _ (s'.run (Parser.clause owner)).2.locate]
  exact Clause.layout_map _ _

theorem InStep.module (h : InStep source source' text text' s s') :
    s.module.1 = s'.module.1 ∧ InStep source source' text text' s.module.2 s'.module.2 := by
  obtain ⟨hreports, hplaces⟩ := h.left.looksInside .module
  have hplaces : ∀ x ∈ (s.run Parser.topLevel).1, x.Everywhere _ := hplaces
  obtain ⟨hvalue, hrun⟩ := h.run (ahead_topLevel s.input) hreports
  unfold Session.module
  dsimp only
  rw [← hvalue]
  refine hrun.keep (Stmt.layoutModule_map _ _) ?_
  rw [Stmt.forget_mapAll hplaces _ (s'.run Parser.topLevel).2.locate]
  exact Stmt.layoutModule_map _ _

/-- **Any calls keep the sessions in step.** -/
theorem InStep.afterAll (h : InStep source source' text text' s s') (calls : List Call) :
    InStep source source' text text' (s.afterAll calls) (s'.afterAll calls) := by
  induction calls generalizing s s' with
  | nil => exact h
  | cons call calls ih =>
    cases call with
    | clause owner => exact ih (h.clause owner).2
    | module => exact ih h.module.2

/-! ## 5. Sources that look the same -/

/-- What is the same in two sessions between any two calls, and what a call answers. -/
structure Alike (source source' text text' : String) (s s' : Session) : Prop where
  position : s.position = s'.position
  arena : s.arena.shape = s'.arena.shape
  diagnostics : List.Forall₂
    (Diagnostic.Alike (Token.ofSource source) (Token.ofSource source') text text')
    s.sink.stored s'.sink.stored
  errorCount : s.sink.errorCount = s'.sink.errorCount
  suppressed : s.sink.suppressed = s'.sink.suppressed
  clause : ∀ owner, (s.clause owner).1 = (s'.clause owner).1
  module : s.module.1 = s'.module.1

theorem InStep.alike (h : InStep source source' text text' s s') :
    Alike source source' text text' s s' where
  position := congrArg Input.position h.input
  arena := h.shape
  diagnostics := h.sink.stored
  errorCount := h.sink.errorCount
  suppressed := h.sink.suppressed
  clause := fun owner => (h.clause owner).1
  module := h.module.1

/-- **Only the kinds of the tokens and how they lie in their lines decide what is read.**  Sources
that agree in that give the same after any calls: the same ids and slots in arenas of one shape, the
same position, and diagnostics that say the same of the same tokens, whatever texts the messages
quote from.  Their names get the same numbers. -/
theorem terminals_decide
    (h : (Token.ofSource source).map Terminal.ofToken =
      (Token.ofSource source').map Terminal.ofToken)
    (text text' : String) (limit : Nat) (calls : List Call) :
    Alike source source' text text'
        ((start (Token.ofSource source) text limit).afterAll calls)
        ((start (Token.ofSource source') text' limit).afterAll calls) ∧
      (Token.internAll NameTable.initial (Token.ofSource source)).2 =
        (Token.internAll NameTable.initial (Token.ofSource source')).2 := by
  refine ⟨((inStep_start h text text' limit).afterAll calls).alike, ?_⟩
  apply Token.internAll_congr
  have hkinds := congrArg (List.map Terminal.kind) h
  rwa [List.map_map, List.map_map] at hkinds

/-- A source with blanks and a comment where the other has none, and texts that are neither. -/
theorem terminals_decide_comment :
    let source := "if  #available(iOS 17 // or later\r\n||  " ++ Text.braced "\t" ++ "\r\n]"
    let source' := "if #available(iOS 17\n||" ++ Text.braced "" ++ "\n]"
    (Token.ofSource source).map Terminal.ofToken =
        (Token.ofSource source').map Terminal.ofToken ∧
      (Alike source source' "" "no source"
          ((start (Token.ofSource source) "" 0).afterAll [.module])
          ((start (Token.ofSource source') "no source" 0).afterAll [.module]) ∧
        (Token.internAll NameTable.initial (Token.ofSource source)).2 =
          (Token.internAll NameTable.initial (Token.ofSource source')).2) := by
  intro source source'
  have h : (Token.ofSource source).map Terminal.ofToken =
      (Token.ofSource source').map Terminal.ofToken := by decide +kernel
  exact ⟨h, terminals_decide h "" "no source" 0 [.module]⟩

end Session

end PlatformGate
