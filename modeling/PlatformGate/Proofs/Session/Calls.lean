/-
# Calls on a session

A session takes calls in any order: a clause of a header, or all that is left as a module.  `On` is
what every call keeps, whatever text the messages quote from: the session stands in the tokens it was
started with, and its sink has not dropped more errors than came.  From it follows what a caller
relies on (`Sound`), and by induction over the calls that it holds after all of them.
-/
import PlatformGate.Proofs.Parse.Depth
import PlatformGate.Proofs.Parse.Terminates
import PlatformGate.Proofs.Report.Emit
import PlatformGate.Proofs.Token.Kinds

namespace PlatformGate

/-! ## 1. Counting errors -/

namespace Sink

variable {s : Sink}

theorem suppressed_le_emit (h : s.suppressed ≤ s.errorCount) (d : Diagnostic) :
    (s.emit d).suppressed ≤ (s.emit d).errorCount := by
  unfold emit
  split
  · exact Nat.succ_le_succ h
  · exact Nat.le_succ_of_le h

/-- No more errors are dropped than come. -/
theorem suppressed_le_emitAll (h : s.suppressed ≤ s.errorCount) (ds : List Diagnostic) :
    (s.emitAll ds).suppressed ≤ (s.emitAll ds).errorCount := by
  induction ds generalizing s with
  | nil => exact h
  | cons d ds ih =>
    rw [emitAll_cons]
    exact ih (suppressed_le_emit h d)

end Sink

/-! ## 2. Tokens that are looked up -/

/-- Both ends of the run are found among `n` tokens. -/
def Run.Inside (n : Nat) (r : Run) : Prop := r.first < n ∧ r.past ≤ n

/-- The place of the report and the bracket that it blames are found among `n` tokens. -/
def Report.Inside (n : Nat) (r : Report Run) : Prop :=
  r.place.Inside n ∧ ∀ note ∈ r.cause.note?, note.1.Inside n

theorem Run.Within.inside {lo hi n : Nat} {r : Run} (h : r.Within lo hi) (hn : hi < n) :
    r.Inside n := by
  obtain ⟨_, hle, hhi⟩ := h
  constructor <;> omega

theorem Report.Placed.inside {lo hi n : Nat} {r : Report Run} (h : r.Placed lo hi) (hn : hi < n) :
    r.Inside n := by
  obtain ⟨hlo, hle, hhi, hpast⟩ := h.bounds
  constructor
  · constructor <;> omega
  · intro note hnote
    obtain ⟨-, -, hplace⟩ := h
    cases hcause : r.cause with
    | unclosed c opener =>
      rw [hcause] at hplace hnote
      obtain ⟨-, k, hk, rfl⟩ := hplace
      obtain rfl := Option.mem_some_iff.mp hnote
      constructor <;> simp only [Run.token] <;> omega
    | _ =>
      rw [hcause] at hnote
      cases hnote

/-! ## 3. What every call keeps -/

/-- What a session can be asked. -/
inductive Call
  | clause (owner : Owner)
  | module
  deriving DecidableEq, Repr

namespace Session

/-- The session behind a call. -/
def after (s : Session) : Call → Session
  | .clause owner => (s.clause owner).2
  | .module => s.module.2

/-- The session behind some calls, from left to right. -/
def afterAll (s : Session) (calls : List Call) : Session := calls.foldl after s

/-- The session stands in the tokens: what is left of them begins at its position. -/
structure On (tokens : List (Token String)) (s : Session) : Prop where
  spans_eq : s.spans = (tokens.map Token.span).toArray
  rest_eq : s.input.rest = (Terminal.ofTokens tokens).drop s.position
  position_le : s.position ≤ (Terminal.ofTokens tokens).length
  counted : s.sink.suppressed ≤ s.sink.errorCount

variable {tokens : List (Token String)} {s : Session} {α : Type}

theorem on_start (tokens : List (Token String)) (text : String) (limit : Nat) :
    On tokens (start tokens text limit) where
  spans_eq := rfl
  rest_eq := rfl
  position_le := Nat.zero_le _
  counted := Nat.le_refl 0

/-- A parser that moves forward leaves the session on its tokens. -/
theorem On.run (h : On tokens s) {p : Parser α} (hp : s.input.Ahead (p s.input).next) :
    On tokens (s.run p).2 := by
  have hposition : s.position = s.input.position := rfl
  have hlength : s.position + s.input.rest.length = (Terminal.ofTokens tokens).length := by
    have hle := h.position_le
    rw [h.rest_eq, List.length_drop]
    omega
  have hstop := hp.stop_eq
  obtain ⟨ts, hts, hnext⟩ := hp
  constructor
  · exact h.spans_eq
  · change (p s.input).next.rest = (Terminal.ofTokens tokens).drop (p s.input).next.position
    have hrest : (p s.input).next.rest = s.input.rest.drop ts.length := by
      rw [hts, List.drop_left]
    rw [hrest, h.rest_eq, List.drop_drop, hnext, hposition]
  · change (p s.input).next.position ≤ (Terminal.ofTokens tokens).length
    omega
  · exact Sink.suppressed_le_emitAll h.counted _

theorem ahead_clause (owner : Owner) (i : Input) : i.Ahead (Parser.clause owner i).next :=
  (Parser.clause_reads owner i).moves.ahead

theorem ahead_topLevel (i : Input) : i.Ahead (Parser.topLevel i).next :=
  (Parser.topLevel_reads i).1.ahead

/-- A call keeps the session on its tokens.  Keeping nodes in the arena changes none of that. -/
theorem On.after (h : On tokens s) (call : Call) : On tokens (s.after call) := by
  cases call with
  | clause owner =>
    have hrun := h.run (ahead_clause owner s.input)
    exact ⟨hrun.spans_eq, hrun.rest_eq, hrun.position_le, hrun.counted⟩
  | module =>
    have hrun := h.run (ahead_topLevel s.input)
    exact ⟨hrun.spans_eq, hrun.rest_eq, hrun.position_le, hrun.counted⟩

/-- **Any calls keep the session on its tokens.** -/
theorem On.afterAll (h : On tokens s) (calls : List Call) : On tokens (s.afterAll calls) := by
  induction calls generalizing s with
  | nil => exact h
  | cons call calls ih => exact ih (h.after call)

/-! ## 4. What callers rely on -/

/-- All that a call looks up by index is there: the runs in its reports, and the places of the nodes
that it gives. -/
def LooksInside (s : Session) : Call → Prop
  | .clause owner => (Parser.clause owner).Ensures s.input fun c rs _ =>
      (∀ r ∈ rs, r.Inside s.spans.size) ∧ c.Everywhere (Run.Inside s.spans.size)
  | .module => Parser.topLevel.Ensures s.input fun ss rs _ =>
      (∀ r ∈ rs, r.Inside s.spans.size) ∧ ∀ x ∈ ss, x.Everywhere (Run.Inside s.spans.size)

/-- What holds between any two calls. -/
structure Sound (tokens : List (Token String)) (s : Session) : Prop where
  /-- The session stands on a token and sees its kind. -/
  inside : tokens[s.position]?.map Token.kind = some s.input.kind
  /-- No call goes back. -/
  forward : ∀ call, s.position ≤ (s.after call).position
  /-- No call goes past the tokens. -/
  stays : ∀ call, (s.after call).position < tokens.length
  looks : ∀ call, s.LooksInside call
  /-- Whatever errors come next, no more are dropped than have come. -/
  counted : ∀ ds, (s.sink.emitAll ds).suppressed ≤ (s.sink.emitAll ds).errorCount
  /-- A module ends on the end of file. -/
  ends : tokens[(s.after .module).position]?.map Token.kind = some .endOfFile
  /-- A module anywhere behind a module is empty, and nothing is said of it. -/
  again : ∀ calls, ((s.after .module).afterAll calls).module.1.isEmpty = true ∧
    ((s.after .module).afterAll calls).module.2.sink = ((s.after .module).afterAll calls).sink

section Lexed

variable {source : String}

theorem On.size_spans (h : On (Token.ofSource source) s) :
    s.spans.size = (Terminal.ofTokens (Token.ofSource source)).length + 1 := by
  rw [h.spans_eq, ← Terminal.length_ofSource]
  simp

theorem On.position_lt (h : On (Token.ofSource source) s) :
    s.position < (Token.ofSource source).length := by
  rw [Terminal.length_ofSource]
  exact Nat.lt_succ_of_le h.position_le

/-- The kind that comes next is the kind of the token at the position. -/
theorem On.kind_eq (h : On (Token.ofSource source) s) :
    (Token.ofSource source)[s.position]?.map Token.kind = some s.input.kind := by
  rw [← List.getElem?_map, ← Terminal.kinds_ofSource]
  cases hrest : s.input.rest with
  | nil =>
    have hend : s.position = (Terminal.ofTokens (Token.ofSource source)).length := by
      have hnil := h.rest_eq
      rw [hrest] at hnil
      exact Nat.le_antisymm h.position_le (List.drop_eq_nil_iff.mp hnil.symm)
    rw [hend]
    simp [Input.kind, hrest]
  | cons t ts =>
    have hdrop := h.rest_eq
    rw [hrest] at hdrop
    have hget : (Terminal.ofTokens (Token.ofSource source))[s.position]? = some t := by
      rw [← List.head?_drop, ← hdrop]
      rfl
    obtain ⟨hlt, -⟩ := List.getElem?_eq_some_iff.mp hget
    rw [List.getElem?_append_left (by simpa using hlt), List.getElem?_map, hget]
    exact congrArg some (Input.kind_eq_head hrest).symm

/-- **Calls look at tokens that are there.**  All they say and give lies between the token where
they begin and the token where they stop, and that is one of the list. -/
theorem On.looksInside (h : On (Token.ofSource source) s) (call : Call) : s.LooksInside call := by
  have hsize := h.size_spans
  cases call with
  | clause owner =>
    have hend := (h.after (.clause owner)).position_le
    have hread := Parser.clause_reads owner s.input
    have hlt : (Parser.clause owner s.input).next.position < s.spans.size := by
      rw [hsize]
      exact Nat.lt_succ_of_le hend
    constructor
    · intro r hr
      exact (hread.moves.placed r hr).inside hlt
    · exact hread.spans.inside.mono fun r hr => hr.inside hlt
  | module =>
    have hend := (h.after .module).position_le
    obtain ⟨hmoves, -, hstmts⟩ := Parser.topLevel_reads s.input
    have hlt : (Parser.topLevel s.input).next.position < s.spans.size := by
      rw [hsize]
      exact Nat.lt_succ_of_le hend
    constructor
    · intro r hr
      exact (hmoves.placed r hr).inside hlt
    · intro x hx
      exact Stmt.Everywhere.mono (fun r hr => hr.inside hlt) x (hstmts x hx)

/-- A session that has read its tokens stands on the end of file. -/
theorem On.kind_at_end (h : On (Token.ofSource source) s) (hrest : s.input.rest = []) :
    (Token.ofSource source)[s.position]?.map Token.kind = some .endOfFile := by
  rw [h.kind_eq]
  unfold Input.kind
  rw [hrest]

end Lexed

/-- Behind a module nothing is left. -/
theorem rest_after_module (s : Session) : (s.after .module).input.rest = [] :=
  (Parser.topLevel_reads s.input).2.1

theorem ahead_after (s : Session) (call : Call) : s.input.Ahead (s.after call).input := by
  cases call with
  | clause owner => exact ahead_clause owner s.input
  | module => exact ahead_topLevel s.input

/-- Where nothing is left, no call brings anything back. -/
theorem rest_afterAll (h : s.input.rest = []) (calls : List Call) :
    (s.afterAll calls).input.rest = [] := by
  induction calls generalizing s with
  | nil => exact h
  | cons call calls ih =>
    apply ih
    obtain ⟨ts, hts, -⟩ := ahead_after s call
    rw [h] at hts
    exact (List.append_eq_nil_iff.mp hts.symm).2

/-- At the end of file the top level reads nothing and says nothing. -/
theorem topLevel_at_end {i : Input} (h : i.rest = []) :
    Parser.topLevel.Ensures i fun ss rs j => ss = [] ∧ rs = [] ∧ j = i := by
  unfold Parser.topLevel
  rw [Parser.ensures_bind]
  apply Parser.ensures_collect_stop
  unfold Parser.topLevelItem?
  rw [Parser.ensures_bind, Parser.ensures_atEnd]
  constructor
  · intro _
    exact ⟨rfl, rfl, rfl, rfl⟩
  · intro hne
    exact absurd h hne

/-- A module read at the end of file is empty, and nothing is said of it. -/
theorem module_at_end (h : s.input.rest = []) :
    s.module.1.isEmpty = true ∧ s.module.2.sink = s.sink := by
  have hread := topLevel_at_end h
  obtain ⟨hstmts, hreports, -⟩ :
    (Parser.topLevel s.input).value = [] ∧ (Parser.topLevel s.input).reports = [] ∧ _ := hread
  constructor
  · unfold module run
    simp only [hstmts]
    rfl
  · unfold module run
    simp only [hreports]
    rfl

/-- What every call keeps is what callers rely on. -/
theorem On.sound {source : String} (h : On (Token.ofSource source) s) :
    Sound (Token.ofSource source) s where
  inside := h.kind_eq
  forward := fun call => (ahead_after s call).position_le
  stays := fun call => (h.after call).position_lt
  looks := h.looksInside
  counted := Sink.suppressed_le_emitAll h.counted
  ends := (h.after .module).kind_at_end (rest_after_module s)
  again := fun calls => module_at_end (rest_afterAll (rest_after_module s) calls)

/-! ## 5. Any calls -/

/-- **Calls in any order end, and go wrong nowhere.**  Whatever text the messages quote from: after
any calls, all that callers rely on holds.  Every recursion and every loop comes to an end; each
round of the loops over the top level, over a block and over the rest of a line takes a terminal or
ends the loop; and the scan over leftovers never counts below zero. -/
theorem calls_sound (source text : String) (limit : Nat) (calls : List Call) :
    Sound (Token.ofSource source) ((start (Token.ofSource source) text limit).afterAll calls) ∧
      Parser.Terminating ∧
      (∀ m, Parser.AdvancesUpTo m Parser.topLevelItem?) ∧
      (∀ m opener, Parser.AdvancesUpTo m (Parser.blockItem? Parser.stmt opener)) ∧
      (∀ m c, Parser.AdvancesUpTo m (Parser.trailing? c)) ∧
      ∀ stop lineSensitive ts n, n ≤ captureLength stop lineSensitive 0 false ts →
        closed (ts.take n) ≤ opened (ts.take n) := by
  have hon := on_start (Token.ofSource source) text limit
  have hblock : ∀ m opener, Parser.AdvancesUpTo m (Parser.blockItem? Parser.stmt opener) := by
    intro m opener
    exact Parser.blockItem?_advances (fun i _ => Parser.stmt_reads i) (Nat.lt_succ_self m) opener
  refine ⟨(hon.afterAll calls).sound, Parser.terminating, Parser.topLevelItem?_advances, hblock,
    fun m c => Parser.trailing?_advances c m, ?_⟩
  intro stop lineSensitive ts n hn
  have hcount := closed_le_captured stop lineSensitive ts 0 false n hn
  rwa [Nat.zero_add] at hcount

end Session

end PlatformGate
