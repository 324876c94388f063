/-
# What messages quote

Some messages quote code: those about a token that is invalid, and those about leftovers.  Such a
message quotes the tokens of its span as they are written, from the start of the first to the end of
the last, and no token is quoted twice.

Leftovers are a bracket that closes nothing, alone, or code in which every bracket that closes was
opened before.  In the latter every bracket that opens is closed, unless the source ends first: so
what stands behind leftovers stands as deep in brackets as what stands in front of them.
-/
import PlatformGate.Proofs.Account.Order
import PlatformGate.Proofs.Recovery.Statements

namespace PlatformGate

/-! ## 1. Brackets in quoted code -/

namespace Token

/-- How many more brackets open than close. -/
def depth (ts : List (Token String)) : Int :=
  ts.countP (fun t => t.kind.isOpener) - ts.countP fun t => t.kind.isCloser

theorem depth_eq (ts : List (Token String)) :
    depth ts = opened (ts.map Terminal.ofToken) - closed (ts.map Terminal.ofToken) := by
  unfold opened closed
  rw [List.countP_map, List.countP_map]
  rfl

/-- Quoted code that can be left over in front of what stands behind: a bracket that closes nothing,
or code that closes no bracket that it has not opened, and leaves none open unless it is the last. -/
def LeftOver (quoted behind : List (Token String)) : Prop :=
  (∃ t, quoted = [t] ∧ t.kind.isCloser = true) ∨
    (∀ n, 0 ≤ depth (quoted.take n)) ∧ (depth quoted = 0 ∨ behind = [])

end Token

/-- **Leftovers are level.** -/
theorem Report.QuotesNext.leftOver {i : Input} {n : Nat} {r : Report Run} (h : r.QuotesNext i n)
    {c : Construct} (hcause : r.cause = .leftover c) {quoted behind : List (Token String)}
    (hquoted : quoted.map Terminal.ofToken = i.rest.take n)
    (hbehind : behind.map Terminal.ofToken = i.rest.drop n) : Token.LeftOver quoted behind := by
  cases h with
  | invalid => cases hcause
  | stray hclose =>
    left
    cases hrest : i.rest with
    | nil =>
      rw [Input.kind, hrest] at hclose
      exact absurd hclose Bool.false_ne_true
    | cons t ts =>
      rw [hrest] at hquoted
      obtain ⟨u, rfl, rfl⟩ := List.map_eq_singleton_iff.mp hquoted
      rw [Input.kind_eq_head hrest] at hclose
      exact ⟨u, rfl, hclose⟩
  | @captured _ stop lineSensitive _ hn _ =>
    right
    constructor
    · intro m
      have hmin : min m n ≤ captureLength stop lineSensitive 0 false i.rest := by
        rw [hn]
        exact Nat.min_le_right m n
      have hle := closed_le_captured stop lineSensitive i.rest 0 false (min m n) hmin
      rw [Token.depth_eq, List.map_take, hquoted, List.take_take]
      omega
    · have hlevel := closed_eq_captured stop lineSensitive i.rest 0 false
      rw [hn] at hlevel
      refine hlevel.imp (fun heq => ?_) fun hend => ?_
      · rw [Token.depth_eq, hquoted]
        omega
      · rw [← hbehind] at hend
        exact List.map_eq_nil_iff.mp hend

/-! ## 2. Quotations on a course -/

theorem Input.In.ahead {w : List Terminal} {i j : Input} (hi : i.In w) (h : i.Ahead j) :
    j.In w := by
  obtain ⟨ts, hts, hposition⟩ := h
  unfold In at hi ⊢
  rw [hposition, ← List.drop_drop, ← hi, hts, List.drop_left]

/-- What is reported with a quotation quotes the terminals that came next. -/
theorem Course.exists_quotesNext {w : List Terminal} {i j : Input} {rs : List (Report Run)}
    {as : List Asked} (h : Course i rs as j) (hi : i.In w) :
    ∀ r ∈ rs, r.cause.quotes = true → ∃ k n, r.QuotesNext k n ∧ k.In w := by
  induction h with
  | nil => exact fun r hr => absurd hr List.not_mem_nil
  | read _ _ ih => exact ih hi.next
  | remark hcause _ _ ih =>
    refine List.forall_mem_cons.mpr ⟨fun hquotes => ?_, ih hi⟩
    exact absurd (hcause.not_quotes.symm.trans hquotes) Bool.false_ne_true
  | @quote i j n r rs as hr _ ih =>
    exact List.forall_mem_cons.mpr ⟨fun _ => ⟨i, n, hr, hi⟩, ih (hi.skip n)⟩
  | query _ _ _ hinner _ ihinner ih =>
    exact List.forall_mem_append.mpr ⟨ihinner hi.next, ih (hi.next.ahead hinner.ahead)⟩
  | @search i k j n _ _ _ _ _ _ _ _ _ _ hinner _ ihinner ih =>
    have hk : k.In w := hi.next.next.ahead hinner.ahead
    refine List.forall_mem_append.mpr ⟨ihinner hi.next.next, ?_⟩
    exact List.forall_mem_cons.mpr ⟨fun hquotes => absurd hquotes nofun, ih (hk.skip n)⟩

/-- **A source is read on one course,** which asks the queries of its statements. -/
theorem Whole.exists_course (source : String) :
    let step := Parser.topLevel (Input.start (Whole.ofSource source).terminals)
    ∃ as, Course (Input.start (Whole.ofSource source).terminals) (Whole.ofSource source).reports as
        step.next ∧ as.map Asked.query = Stmt.queriesAll step.value :=
  Parser.takes_topLevel (P := Input.Any) _ trivial

/-! ## 3. Diagnostics that quote -/

/-- The codes of diagnostics that quote code. -/
def Code.quotes (c : Code) : Bool := c == .e0001 || c.isOfLeftovers

theorem Cause.quotes_code {ρ : Type} (cause : Cause ρ) : cause.code.quotes = cause.quotes := by
  cases cause with
  | leftover c | unclosed c => cases c <;> rfl
  | _ => rfl

/-- The text stands in the message, between quotation marks. -/
def Text.QuotedIn (text message : String) : Prop :=
  ∃ front back, message = front ++ "'" ++ text ++ "'" ++ back

theorem Text.quotedIn_of {opening closing : String} (front back text : String)
    (hopening : opening = front ++ "'") (hclosing : closing = "'" ++ back) :
    QuotedIn text (opening ++ text ++ closing) := by
  refine ⟨front, back, ?_⟩
  rw [hopening, hclosing, ← String.append_assoc]

theorem Text.QuotedIn.append {text message : String} (h : QuotedIn text message) (more : String) :
    QuotedIn text (message ++ more) := by
  obtain ⟨front, back, rfl⟩ := h
  exact ⟨front, back ++ more, String.append_assoc ..⟩

theorem Cause.quotedIn_message {ρ : Type} {cause : Cause ρ} (h : cause.quotes = true)
    (text : String) : Text.QuotedIn text (cause.message text) := by
  cases cause with
  | invalidToken =>
    change Text.QuotedIn text (if _ then _ else _)
    split
    · exact Text.quotedIn_of "integer literal " " is too large" text rfl rfl
    · exact Text.quotedIn_of "invalid character " "" text rfl rfl
  | leftover c =>
    cases c with
    | availability =>
      exact Text.quotedIn_of "unexpected code " " in availability condition" text rfl rfl
    | tuple => exact Text.quotedIn_of "unexpected code " " in tuple" text rfl rfl
    | call => exact Text.quotedIn_of "unexpected code " " in function call" text rfl rfl
    | header owner =>
      exact (Text.quotedIn_of "unexpected code " " in " text rfl rfl).append owner.phrase
    | block => exact Text.quotedIn_of "unexpected code " " in code block" text rfl rfl
    | topLevel => exact Text.quotedIn_of "extraneous code " " at top level" text rfl rfl
  | _ => exact absurd h nofun

/-- The span of the diagnostic covers tokens of the source, from the start of the first to the end of
the last, and its message quotes them as they are written. -/
structure Diagnostic.Quotes (source : String) (d : Diagnostic) : Prop where
  solid : d.span.start < d.span.stop
  tokens : ∃ before quoted behind first last,
    Token.beforeEnd source = before ++ quoted ++ behind ∧
      quoted.head? = some first ∧ quoted.getLast? = some last ∧
      d.span = ⟨first.span.start, last.span.stop⟩ ∧
      (d.code.isOfLeftovers = true → Token.LeftOver quoted behind)
  verbatim : ∃ text, Text.slice? source d.span.start d.span.stop = some text ∧
    Text.QuotedIn text d.message ∧
    ∃ cause : Cause Span, d.code = cause.code ∧ d.message = cause.message text

section Source

variable {source : String} {i : Input} {n : Nat} {r : Report Run}

theorem Session.code_word (source text : String) (r : Report Run) :
    (word source text r).code = r.cause.code := r.code_toDiagnostic _ _

theorem Session.message_word (source text : String) (r : Report Run) :
    (word source text r).message = (r.cause.map (Run.locate source)).message
      ((Text.slice? text (r.place.locate source).start (r.place.locate source).stop).getD "") := rfl

/-- The terminals to come are tokens of the source. -/
theorem Input.In.rest_eq (hi : i.In (Whole.ofSource source).terminals) :
    i.rest = ((Token.beforeEnd source).drop i.position).map Terminal.ofToken := by
  rw [List.map_drop, ← Token.terminals_ofSource]
  exact hi

theorem Report.QuotesNext.solid (h : r.QuotesNext i n)
    (hi : i.In (Whole.ofSource source).terminals) :
    r.place.Solid (Token.beforeEnd source).length := by
  have hpos := h.pos
  have hle := h.le_length
  rw [hi, List.length_drop, Whole.length_terminals] at hle
  rw [h.place_eq]
  exact ⟨by dsimp only; omega, by dsimp only; omega⟩

/-- **A report that quotes what comes next becomes a diagnostic that quotes it.** -/
theorem Report.QuotesNext.quotes_word (h : r.QuotesNext i n)
    (hi : i.In (Whole.ofSource source).terminals) :
    (Session.word source source r).Quotes source := by
  have hsolid := h.solid hi
  have hplace := h.place_eq
  have hcode := Session.code_word source source r
  obtain ⟨first, last, hfirst, hlast, hspan⟩ := hsolid.exists_between
  refine ⟨hsolid.start_lt_stop, ?_, ?_⟩
  · refine ⟨_, _, _, first, last, hsolid.split_between.1, hfirst, hlast, hspan, fun hleft => ?_⟩
    rw [hcode] at hleft
    obtain ⟨c, hc⟩ := Cause.leftover_of_code hleft
    refine h.leftOver hc ?_ ?_
    · rw [hplace, Token.between, hi.rest_eq, List.drop_take, Nat.add_sub_cancel_left, List.map_take]
    · rw [hplace, hi.rest_eq, ← List.map_drop, List.drop_drop]
  · obtain ⟨text, htext⟩ := hsolid.exists_slice
    have hmessage : (Session.word source source r).message =
        (r.cause.map (Run.locate source)).message text := by
      rw [Session.message_word, htext]
      rfl
    refine ⟨text, htext, ?_, r.cause.map (Run.locate source), rfl, hmessage⟩
    rw [hmessage, Cause.message_map]
    exact Cause.quotedIn_message h.quotes text

end Source

namespace Outcome

theorem diagnostics_eq_word (source : String) :
    (ofSource source 0).diagnostics =
      (Whole.ofSource source).reports.map (Session.word source source) :=
  diagnostics_ofSource source

/-- The diagnostics that quote code. -/
def quoting (o : Outcome) : List Diagnostic := o.diagnostics.filter fun d => d.code.quotes

/-- The diagnostics that quote come from the reports that do. -/
theorem quoting_ofSource (source : String) :
    (ofSource source 0).quoting =
      ((Whole.ofSource source).reports.filter fun r => r.cause.quotes).map
        (Session.word source source) := by
  rw [quoting, diagnostics_eq_word, List.filter_map]
  have hquotes : ((fun d : Diagnostic => d.code.quotes) ∘ Session.word source source) =
      fun r => r.cause.quotes := by
    funext r
    have hcode := Session.code_word source source r
    rw [Function.comp, hcode, Cause.quotes_code]
  rw [hquotes]

/-- **Code is quoted as it is written, and only once.**  No two spans of diagnostics that quote code
overlap. -/
theorem quoted_once (source : String) :
    ((ofSource source 0).quoting.Pairwise fun d e => d.span.stop ≤ e.span.start) ∧
      ∀ d ∈ (ofSource source 0).quoting, d.Quotes source := by
  obtain ⟨as, hcourse, -⟩ := Whole.exists_course source
  have hnext := hcourse.exists_quotesNext (w := (Whole.ofSource source).terminals) rfl
  rw [quoting_ofSource]
  constructor
  · refine List.pairwise_map.mpr ((hcourse.ordered.filter _).imp_of_mem ?_)
    intro r s hr hs hle
    obtain ⟨hr, hcause⟩ := List.mem_filter.mp hr
    obtain ⟨hs, hcause'⟩ := List.mem_filter.mp hs
    obtain ⟨i, n, hquotes, hi⟩ := hnext r hr hcause
    obtain ⟨i', n', hquotes', hi'⟩ := hnext s hs hcause'
    rw [Report.reach, if_pos hcause] at hle
    exact (hquotes.solid hi).stop_le_start (hquotes'.solid hi') hle
  · intro d hd
    obtain ⟨r, hr, rfl⟩ := List.mem_map.mp hd
    obtain ⟨hr, hcause⟩ := List.mem_filter.mp hr
    obtain ⟨i, n, hquotes, hi⟩ := hnext r hr hcause
    exact hquotes.quotes_word hi

/-- A call is left over with the brackets in it, up to the bracket that closes it. -/
theorem quoted_once_call :
    let source := "é f(a [é] b\n) ]"
    let d : Diagnostic :=
      { code := .e1009
        message := "extraneous code 'f(a [é] b\n)' at top level"
        span := ⟨3, 15⟩ }
    d ∈ (ofSource source 0).quoting ∧ d.Quotes source := by
  intro source d
  have hd : d ∈ (ofSource source 0).quoting := by decide +kernel
  exact ⟨hd, (quoted_once source).2 d hd⟩

end Outcome

end PlatformGate
