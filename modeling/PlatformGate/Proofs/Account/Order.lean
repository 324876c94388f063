/-
# Problems are reported in the order of the source

A report is made where reading stands: it begins at the next terminal, or it quotes terminals that
are taken with it.  Reading never goes back, so behind a report nothing is reported that begins in
front of where reading had come (`Report.reach`).  A quotation takes what it quotes, so the reports
behind it begin behind its end, and no two quotations overlap.

The search behind a query that is not closed may fail.  Then nothing is skipped, and reading stands
where it stood.
-/
import PlatformGate.Proofs.Account.Lines
import PlatformGate.Proofs.Query.Contract
import PlatformGate.Proofs.Token.Bounds

namespace PlatformGate

/-! ## 1. Places on a course -/

/-- How far reading has come when the report is made. -/
def Report.reach (r : Report Run) : Nat := if r.cause.quotes then r.place.past else r.place.first

/-- The report stands between two indexes, and reading is no further than its end. -/
structure Report.Between (lo hi : Nat) (r : Report Run) : Prop where
  lower : lo ≤ r.place.first
  ordered : r.place.first ≤ r.place.past
  reached : r.place.first ≤ r.reach ∧ r.place.past ≤ r.reach + 1
  upper : r.reach ≤ hi

theorem Report.Between.mono {lo lo' hi hi' : Nat} {r : Report Run} (h : r.Between lo hi)
    (hlo : lo' ≤ lo) (hhi : hi ≤ hi') : r.Between lo' hi' :=
  ⟨Nat.le_trans hlo h.lower, h.ordered, h.reached, Nat.le_trans h.upper hhi⟩

namespace Report.QuotesNext

variable {i : Input} {n : Nat} {r : Report Run}

theorem place_eq (h : r.QuotesNext i n) : r.place = ⟨i.position, i.position + n⟩ := by
  cases h <;> rfl

theorem quotes (h : r.QuotesNext i n) : r.cause.quotes = true := by
  cases h <;> rfl

theorem pos (h : r.QuotesNext i n) : 0 < n := by
  cases h with
  | invalid | stray => exact Nat.one_pos
  | captured hn hpos => exact Nat.pos_of_ne_zero hpos

/-- No quotation goes past the end. -/
theorem le_length (h : r.QuotesNext i n) : n ≤ i.rest.length := by
  cases h with
  | invalid hkind =>
    exact List.length_pos_iff.mpr (Input.rest_ne_nil_of_kind (by rw [hkind]; nofun))
  | stray hclose =>
    refine List.length_pos_iff.mpr (Input.rest_ne_nil_of_kind fun hend => ?_)
    rw [hend] at hclose
    exact absurd hclose nofun
  | captured hn _ =>
    rw [← hn]
    exact captureLength_le ..

theorem between (h : r.QuotesNext i n) : r.Between i.position (i.position + n) := by
  have hreach : r.reach = i.position + n := by
    rw [reach, if_pos h.quotes, h.place_eq]
  constructor
  all_goals simp only [h.place_eq, hreach]; omega

theorem reach_eq (h : r.QuotesNext i n) : r.reach = (i.skip n).position := by
  rw [reach, if_pos h.quotes, h.place_eq]
  rfl

end Report.QuotesNext

/-- What is said in passing is said of the next terminal. -/
theorem Report.between_passing {i : Input} {r : Report Run} (hcause : r.cause.quotes = false)
    (hplace : r.place = Run.token i.position ∨ r.place = Run.point i.position) :
    r.Between i.position i.position ∧ r.reach = i.position := by
  have hfirst : r.place.first = i.position := by rcases hplace with h | h <;> rw [h] <;> rfl
  have hpast : r.place.past = i.position + 1 ∨ r.place.past = i.position :=
    hplace.imp (fun h => by rw [h]; rfl) fun h => by rw [h]; rfl
  have hreach : r.reach = i.position := by simp [reach, hcause, hfirst]
  refine ⟨?_, hreach⟩
  constructor <;> omega

theorem Cause.InPassing.not_quotes {ρ : Type} {cause : Cause ρ} (h : cause.InPassing) :
    cause.quotes = false := by
  cases cause with
  | invalidToken | leftover => exact h.elim
  | _ => rfl

namespace Course

variable {i j : Input} {rs : List (Report Run)} {as : List Asked}

theorem ahead (h : Course i rs as j) : i.Ahead j := by
  induction h with
  | nil => exact .refl _
  | @read i j rs as _ _ ih => exact i.ahead_next.trans ih
  | remark _ _ _ ih => exact ih
  | quote hr _ ih => exact (Input.ahead_skip hr.le_length).trans ih
  | @query i k j q rs rs' as _ _ _ _ _ ihinner ih => exact (i.ahead_next.trans ihinner).trans ih
  | @search i k j n q rs rs' as _ _ _ _ _ hn _ _ ihinner ih =>
    exact ((i.ahead_next.trans i.next.ahead_next).trans ihinner).trans
      ((Input.ahead_skip hn).trans ih)

/-- **All that is reported stands between where the course begins and where it ends.** -/
theorem between (h : Course i rs as j) : ∀ r ∈ rs, r.Between i.position j.position := by
  induction h with
  | nil => exact fun r hr => absurd hr List.not_mem_nil
  | @read i j rs as _ hrest ih =>
    exact fun r hr => (ih r hr).mono i.ahead_next.position_le (Nat.le_refl _)
  | remark hcause hplace hrest ih =>
    refine List.forall_mem_cons.mpr ⟨?_, ih⟩
    have hpassing := (Report.between_passing hcause.not_quotes hplace).1
    exact hpassing.mono (Nat.le_refl _) hrest.ahead.position_le
  | @quote i j n r rs as hr hrest ih =>
    have hskip : i.position ≤ (i.skip n).position := Nat.le_add_right _ _
    refine List.forall_mem_cons.mpr ⟨?_, fun s hs => (ih s hs).mono hskip (Nat.le_refl _)⟩
    exact hr.between.mono (Nat.le_refl _) hrest.ahead.position_le
  | @query i k j q rs rs' as _ _ _ hinner hrest ihinner ih =>
    have hfirst := i.ahead_next.position_le
    have hmid := hinner.ahead.position_le
    have hlast := hrest.ahead.position_le
    intro r hr
    rcases List.mem_append.mp hr with hr | hr
    · exact (ihinner r hr).mono hfirst hlast
    · exact (ih r hr).mono (Nat.le_trans hfirst hmid) (Nat.le_refl _)
  | @search i k j n q rs rs' as _ _ _ _ _ _ hinner hrest ihinner ih =>
    have hfirst := (i.ahead_next.trans i.next.ahead_next).position_le
    have hmid := hinner.ahead.position_le
    have hskip : k.position ≤ (k.skip n).position := Nat.le_add_right _ _
    have hlast := hrest.ahead.position_le
    intro r hr
    rcases List.mem_append.mp hr with hr | hr
    · exact (ihinner r hr).mono hfirst (Nat.le_trans hskip hlast)
    · rcases List.mem_cons.mp hr with rfl | hr
      · have hpassing := (Report.between_passing (i := k)
          (r := ⟨.unclosed .availability (Run.token i.next.position), _⟩) rfl (.inl rfl)).1
        exact hpassing.mono (Nat.le_trans hfirst hmid) (Nat.le_trans hskip hlast)
      · exact (ih r hr).mono (Nat.le_trans hfirst (Nat.le_trans hmid hskip)) (Nat.le_refl _)

/-- **No report begins in front of where reading had come** when an earlier one was made. -/
theorem ordered (h : Course i rs as j) :
    rs.Pairwise fun r s => r.reach ≤ s.place.first := by
  induction h with
  | nil => exact .nil
  | read _ _ ih => exact ih
  | remark hcause hplace hrest ih =>
    refine List.pairwise_cons.mpr ⟨fun s hs => ?_, ih⟩
    rw [(Report.between_passing hcause.not_quotes hplace).2]
    exact (hrest.between s hs).lower
  | quote hr hrest ih =>
    refine List.pairwise_cons.mpr ⟨fun s hs => ?_, ih⟩
    rw [hr.reach_eq]
    exact (hrest.between s hs).lower
  | query _ _ _ hinner hrest ihinner ih =>
    refine List.pairwise_append.mpr ⟨ihinner, ih, fun r hr s hs => ?_⟩
    exact Nat.le_trans (hinner.between r hr).upper (hrest.between s hs).lower
  | @search i k j n q rs rs' as _ _ _ _ _ _ hinner hrest ihinner ih =>
    have hskip : k.position ≤ (k.skip n).position := Nat.le_add_right _ _
    refine List.pairwise_append.mpr ⟨ihinner, List.pairwise_cons.mpr ⟨fun s hs => ?_, ih⟩, ?_⟩
    · exact Nat.le_trans hskip (hrest.between s hs).lower
    · intro r hr s hs
      have hreach := (hinner.between r hr).upper
      rcases List.mem_cons.mp hs with rfl | hs
      · exact hreach
      · exact Nat.le_trans hreach (Nat.le_trans hskip (hrest.between s hs).lower)

end Course

/-! ## 2. Calls on a session -/

namespace Session

variable {source text : String} {s : Session}

/-- Each call takes a course, and gives its reports to the sink. -/
theorem exists_course (s : Session) (call : Call) :
    ∃ rs as, Course s.input rs as (s.after call).input ∧
      (s.after call).sink =
        s.sink.emitAll (rs.map fun r => (r.map s.locate).toDiagnostic s.text) := by
  cases call with
  | clause owner =>
    obtain ⟨as, hcourse, -⟩ := Parser.takes_clause (P := Input.Any) owner s.input trivial
    exact ⟨_, as, hcourse, rfl⟩
  | module =>
    obtain ⟨as, hcourse, -⟩ := Parser.takes_topLevel (P := Input.Any) s.input trivial
    exact ⟨_, as, hcourse, rfl⟩

/-- What a report says of a source, when messages quote from the text. -/
def word (source text : String) (r : Report Run) : Diagnostic :=
  (r.map (Run.locate source)).toDiagnostic text

/-- The session has kept all that was reported on the course from the first terminal. -/
structure Tells (source text : String) (s : Session) : Prop where
  on : s.On (Token.ofSource source)
  quotes : s.text = text
  unlimited : s.sink.limit = 0
  course : ∃ rs as,
    Course (Input.start (Terminal.ofTokens (Token.ofSource source))) rs as s.input ∧
      s.sink.stored = rs.map (word source text)

theorem On.locate_eq (h : s.On (Token.ofSource source)) : s.locate = Run.locate source := by
  funext r
  rw [locate, Run.locate, h.spans_eq]

theorem tells_start (source text : String) :
    Tells source text (start (Token.ofSource source) text 0) where
  on := on_start ..
  quotes := rfl
  unlimited := rfl
  course := ⟨[], [], .nil, rfl⟩

theorem text_after (s : Session) (call : Call) : (s.after call).text = s.text := by
  cases call <;> rfl

/-- What a call adds is what was reported on its course. -/
theorem Tells.exists_course (h : Tells source text s) (call : Call) :
    ∃ rs as, Course s.input rs as (s.after call).input ∧
      (s.after call).sink.stored = s.sink.stored ++ rs.map (word source text) := by
  obtain ⟨rs, as, hcourse, hsink⟩ := s.exists_course call
  rw [h.on.locate_eq, h.quotes] at hsink
  refine ⟨rs, as, hcourse, ?_⟩
  rw [hsink, Sink.stored_emitAll h.unlimited]
  rfl

theorem Tells.after (h : Tells source text s) (call : Call) :
    Tells source text (s.after call) := by
  obtain ⟨rs, as, hcourse, hstored⟩ := h.course
  obtain ⟨rs', as', hcourse', hmore⟩ := h.exists_course call
  obtain ⟨_, _, -, hsink⟩ := s.exists_course call
  refine ⟨h.on.after call, (s.text_after call).trans h.quotes, ?_, rs ++ rs', as ++ as',
    hcourse.append hcourse', ?_⟩
  · rw [hsink, Sink.limit_emitAll, h.unlimited]
  · rw [hmore, hstored, List.map_append]

/-- **Any calls go on with one course.** -/
theorem Tells.afterAll (h : Tells source text s) (calls : List Call) :
    Tells source text (s.afterAll calls) := by
  induction calls generalizing s with
  | nil => exact h
  | cons call calls ih => exact ih (h.after call)

/-! ## 3. Spans of diagnostics -/

section Spans

variable {i j : Input} {rs : List (Report Run)} {as : List Asked}

/-- A course that ends among the tokens reports at tokens. -/
theorem inside_of_course (h : Course i rs as j) (hj : j.position < (Token.ofSource source).length)
    {r : Report Run} (hr : r ∈ rs) :
    r.place.first < (Token.ofSource source).length ∧
      r.place.past ≤ (Token.ofSource source).length := by
  have hbetween := h.between r hr
  obtain ⟨hfirst, hpast⟩ := hbetween.reached
  have hupper := hbetween.upper
  constructor <;> omega

/-- **The diagnostics of a course begin in the order of the source.** -/
theorem sorted_of_course (h : Course i rs as j) (hj : j.position < (Token.ofSource source).length) :
    (rs.map (word source text)).Pairwise fun d e => d.span.start ≤ e.span.start := by
  refine List.pairwise_map.mpr (h.ordered.imp_of_mem ?_)
  intro r s hr hs hle
  have hfirst := (h.between r hr).reached.1
  exact Run.start_locate_mono (Nat.le_trans hfirst hle) (inside_of_course h hj hs).1

/-- No diagnostic of a course begins in front of the token where the course begins. -/
theorem start_le_of_course (h : Course i rs as j)
    (hj : j.position < (Token.ofSource source).length) {here : Token String}
    (hhere : (Token.ofSource source)[i.position]? = some here) {r : Report Run} (hr : r ∈ rs) :
    here.span.start ≤ (word source text r).span.start := by
  have hfirst := (inside_of_course h hj hr).1
  have hget := List.getElem?_eq_getElem hfirst
  have hstart : (word source text r).span.start = _ := Run.start_locate hget
  rw [hstart]
  exact Token.start_le_start hhere hget (h.between r hr).lower

end Spans

/-- **Problems are told in the order of the source.**  After any calls the diagnostics begin in
order, each span cuts a slice out of the source, and what the next call adds begins no earlier than
the token on which the session stood. -/
theorem told_in_order (source text : String) (calls : List Call) :
    let s := (start (Token.ofSource source) text 0).afterAll calls
    s.sink.stored.Pairwise (fun d e => d.span.start ≤ e.span.start) ∧
      (∀ d ∈ s.sink.stored, d.span.Cuts source) ∧
      ∀ call, ∃ here ds, (Token.ofSource source)[s.position]? = some here ∧
        (s.after call).sink.stored = s.sink.stored ++ ds ∧
        ∀ d ∈ ds, here.span.start ≤ d.span.start := by
  intro s
  have hs : Tells source text s := (tells_start source text).afterAll calls
  obtain ⟨rs, as, hcourse, hstored⟩ := hs.course
  have hposition := hs.on.position_lt
  rw [hstored]
  refine ⟨sorted_of_course hcourse hposition, ?_, fun call => ?_⟩
  · intro d hd
    obtain ⟨r, hr, rfl⟩ := List.mem_map.mp hd
    obtain ⟨hfirst, hpast⟩ := inside_of_course hcourse hposition hr
    exact Run.cuts_locate hfirst hpast
  · obtain ⟨rs', as', hcourse', hmore⟩ := hs.exists_course call
    have hhere := List.getElem?_eq_getElem hposition
    refine ⟨_, rs'.map (word source text), hhere, hstored ▸ hmore, ?_⟩
    intro d hd
    obtain ⟨r, hr, rfl⟩ := List.mem_map.mp hd
    exact start_le_of_course hcourse' (hs.after call).on.position_lt hhere hr

/-- A clause with a query that is not closed, in front of a token that is invalid. -/
theorem told_in_order_clause :
    let source := "#available(iOS, 0 é"
    let s := (start (Token.ofSource source) "" 0).afterAll [.clause .ifStatement]
    let d : Diagnostic :=
      { code := .e1002
        message := "expected ')' to end availability condition"
        span := ⟨18, 20⟩
        notes := [⟨"to match this opening '('", ⟨10, 11⟩⟩] }
    d ∈ s.sink.stored ∧ d.span.Cuts source := by
  intro source s d
  have hd : d ∈ s.sink.stored := by decide +kernel
  exact ⟨hd, (told_in_order source "" [.clause .ifStatement]).2.1 d hd⟩

end Session

end PlatformGate
