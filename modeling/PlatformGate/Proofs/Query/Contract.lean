/-
# What a session is told about a query

A session that stands on an availability keyword and reads the query is told of it in a fixed order
(`Session.QueryProtocol`), and stops where the owner of the header can go on
(`Session.QueryCursor`).  Both say of tokens and diagnostics what `ReadsQuery` says of runs and
reports.
-/
import PlatformGate.Proofs.Query.Entries
import PlatformGate.Proofs.Session.Calls

namespace PlatformGate

/-! ## 1. What is told -/

namespace Session

variable {tokens : List (Token String)} {s : Session} {α : Type}

/-- The diagnostics that a parser gives to the sink, whether the sink keeps them or not. -/
def told (s : Session) (p : Parser α) : List Diagnostic :=
  (p s.input).reports.map fun r => (r.map s.locate).toDiagnostic s.text

/-- What is told is what the sink takes. -/
theorem sink_run (s : Session) (p : Parser α) : (s.run p).2.sink = s.sink.emitAll (s.told p) := rfl

theorem codes_told (s : Session) (p : Parser α) :
    (s.told p).map Diagnostic.code = (p s.input).reports.map fun r => r.cause.code := by
  rw [told, List.map_map]
  exact List.map_congr_left fun r _ => r.code_toDiagnostic s.locate s.text

/-- A diagnostic that is told is the wording of a report. -/
theorem exists_report_of_told {p : Parser α} {d : Diagnostic} (h : d ∈ s.told p) :
    ∃ r ∈ (p s.input).reports, d = (r.map s.locate).toDiagnostic s.text := by
  obtain ⟨r, hr, rfl⟩ := List.mem_map.mp h
  exact ⟨r, hr, rfl⟩

/-- Further on the session stands in the same tokens. -/
theorem On.at (h : On tokens s) {j : Input} (hj : s.input.Ahead j) :
    On tokens { s with input := j } :=
  h.run (p := fun _ => ⟨(), [], j⟩) hj

theorem On.locate_token (h : On tokens s) {k : Nat} {t : Token String}
    (ht : tokens[k]? = some t) : s.locate (Run.token k) = t.span := by
  simp [locate, Run.toSpan, Run.token, h.spans_eq, ht]

/-- The token that comes next in an input further on. -/
theorem On.exists_token {source : String} (h : On (Token.ofSource source) s) {j : Input}
    (hj : s.input.Ahead j) :
    ∃ t, (Token.ofSource source)[j.position]? = some t ∧ t.kind = j.kind :=
  Option.map_eq_some_iff.mp (h.at hj).kind_eq

/-- What is left further on are the terminals from there. -/
theorem On.rest_at (h : On tokens s) {j : Input} (hj : s.input.Ahead j) :
    j.rest = (Terminal.ofTokens tokens).drop j.position :=
  (h.at hj).rest_eq

end Session

/-! ## 2. The order of the diagnostics -/

/-- Codes about entries, then at most one about an operator, then at most one about `)`. -/
def Code.QueryOrder (codes : List Code) : Prop :=
  ∃ content illegal unclosed, codes = content ++ illegal ++ unclosed ∧
    (∀ c ∈ content, c = .e1004 ∨ c = .e1005 ∨ c = .e0001) ∧
    (illegal = [] ∨ illegal = [.e1006]) ∧ (unclosed = [] ∨ unclosed = [.e1002])

theorem Cause.OfEntry.code_eq {ρ : Type} {cause : Cause ρ} (h : cause.OfEntry) :
    cause.code = .e1004 ∨ cause.code = .e1005 ∨ cause.code = .e0001 := by
  cases cause with
  | missingPlatform => exact .inl rfl
  | missingVersion => exact .inr (.inl rfl)
  | invalidToken => exact .inr (.inr rfl)
  | _ => exact h.elim

section Order

variable {owner : Owner} {i j : Input} {rs : List (Report Run)}

/-- The codes between the parentheses, and whatever follows of the last kind. -/
theorem ReadsItems.queryOrder (h : ReadsItems owner i rs j) {unclosed : List Code}
    (hunclosed : unclosed = [] ∨ unclosed = [.e1002]) :
    Code.QueryOrder ((rs.map fun r => r.cause.code) ++ unclosed) := by
  obtain ⟨content, illegal, rfl, hcontent, hillegal⟩ := h.order
  refine ⟨content.map fun r => r.cause.code, illegal.map fun r => r.cause.code, unclosed, ?_, ?_, ?_,
    hunclosed⟩
  · rw [List.map_append]
  · intro c hc
    obtain ⟨r, hr, rfl⟩ := List.mem_map.mp hc
    exact Cause.OfEntry.code_eq (hcontent r hr)
  · rcases hillegal with rfl | ⟨place, rfl⟩
    · exact .inl rfl
    · exact .inr rfl

/-- Between the parentheses nothing is said that makes a query incomplete, and no bracket is
blamed. -/
theorem ReadsItems.quiet (h : ReadsItems owner i rs j) {r : Report Run} (hr : r ∈ rs) :
    r.cause.code ≠ .e1001 ∧ r.cause.code ≠ .e1002 ∧ r.cause.note? = none := by
  obtain ⟨content, illegal, rfl, hcontent, hillegal⟩ := h.order
  rcases List.mem_append.mp hr with hr | hr
  · have hentry := hcontent r hr
    obtain ⟨cause, place⟩ := r
    cases cause with
    | missingPlatform | missingVersion | invalidToken => exact ⟨nofun, nofun, rfl⟩
    | _ => exact hentry.elim
  · rcases hillegal with rfl | ⟨place, rfl⟩
    · exact absurd hr List.not_mem_nil
    · obtain rfl := List.mem_singleton.mp hr
      exact ⟨nofun, nofun, rfl⟩

variable {q : Query Run}

theorem ReadsQuery.order (h : ReadsQuery owner i q rs j) :
    (rs.map (fun r => r.cause.code) = [.e1001] ∧ q.status = .incomplete ∧ q.entries = [] ∧
        j = i.next) ∨
      Code.QueryOrder (rs.map fun r => r.cause.code) := by
  cases h with
  | unopened entries status => exact .inl ⟨rfl, status, entries, rfl⟩
  | closed opens items closes status =>
    right
    simpa using items.queryOrder (.inl rfl)
  | unclosed opens items status =>
    right
    rw [List.map_append]
    exact items.queryOrder (.inr rfl)

theorem ReadsQuery.incomplete_iff (h : ReadsQuery owner i q rs j) :
    q.status = .incomplete ↔ ∃ r ∈ rs, r.cause.code = .e1001 ∨ r.cause.code = .e1002 := by
  cases h with
  | unopened entries status => simp [status, Cause.code]
  | closed opens items closes status =>
    rw [status]
    constructor
    · nofun
    · rintro ⟨r, hr, hcode⟩
      obtain ⟨hopen, hclose, -⟩ := items.quiet hr
      exact absurd hcode (not_or.mpr ⟨hopen, hclose⟩)
  | unclosed opens items status =>
    rw [status]
    refine ⟨fun _ => ⟨_, List.mem_append_right _ List.mem_cons_self, .inr rfl⟩, fun _ => rfl⟩

/-- The only bracket that is blamed is the parenthesis directly behind the keyword. -/
theorem ReadsQuery.note (h : ReadsQuery owner i q rs j) {r : Report Run} (hr : r ∈ rs) :
    if r.cause.code = .e1002 then i.next.kind = .fixed .lparen ∧
      r.cause.note?.map Prod.fst = some (Run.token i.next.position)
    else r.cause.note? = none := by
  cases h with
  | unopened entries status =>
    obtain rfl := List.mem_singleton.mp hr
    exact rfl
  | closed opens items closes status =>
    obtain ⟨-, hclose, hnote⟩ := items.quiet hr
    rwa [if_neg hclose]
  | unclosed opens items status =>
    rcases List.mem_append.mp hr with hr | hr
    · obtain ⟨-, hclose, hnote⟩ := items.quiet hr
      rwa [if_neg hclose]
    · obtain rfl := List.mem_singleton.mp hr
      exact ⟨opens, rfl⟩

theorem ReadsQuery.closes (h : ReadsQuery owner i q rs j) (hdone : q.status = .done) :
    ∃ k, i.next.next.Ahead k ∧ k.kind = .fixed .rparen ∧ j = k.next := by
  cases h with
  | unopened entries status => exact absurd (hdone.symm.trans status) nofun
  | closed opens items closes status => exact ⟨_, items.spares.ahead, closes, rfl⟩
  | unclosed opens items status => exact absurd (hdone.symm.trans status) nofun

end Order

namespace Session

/-- What the diagnostics `ds` of a query `q` are, if it was read from `s` up to `s'`. -/
structure QueryProtocol (tokens : List (Token String)) (s : Session) (q : Query Run)
    (ds : List Diagnostic) (s' : Session) : Prop where
  given : s'.sink = s.sink.emitAll ds
  /-- Either no parenthesis opens, and only the keyword is read; or the codes are in order. -/
  order : ds.map Diagnostic.code = [.e1001] ∧ q.status = .incomplete ∧ q.entries = [] ∧
      s'.position = s.position + 1 ∨
    Code.QueryOrder (ds.map Diagnostic.code)
  incomplete_iff : q.status = .incomplete ↔ ∃ d ∈ ds, d.code = .e1001 ∨ d.code = .e1002
  /-- A missing `)` is blamed on the `(` directly behind the keyword. -/
  blames : ∀ d ∈ ds, d.code = .e1002 → ∃ t, tokens[s.position + 1]? = some t ∧
    t.kind = .fixed .lparen ∧ d.notes.map Note.span = [t.span]
  others : ∀ d ∈ ds, d.code ≠ .e1002 → d.notes = []
  /-- A query that is done ends with `)`. -/
  closes : q.status = .done → ∃ last t, s.position < last ∧ s'.position = last + 1 ∧
    tokens[last]? = some t ∧ t.kind = .fixed .rparen

variable {source : String} {s : Session}

/-- **The diagnostics of a query come in a fixed order,** and they tell whether it is complete. -/
theorem query_protocol (hs : s.On (Token.ofSource source)) (owner : Owner)
    (hkeyword : s.input.kind.isAvailability = true) :
    let p := Parser.query (TagSet.headerEnd owner)
    QueryProtocol (Token.ofSource source) s (s.run p).1 (s.told p) (s.run p).2 := by
  intro p
  have hne := Input.rest_ne_nil_of_isAvailability hkeyword
  have hnext : s.input.next.position = s.position + 1 := Input.position_next hne
  have hread : ReadsQuery owner s.input (p s.input).value (p s.input).reports (p s.input).next :=
    Parser.query_cases owner s.input
  constructor
  · exact s.sink_run p
  · rw [codes_told]
    rcases hread.order with ⟨hcodes, hstatus, hentries, hstop⟩ | horder
    · left
      refine ⟨hcodes, hstatus, hentries, ?_⟩
      rw [← hnext, ← hstop]
      rfl
    · exact .inr horder
  · refine hread.incomplete_iff.trans ⟨?_, ?_⟩
    · rintro ⟨r, hr, hcode⟩
      refine ⟨_, List.mem_map_of_mem hr, ?_⟩
      rwa [Report.code_toDiagnostic]
    · rintro ⟨d, hd, hcode⟩
      obtain ⟨r, hr, rfl⟩ := exists_report_of_told hd
      rw [Report.code_toDiagnostic] at hcode
      exact ⟨r, hr, hcode⟩
  · intro d hd hcode
    obtain ⟨r, hr, rfl⟩ := exists_report_of_told hd
    rw [Report.code_toDiagnostic] at hcode
    have hnote := hread.note hr
    rw [if_pos hcode] at hnote
    obtain ⟨hopen, hblamed⟩ := hnote
    obtain ⟨t, ht, hkind⟩ := hs.exists_token s.input.ahead_next
    obtain ⟨⟨opener, words⟩, hsome, rfl⟩ := Option.map_eq_some_iff.mp hblamed
    refine ⟨t, hnext ▸ ht, hkind.trans hopen, ?_⟩
    rw [Report.notes_toDiagnostic, hsome, ← hs.locate_token ht]
    rfl
  · intro d hd hcode
    obtain ⟨r, hr, rfl⟩ := exists_report_of_told hd
    rw [Report.code_toDiagnostic] at hcode
    have hnote := hread.note hr
    rw [if_neg hcode] at hnote
    have hspans := Report.notes_toDiagnostic r s.locate s.text
    rw [hnote] at hspans
    exact List.map_eq_nil_iff.mp hspans
  · intro hdone
    obtain ⟨k, hk, hclose, hstop⟩ := hread.closes hdone
    have hahead := (s.input.ahead_next.trans s.input.next.ahead_next).trans hk
    obtain ⟨t, ht, hkind⟩ := hs.exists_token hahead
    have hlast := Input.position_next (Input.rest_ne_nil hclose)
    have hle := (s.input.next.ahead_next.trans hk).position_le
    refine ⟨k.position, t, ?_, ?_, ht, hkind.trans hclose⟩
    · exact Nat.lt_of_lt_of_le (Input.position_lt_next hne) hle
    · rw [← hlast, ← hstop]
      rfl

/-- A query that is left open behind an operator, and blamed on its parenthesis. -/
theorem query_protocol_left_open :
    let source := "#available(iOS 17 || [macOS) else"
    let s := start (Token.ofSource source) source 0
    let p := Parser.query (TagSet.headerEnd .guardStatement)
    s.On (Token.ofSource source) ∧ s.input.kind.isAvailability = true ∧
      (s.told p).map Diagnostic.code = [.e1006, .e1002] ∧
      QueryProtocol (Token.ofSource source) s (s.run p).1 (s.told p) (s.run p).2 :=
  ⟨on_start _ _ _, by decide +kernel, by decide +kernel,
    query_protocol (on_start _ _ _) .guardStatement (by decide +kernel)⟩

/-! ## 3. Where reading stops -/

/-- Where the reading of a query stops that begins at `s`, and what it has passed over. -/
structure QueryCursor (tokens : List (Token String)) (owner : Owner) (s : Session)
    (ds : List Diagnostic) (s' : Session) : Prop where
  /-- Without a parenthesis only the keyword is read. -/
  unopened : ∀ d ∈ ds, d.code = .e1001 → s'.position = s.position + 1
  /-- Where `)` is missing, reading stays there or goes on to the end of the header. -/
  unclosed : ∀ d ∈ ds, d.code = .e1002 → ∃ here t, tokens[here]? = some t ∧ d.span = t.span ∧
    (s'.position = here ∨ ∃ u, tokens[s'.position]? = some u ∧
      (TagSet.headerEnd owner).contains u.kind = true)
  /-- No end of the header has been read at depth 0, counted from behind the parenthesis. -/
  spares : ∀ n t, s.position + 2 ≤ n → n < s'.position → tokens[n]? = some t →
    Terminal.depthBehind 0 (((Terminal.ofTokens tokens).take n).drop (s.position + 2)) = 0 →
    (TagSet.headerEnd owner).contains t.kind = false

end Session

section Stopping

variable {owner : Owner} {i j : Input} {q : Query Run} {rs : List (Report Run)}

/-- Behind the parenthesis no end of the header is passed over. -/
theorem ReadsQuery.spares (h : ReadsQuery owner i q rs j) :
    j = i.next ∨
      i.next.kind = .fixed .lparen ∧ i.next.next.Spares (TagSet.headerEnd owner) j := by
  cases h with
  | unopened entries status => exact .inl rfl
  | closed opens items closes status =>
    right
    exact ⟨opens, items.spares.trans (inEntries_rparen.next closes owner).spares⟩
  | unclosed opens items status =>
    right
    exact ⟨opens, items.spares.trans (Input.spares_probe _ _)⟩

theorem ReadsQuery.unopened_next (h : ReadsQuery owner i q rs j) {r : Report Run} (hr : r ∈ rs)
    (hcode : r.cause.code = .e1001) : j = i.next := by
  cases h with
  | unopened entries status => rfl
  | closed opens items closes status => exact absurd hcode (items.quiet hr).1
  | unclosed opens items status =>
    rcases List.mem_append.mp hr with hr | hr
    · exact absurd hcode (items.quiet hr).1
    · obtain rfl := List.mem_singleton.mp hr
      exact absurd hcode nofun

/-- Where `)` is missing, reading stays at the report or stops at the end of the header. -/
theorem ReadsQuery.unclosed_stop (h : ReadsQuery owner i q rs j) {r : Report Run} (hr : r ∈ rs)
    (hcode : r.cause.code = .e1002) :
    ∃ k, i.Ahead k ∧ r.place = Run.token k.position ∧
      (j = k ∨ (TagSet.headerEnd owner).contains j.kind = true) := by
  cases h with
  | unopened entries status =>
    obtain rfl := List.mem_singleton.mp hr
    exact absurd hcode nofun
  | closed opens items closes status => exact absurd hcode (items.quiet hr).2.1
  | @unclosed rs k opens items status =>
    rcases List.mem_append.mp hr with hr | hr
    · exact absurd hcode (items.quiet hr).2.1
    · obtain rfl := List.mem_singleton.mp hr
      have hahead := (i.ahead_next.trans i.next.ahead_next).trans items.spares.ahead
      refine ⟨k, hahead, rfl, ?_⟩
      cases hprobe : probeLength? (TagSet.headerEnd owner) 0 k.rest with
      | none => exact .inl rfl
      | some n =>
        right
        obtain ⟨-, -, t, ht, hin⟩ := probeLength?_spares hprobe
        have hrest : (k.skip n).rest = t :: k.rest.drop (n + 1) := by
          rw [Input.skip, List.drop_eq_getElem?_toList_append, ht]
          rfl
        rw [Option.getD_some, Input.kind_eq_head hrest]
        exact hin

end Stopping

namespace Session

variable {source : String} {s : Session}

/-- The terminals are the first tokens. -/
theorem getElem?_ofTokens {tokens : List (Token String)} {n : Nat} {u : Terminal}
    (h : (Terminal.ofTokens tokens)[n]? = some u) :
    ∃ t, tokens[n]? = some t ∧ u = Terminal.ofToken t := by
  unfold Terminal.ofTokens at h
  rw [List.getElem?_map] at h
  obtain ⟨t, ht, rfl⟩ := Option.map_eq_some_iff.mp h
  obtain ⟨us, hus⟩ := tokens.takeWhile_prefix fun t => t.kind != .endOfFile
  obtain ⟨hlt, -⟩ := List.getElem?_eq_some_iff.mp ht
  exact ⟨t, by rw [← hus, List.getElem?_append_left hlt, ht], rfl⟩

/-- **A query stops where its owner can go on,** and passes over no end of the header. -/
theorem query_cursor (hs : s.On (Token.ofSource source)) (owner : Owner)
    (hkeyword : s.input.kind.isAvailability = true) :
    let p := Parser.query (TagSet.headerEnd owner)
    QueryCursor (Token.ofSource source) owner s (s.told p) (s.run p).2 := by
  intro p
  have hne := Input.rest_ne_nil_of_isAvailability hkeyword
  have hnext : s.input.next.position = s.position + 1 := Input.position_next hne
  have hread : ReadsQuery owner s.input (p s.input).value (p s.input).reports (p s.input).next :=
    Parser.query_cases owner s.input
  have hmoves := (Parser.query_reads (TagSet.headerEnd owner) s.input).1
  constructor
  · intro d hd hcode
    obtain ⟨r, hr, rfl⟩ := exists_report_of_told hd
    rw [Report.code_toDiagnostic] at hcode
    rw [← hnext, ← hread.unopened_next hr hcode]
    rfl
  · intro d hd hcode
    obtain ⟨r, hr, rfl⟩ := exists_report_of_told hd
    rw [Report.code_toDiagnostic] at hcode
    obtain ⟨k, hk, hplace, hstop⟩ := hread.unclosed_stop hr hcode
    obtain ⟨t, ht, -⟩ := hs.exists_token hk
    refine ⟨k.position, t, ht, ?_, ?_⟩
    · rw [← hs.locate_token ht, ← hplace]
      rfl
    · rcases hstop with hstop | hin
      · left
        rw [← hstop]
        rfl
      · right
        obtain ⟨u, hu, hkind⟩ := hs.exists_token hmoves.ahead
        exact ⟨u, hu, hkind ▸ hin⟩
  · intro n t hlo hhi ht hdepth
    have hhi : n < (p s.input).next.position := hhi
    rcases hread.spares with hstop | ⟨hopen, us, hus, hposition, hspared, -⟩
    · rw [hstop, hnext] at hhi
      omega
    · have hinner : s.input.next.next.position = s.position + 2 := by
        rw [Input.position_next (Input.rest_ne_nil hopen), hnext]
      rw [hs.rest_at (s.input.ahead_next.trans s.input.next.ahead_next), hinner] at hus
      rw [hposition, hinner] at hhi
      -- the terminal is one of those that were read
      obtain ⟨m, rfl⟩ : ∃ m, n = s.position + 2 + m := ⟨n - (s.position + 2), by omega⟩
      have hm : m < us.length := by omega
      have hget : (Terminal.ofTokens (Token.ofSource source))[s.position + 2 + m]? = us[m]? := by
        rw [← List.getElem?_drop, hus, List.getElem?_append_left hm]
      obtain ⟨u, hu⟩ : ∃ u, us[m]? = some u := ⟨us[m], List.getElem?_eq_getElem hm⟩
      obtain ⟨t', ht', rfl⟩ := getElem?_ofTokens (hget.trans hu)
      obtain rfl : t' = t := Option.some.inj (ht'.symm.trans ht)
      have htake : ((Terminal.ofTokens (Token.ofSource source)).take (s.position + 2 + m)).drop
          (s.position + 2) = us.take m := by
        rw [List.drop_take, hus, Nat.add_sub_cancel_left,
          List.take_append_of_le_length (Nat.le_of_lt hm)]
      rw [htake] at hdepth
      exact hspared.getElem hu hdepth

/-- A query without `)` that goes on behind leftovers, a stray bracket and a group, at the body. -/
theorem query_cursor_resumes :
    let source := "#available(iOS 17 || [macOS] ] (x) " ++ Text.braced " "
    let s := start (Token.ofSource source) source 0
    let p := Parser.query (TagSet.headerEnd .ifStatement)
    s.On (Token.ofSource source) ∧ s.input.kind.isAvailability = true ∧
      (s.run p).2.input.kind = .fixed .lbrace ∧
      QueryCursor (Token.ofSource source) .ifStatement s (s.told p) (s.run p).2 :=
  ⟨on_start _ _ _, by decide +kernel, by decide +kernel,
    query_cursor (on_start _ _ _) .ifStatement (by decide +kernel)⟩

end Session

end PlatformGate
