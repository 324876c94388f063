/-
# Every availability keyword is accounted for

What a course counts (`tally`) can be told from what is known of a source in the end: its tokens, its
queries and its diagnostics.  A query begins with a keyword if their spans begin together, and a
diagnostic about leftovers takes a keyword if its span covers that of the keyword.

Which keywords were skipped is told by the diagnostics too.  Where a query is not closed, a
diagnostic stands where the search began, with a note at the opening parenthesis of the query; and
the query ends where the search ended.
-/
import Mathlib.Data.List.Sort
import PlatformGate.Proofs.Account.Tally
import PlatformGate.Proofs.Writing.ReadsBack

namespace PlatformGate

open Terminal

/-! ## 1. Tokens, queries and diagnostics -/

/-- The query begins with the token. -/
def Query.begins (t : Token String) (q : Query Span) : Bool := q.place.start == t.span.start

/-- The token stands in code that the diagnostic says is left over. -/
def Diagnostic.takes (t : Token String) (d : Diagnostic) : Bool :=
  d.code.isOfLeftovers && d.span.covers t.span

/-- The diagnostic says that the query is not closed: its note is at a bracket of the query. -/
def Diagnostic.leavesOpen (q : Query Span) (d : Diagnostic) : Bool :=
  d.code == .e1002 && d.notes.any fun note => q.place.covers note.span

/-- The token was skipped behind an incomplete query.  It stands no earlier than the place where the
query is said not to be closed, and no later than where the query ends. -/
def Outcome.skips (o : Outcome) (t : Token String) (q : Query Span) : Bool :=
  q.status == .incomplete &&
    o.diagnostics.any (fun d => d.leavesOpen q && decide (d.span.start ≤ t.span.start)) &&
    decide (t.span.stop ≤ q.place.stop)

/-- How often an availability keyword is accounted for: as the first token of a query, as one of the
tokens that a diagnostic about leftover code quotes, and as one that was skipped behind a query. -/
def Outcome.accounts (o : Outcome) (t : Token String) : Nat :=
  o.queries.countP (Query.begins t) + o.diagnostics.countP (Diagnostic.takes t) +
    o.queries.countP (o.skips t)

/-! ## 2. What a course counts, said of tokens -/

section Source

variable {source : String} {j : Input} {as : List Asked} {a : Asked} {t : Token String} {n : Nat}

theorem keywordAt_terminals (ht : (Token.beforeEnd source)[n]? = some t) :
    keywordAt (Whole.ofSource source).terminals n = t.kind.isAvailability := by
  unfold keywordAt Whole.ofSource
  rw [Token.terminals_ofSource, List.getElem?_map, ht]
  rfl

theorem Cause.unclosed_of_code {ρ : Type} {cause : Cause ρ} (h : cause.code = .e1002) :
    ∃ opener, cause = .unclosed .availability opener := by
  cases cause with
  | unclosed c opener =>
    cases c with
    | availability => exact ⟨opener, rfl⟩
    | _ => exact absurd h nofun
  | leftover c => cases c <;> exact absurd h nofun
  | _ => exact absurd h nofun

/-- The queries of a source are those that its course asked. -/
theorem Outcome.queries_ofSource
    (h : as.map Asked.query = Stmt.queriesAll
      (Parser.topLevel (Input.start (Whole.ofSource source).terminals)).value) :
    (ofSource source 0).queries = as.map fun a => a.query.map (Run.locate source) := by
  have harena : (ofSource source 0).arena = _ := congrArg Prod.snd (layout_ofSource source 0)
  rw [queries, harena, Stmt.queries_layoutModule, Stmt.queriesAll_map]
  exact (congrArg (List.map _) h.symm).trans List.map_map

section OnCourse

variable (h : Course (Input.start (Whole.ofSource source).terminals) (Whole.ofSource source).reports
  as j)

include h

theorem Course.solid_place (ha : a ∈ as) :
    a.query.place.Solid (Token.beforeEnd source).length := by
  have hplaced := h.placed rfl a ha
  have hstop := h.ahead.stop_eq
  have hlength := Whole.length_terminals source
  have hlast : _ = 0 + (Whole.ofSource source).terminals.length := hstop
  have hsolid := hplaced.solid
  have hinside := hplaced.inside
  have hupper := hplaced.upper
  exact ⟨by omega, by omega⟩

/-- Of two queries one stands behind the other. -/
theorem Course.apart_cases {a b : Asked} (ha : a ∈ as) (hb : b ∈ as) :
    a = b ∨ a.query.place.past ≤ b.query.place.first ∨
      b.query.place.past ≤ a.query.place.first := by
  have hapart := h.apart (w := (Whole.ofSource source).terminals) rfl
  refine List.Pairwise.forall_of_forall_of_flip (R := fun a b : Asked => a = b ∨
    a.query.place.past ≤ b.query.place.first ∨ b.query.place.past ≤ a.query.place.first)
    ?_ ?_ ?_ ha hb
  · exact fun a _ => .inl rfl
  · exact hapart.imp fun hle => .inr (.inl hle)
  · exact hapart.imp fun hle => .inr (.inr hle)

/-- Queries that stand behind each other begin in order. -/
theorem Course.sorted_starts : as.Pairwise fun a b =>
    (a.query.place.locate source).start < (b.query.place.locate source).start := by
  refine (h.apart (w := (Whole.ofSource source).terminals) rfl).imp_of_mem ?_
  intro a b ha hb hle
  have hsolid := h.solid_place ha
  exact Nat.lt_of_lt_of_le hsolid.start_lt_stop (hsolid.stop_le_start (h.solid_place hb) hle)

/-- A query begins with a token that is an availability keyword. -/
theorem Course.exists_keyword (ha : a ∈ as) : ∃ t ∈ Token.ofSource source,
    t.kind.isAvailability = true ∧ (a.query.map (Run.locate source)).begins t = true := by
  obtain ⟨t, last, ht, -, heq⟩ := (h.solid_place ha).exists_tokens
  have hstart : (a.query.place.locate source).start = t.span.start := by rw [heq]
  have hkind := (keywordAt_terminals ht).symm.trans (h.placed rfl a ha).keyword
  exact ⟨t, (List.mem_filter.mp (List.mem_of_getElem? ht)).1, hkind, beq_iff_eq.mpr hstart⟩

theorem Asked.begins_map (ha : a ∈ as) (ht : (Token.beforeEnd source)[n]? = some t) :
    (a.query.map (Run.locate source)).begins t = a.begins n := by
  obtain ⟨first, last, hfirst, -, heq⟩ := (h.solid_place ha).exists_tokens
  have horder := Token.inOrder_beforeEnd source
  have hstart : (a.query.place.locate source).start = first.span.start := by rw [heq]
  have hle := (horder.le_iff hfirst ht).1
  have hge := (horder.le_iff ht hfirst).1
  change ((a.query.place.locate source).start == t.span.start) = (a.query.place.first == n)
  rw [hstart, Bool.eq_iff_iff, beq_iff_eq, beq_iff_eq]
  omega

/-- A token is in the code of a diagnostic exactly if its index is among the leftovers reported. -/
theorem Diagnostic.takes_word {r : Report Run} (hr : r ∈ (Whole.ofSource source).reports)
    (ht : (Token.beforeEnd source)[n]? = some t) :
    (Session.word source source r).takes t = r.takes n := by
  have hcode := Session.code_word source source r
  unfold takes Report.takes
  rw [hcode]
  cases hleft : r.cause.code.isOfLeftovers with
  | false => rfl
  | true =>
    have hquotes : r.cause.quotes = true := by
      rw [← Cause.quotes_code, Code.quotes, hleft, Bool.or_true]
    obtain ⟨i, m, hnext, hi⟩ := h.exists_quotesNext (w := (Whole.ofSource source).terminals) rfl r hr
      hquotes
    have htoken : (Run.token n).Solid (Token.beforeEnd source).length :=
      ⟨Nat.lt_succ_self n, (List.getElem?_eq_some_iff.mp ht).1⟩
    have hcovers := Run.covers_locate_iff htoken (hnext.solid hi)
    rw [Run.locate_token ht] at hcovers
    change (true && (r.place.locate source).covers t.span) = _
    rw [Bool.eq_iff_iff, Bool.true_and, Bool.true_and, hcovers, Bool.and_eq_true,
      decide_eq_true_eq, decide_eq_true_eq]
    exact Iff.rfl

/-- A diagnostic that leaves a query open stands where the search behind that query began. -/
theorem Course.exists_leavesOpen (ha : a ∈ as) {d : Diagnostic}
    (hd : d ∈ (Outcome.ofSource source 0).diagnostics)
    (hopen : d.leavesOpen (a.query.map (Run.locate source)) = true) :
    d.span = (Run.token a.search).locate source := by
  rw [Outcome.diagnostics_eq_word] at hd
  obtain ⟨r, hr, rfl⟩ := List.mem_map.mp hd
  obtain ⟨hcode, hnote⟩ := Bool.and_eq_true_iff.mp hopen
  have hcause : r.cause.code = .e1002 :=
    (Session.code_word source source r).symm.trans (beq_iff_eq.mp hcode)
  obtain ⟨opener, hcause⟩ := Cause.unclosed_of_code hcause
  obtain ⟨b, hb, rfl, hlt⟩ := h.exists_asked hr hcause
  have hsolid := h.solid_place ha
  have htoken : (Run.token (b.query.place.first + 1)).Solid (Token.beforeEnd source).length :=
    ⟨Nat.lt_succ_self _, Nat.le_trans hlt (h.solid_place hb).2⟩
  have hcovers : (a.query.place.locate source).covers
      ((Run.token (b.query.place.first + 1)).locate source) = true := by
    obtain ⟨note, hmem, hnote⟩ := List.any_eq_true.mp hnote
    obtain rfl := List.mem_singleton.mp hmem
    exact hnote
  obtain ⟨hlo, hhi⟩ := (Run.covers_locate_iff htoken hsolid).mp hcovers
  -- The parenthesis of one query is no index of another.
  rcases h.apart_cases ha hb with rfl | hle | hle
  · rfl
  · exact absurd hhi (by change ¬ b.query.place.first + 1 + 1 ≤ _; omega)
  · have hlo : a.query.place.first ≤ b.query.place.first + 1 := hlo
    omega

/-- What was skipped behind a query can be told from the diagnostics. -/
theorem Asked.skips_map (ha : a ∈ as) (ht : (Token.beforeEnd source)[n]? = some t) :
    (Outcome.ofSource source 0).skips t (a.query.map (Run.locate source)) = a.skips n := by
  have hsolid := h.solid_place ha
  have hplaced := h.placed rfl a ha
  have hsearch : (Run.token a.search).first ≤ (Token.beforeEnd source).length :=
    Nat.le_trans hplaced.inside hsolid.2
  have hbegin := Run.start_locate_le_iff hsearch ht
  have hend : t.span.stop ≤ (a.query.place.locate source).stop ↔ n < a.query.place.past := by
    obtain ⟨first, last, -, hlast, heq⟩ := hsolid.exists_tokens
    have hlt := hsolid.1
    rw [heq, ((Token.inOrder_beforeEnd source).le_iff ht hlast).2]
    omega
  rw [Bool.eq_iff_iff, Asked.skips, Bool.and_eq_true, decide_eq_true_eq, decide_eq_true_eq]
  constructor
  · intro hskips
    obtain ⟨hopen, hstop⟩ := Bool.and_eq_true_iff.mp hskips
    obtain ⟨-, hopen⟩ := Bool.and_eq_true_iff.mp hopen
    obtain ⟨d, hd, hopen⟩ := List.any_eq_true.mp hopen
    obtain ⟨hopen, hstart⟩ := Bool.and_eq_true_iff.mp hopen
    rw [h.exists_leavesOpen ha hd hopen, decide_eq_true_eq] at hstart
    exact ⟨hbegin.mp hstart, hend.mp (of_decide_eq_true hstop)⟩
  · rintro ⟨hsearch, hpast⟩
    obtain ⟨hstatus, hr, hopener⟩ := hplaced.skips (Nat.lt_of_le_of_lt hsearch hpast)
    have htoken : (Run.token (a.query.place.first + 1)).Solid (Token.beforeEnd source).length :=
      ⟨Nat.lt_succ_self _, Nat.le_trans hopener hsolid.2⟩
    have hcovers := (Run.covers_locate_iff htoken hsolid).mpr ⟨Nat.le_succ _, hopener⟩
    refine Bool.and_eq_true_iff.mpr ⟨Bool.and_eq_true_iff.mpr ⟨beq_iff_eq.mpr hstatus, ?_⟩,
      decide_eq_true (hend.mpr hpast)⟩
    refine List.any_eq_true.mpr ⟨Session.word source source a.unclosed, ?_, ?_⟩
    · rw [Outcome.diagnostics_eq_word]
      exact List.mem_map_of_mem hr
    · refine Bool.and_eq_true_iff.mpr ⟨?_, decide_eq_true (hbegin.mpr hsearch)⟩
      exact List.any_eq_true.mpr ⟨_, List.mem_singleton_self _, hcovers⟩

/-- **What a course counts** are queries and diagnostics. -/
theorem Course.tally_ofSource
    (hqueries : (Outcome.ofSource source 0).queries =
      as.map fun a => a.query.map (Run.locate source))
    (ht : (Token.beforeEnd source)[n]? = some t) :
    (Outcome.ofSource source 0).accounts t = tally n (Whole.ofSource source).reports as := by
  let o := Outcome.ofSource source 0
  have hbegins : o.queries.countP (Query.begins t) = as.countP (Asked.begins n) := by
    rw [hqueries, List.countP_map]
    exact List.countP_congr fun a ha => by rw [Function.comp, Asked.begins_map h ha ht]
  have htakes : o.diagnostics.countP (Diagnostic.takes t) =
      (Whole.ofSource source).reports.countP (Report.takes n) := by
    rw [Outcome.diagnostics_eq_word, List.countP_map]
    exact List.countP_congr fun r hr => by rw [Function.comp, Diagnostic.takes_word h hr ht]
  have hskips : o.queries.countP (o.skips t) = as.countP (Asked.skips n) := by
    rw [hqueries, List.countP_map]
    exact List.countP_congr fun a ha => by rw [Function.comp, Asked.skips_map h ha ht]
  rw [Outcome.accounts, hbegins, htakes, hskips]
  rfl

end OnCourse

/-- A token that is an availability keyword is no end of file. -/
theorem Token.exists_index_of_isAvailability (ht : t ∈ Token.ofSource source)
    (hkind : t.kind.isAvailability = true) :
    ∃ n : Nat, (Token.beforeEnd source)[n]? = some t :=
  List.mem_iff_getElem?.mp (List.mem_filter.mpr
    ⟨ht, bne_iff_ne.mpr (Kind.ne_endOfFile_of_isAvailability hkind)⟩)

/-- Keywords begin in order, as none of them is empty. -/
theorem Token.sorted_keywords (source : String) (p : Token String → Bool) :
    (((Token.ofSource source).filter fun t => t.kind.isAvailability && p t).map
      fun t => t.span.start).Pairwise (· < ·) := by
  refine List.pairwise_map.mpr (((Token.apart_ofSource source).filter _).imp_of_mem ?_)
  intro t u ht _ hle
  obtain ⟨ht, hkind⟩ := List.mem_filter.mp ht
  obtain ⟨n, hn⟩ := Token.exists_index_of_isAvailability ht (Bool.and_eq_true_iff.mp hkind).1
  exact Nat.lt_of_lt_of_le
    ((Token.inOrder_beforeEnd source).solid t (List.mem_of_getElem? hn)) hle

end Source

/-! ## 3. All keywords -/

namespace Outcome

/-- **Every availability keyword is accounted for once.**  The queries are those of the keywords that
begin one, in the order of the source. -/
theorem keywords_accounted (source : String) :
    (∀ t ∈ Token.ofSource source, t.kind.isAvailability = true →
      (ofSource source 0).accounts t = 1) ∧
      (ofSource source 0).queries.map (fun q => q.place.start) =
        ((Token.ofSource source).filter fun t => t.kind.isAvailability &&
          (ofSource source 0).queries.any (Query.begins t)).map fun t => t.span.start := by
  obtain ⟨as, hcourse, has⟩ := Whole.exists_course source
  have hqueries := queries_ofSource has
  constructor
  · intro t ht hkind
    obtain ⟨n, hn⟩ := Token.exists_index_of_isAvailability ht hkind
    have htally := hcourse.tally_eq rfl ((keywordAt_terminals hn).trans hkind)
    rw [Whole.position_next] at htally
    refine (hcourse.tally_ofSource hqueries hn).trans (htally.trans (if_pos ⟨Nat.zero_le n, ?_⟩))
    exact (List.getElem?_eq_some_iff.mp hn).1
  · refine List.Pairwise.eq_of_mem_iff (r := (· < ·)) ?_ (Token.sorted_keywords source _) fun x => ?_
    · rw [hqueries, List.map_map]
      exact List.pairwise_map.mpr hcourse.sorted_starts
    · constructor
      · intro hx
        obtain ⟨q, hq, rfl⟩ := List.mem_map.mp hx
        obtain ⟨a, ha, rfl⟩ := List.mem_map.mp (hqueries ▸ hq)
        obtain ⟨t, ht, hkind, hbegins⟩ := hcourse.exists_keyword ha
        refine List.mem_map.mpr ⟨t, List.mem_filter.mpr ⟨ht, ?_⟩, (beq_iff_eq.mp hbegins).symm⟩
        exact Bool.and_eq_true_iff.mpr ⟨hkind, List.any_eq_true.mpr ⟨_, hq, hbegins⟩⟩
      · intro hx
        obtain ⟨t, ht, rfl⟩ := List.mem_map.mp hx
        obtain ⟨-, hbegins⟩ := Bool.and_eq_true_iff.mp (List.mem_filter.mp ht).2
        obtain ⟨q, hq, hbegins⟩ := List.any_eq_true.mp hbegins
        exact List.mem_map.mpr ⟨q, hq, beq_iff_eq.mp hbegins⟩

/-- A keyword behind a query that is not closed. -/
theorem keywords_accounted_skipped :
    let source := "if #available(iOS #unavailable " ++ Text.braced "" ++ " #available"
    let t : Token String := ⟨.fixed .unavailable, ⟨18, 30⟩, ⟨true, false, false, false⟩⟩
    t ∈ Token.ofSource source ∧ t.kind.isAvailability = true ∧
      (ofSource source 0).accounts t = 1 := by
  intro source t
  have ht : t ∈ Token.ofSource source := by decide +kernel
  exact ⟨ht, rfl, (keywords_accounted source).1 t ht rfl⟩

/-- The first keyword begins the query, the second is skipped behind it, and the third is left over. -/
example :
    let source := "if #available(iOS #unavailable " ++ Text.braced "" ++ " #available"
    let o := ofSource source 0
    ((Token.ofSource source).filter fun t => t.kind.isAvailability).map
        (fun t => (o.queries.countP (Query.begins t), o.queries.countP (o.skips t),
          o.diagnostics.countP (Diagnostic.takes t))) = [(1, 0, 0), (0, 1, 0), (0, 0, 1)] := by
  decide +kernel

end Outcome

end PlatformGate
