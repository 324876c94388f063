/-
# Entries survive recovery

Every query of a source keeps its entries, whatever is wrong in it or around it.  The course of the
source is cut where the query was read: the reports made in front of it end there, those behind it
begin behind it, and those of the query are what its own reading reports (`Asked.Cut`).  So all that
is known of one reading (`Parser.KeepsQuery`) can be told of the source in the end, by its tokens
and its diagnostics (`Query.Intact`).
-/
import PlatformGate.Proofs.Account.Keywords
import PlatformGate.Proofs.Query.Kept

namespace PlatformGate

/-! ## 1. Queries on a course -/

/-- Where a query was read on a course: from `k` up to `l`.  The reports are cut there. -/
structure Asked.Cut (w : List Terminal) (lo : Nat) (rs : List (Report Run)) (a : Asked)
    (before inner behind : List (Report Run)) (k l : Input) : Prop where
  split : rs = before ++ (inner ++ behind)
  read : a.query.ReadFrom k inner l
  inside : k.In w
  lower : lo ≤ k.position
  keyword : k.kind.isAvailability = true
  place : a.query.place = ⟨k.position, l.position⟩
  before : ∀ r ∈ before, r.reach ≤ k.position
  behind : ∀ r ∈ behind, l.position ≤ r.place.first
  search : a.search = l.position ∨ ∃ r ∈ inner, ¬ r.cause.OfEntry ∧ r.place.first = a.search

section Cutting

variable {w : List Terminal} {lo lo' : Nat} {a : Asked} {i j k l : Input}
  {rs before inner behind : List (Report Run)} {as : List Asked}

/-- More is reported in front of the query. -/
theorem Asked.Cut.push (h : a.Cut w lo rs before inner behind k l) (rs' : List (Report Run))
    (hle : lo' ≤ lo) (hrs : ∀ r ∈ rs', r.reach ≤ lo) :
    a.Cut w lo' (rs' ++ rs) (rs' ++ before) inner behind k l :=
  { h with
    split := by rw [h.split, List.append_assoc]
    lower := Nat.le_trans hle h.lower
    before := List.forall_mem_append.mpr
      ⟨fun r hr => Nat.le_trans (hrs r hr) h.lower, h.before⟩ }

/-- **A query was read where the course asks it.** -/
theorem Course.exists_cut (h : Course i rs as j) (hi : i.In w) (ha : a ∈ as) :
    ∃ before inner behind k l, a.Cut w i.position rs before inner behind k l := by
  induction h with
  | nil => exact absurd ha List.not_mem_nil
  | @read i _ _ _ _ _ ih =>
    obtain ⟨_, _, _, _, _, hcut⟩ := ih hi.next ha
    exact ⟨_, _, _, _, _, hcut.push [] i.ahead_next.position_le nofun⟩
  | @remark i _ r _ _ hcause hplace _ ih =>
    obtain ⟨_, _, _, _, _, hcut⟩ := ih hi ha
    have hreach := (Report.between_passing hcause.not_quotes hplace).2
    refine ⟨_, _, _, _, _, hcut.push [r] (Nat.le_refl _) ?_⟩
    exact List.forall_mem_singleton.mpr (Nat.le_of_eq hreach)
  | @quote i _ n r _ _ hr _ ih =>
    obtain ⟨_, _, _, _, _, hcut⟩ := ih (hi.skip n) ha
    refine ⟨_, _, _, _, _, hcut.push [r] (Nat.le_add_right _ _) ?_⟩
    exact List.forall_mem_singleton.mpr (Nat.le_of_eq hr.reach_eq)
  | @query i k j q rs rs' as hkeyword hread hplace hinner hrest _ ih =>
    rcases List.mem_cons.mp ha with rfl | ha
    · exact ⟨[], rs, rs', i, k, rfl, hread, hi, Nat.le_refl _, hkeyword, hplace, nofun,
        fun r hr => (hrest.between r hr).lower, .inl rfl⟩
    · obtain ⟨_, _, _, _, _, hcut⟩ := ih (hi.next.ahead hinner.ahead) ha
      have hle := (i.ahead_next.trans hinner.ahead).position_le
      exact ⟨_, _, _, _, _, hcut.push _ hle fun r hr => (hinner.between r hr).upper⟩
  | @search i k j n q rs rs' as hkeyword hopen hread hplace _ hn hinner hrest _ ih =>
    let unclosed : Report Run :=
      ⟨.unclosed .availability (Run.token i.next.position), Run.token k.position⟩
    have hskip : k.position ≤ (k.skip n).position := Nat.le_add_right _ _
    have hk : k.In w := hi.next.next.ahead hinner.ahead
    rw [show rs ++ unclosed :: rs' = (rs ++ [unclosed]) ++ rs' from
      (List.append_assoc rs [unclosed] rs').symm]
    rcases List.mem_cons.mp ha with rfl | ha
    · exact ⟨[], rs ++ [unclosed], rs', i, k.skip n, rfl, hread, hi, Nat.le_refl _, hkeyword,
        hplace, nofun, fun r hr => (hrest.between r hr).lower,
        .inr ⟨unclosed, List.mem_append_right rs List.mem_cons_self, id, rfl⟩⟩
    · obtain ⟨_, _, _, _, _, hcut⟩ := ih (hk.skip n) ha
      have hle := ((i.ahead_next.trans i.next.ahead_next).trans hinner.ahead).position_le
      refine ⟨_, _, _, _, _, hcut.push _ (Nat.le_trans hle hskip) ?_⟩
      refine List.forall_mem_append.mpr ⟨fun r hr => ?_, List.forall_mem_singleton.mpr hskip⟩
      exact Nat.le_trans (hinner.between r hr).upper hskip

end Cutting

/-! ## 2. Entries, tokens and diagnostics -/

/-- The entry covers tokens of the source, from the start of the first to the end of the last.  They
say what it is, and all tokens that follow say nothing else. -/
structure Entry.Intact (source : String) (e : Entry Span) : Prop where
  solid : e.place.start < e.place.stop
  shaped : e.Shaped
  tokens : ∃ before own behind first last,
    Token.beforeEnd source = before ++ own ++ behind ∧
      own.head? = some first ∧ own.getLast? = some last ∧
      e.place = ⟨first.span.start, last.span.stop⟩ ∧
      entryAt? (own.map Token.kind) = some (e.map fun _ => ()) ∧
      entryAt? ((own ++ behind).map Token.kind) = some (e.map fun _ => ())

/-- The diagnostic misses a name in the query where a number stands. -/
def Diagnostic.missesName (source : String) (q : Query Span) (d : Diagnostic) : Bool :=
  d.code == .e1004 && q.place.covers d.span &&
    (Token.beforeEnd source).any fun t => Grammar.isNumber t.kind && t.span == d.span

/-- The diagnostic ends the entries of the query: an operator stands among them, or no parenthesis
closes the query. -/
def Diagnostic.endsEntries (q : Query Span) (d : Diagnostic) : Bool :=
  d.code == .e1006 && q.place.covers d.span || d.leavesOpen q

/-- What is kept of a query, however much is wrong. -/
structure Query.Intact (source : String) (q : Query Span) : Prop where
  entries : ∀ e ∈ q.entries, e.Intact source
  apart : q.entries.Pairwise fun e f => e.place.stop ≤ f.place.start
  /-- All entries stand behind the parenthesis that opens the query. -/
  opened : q.entries ≠ [] → ∃ before keyword opener behind,
    Token.beforeEnd source = before ++ keyword :: opener :: behind ∧
      keyword.kind.isAvailability = true ∧ q.begins keyword = true ∧
      opener.kind = .fixed .lparen ∧ ∀ e ∈ q.entries, opener.span.stop ≤ e.place.start
  /-- The entries without a name are those whose first number is said to miss a name. -/
  unnamed : ((Outcome.ofSource source 0).diagnostics.filter
      (Diagnostic.missesName source q)).map (fun d => d.span.start) =
    (q.entries.filter Entry.isUnnamed).map fun e => e.place.start
  ends : ∀ d ∈ (Outcome.ofSource source 0).diagnostics, d.endsEntries q = true →
    ∀ e ∈ q.entries, e.place.stop ≤ d.span.start

/-! ## 3. Where a query stands in a source -/

section Source

variable {source : String} {e : Entry Run} {i j : Input} {r : Report Run} {a : Asked}
  {as : List Asked}

theorem Terminal.kinds_ofToken (ts : List (Token String)) :
    (ts.map ofToken).map kind = ts.map Token.kind := List.map_map

/-- The kinds to come are those of the tokens of the source. -/
theorem Input.In.kinds_eq (hi : i.In (Whole.ofSource source).terminals) :
    i.kinds = ((Token.beforeEnd source).drop i.position).map Token.kind := by
  rw [Input.kinds, hi.rest_eq, Terminal.kinds_ofToken]

/-- **An entry that stands among terminals is intact** among tokens. -/
theorem Entry.Stands.intact (h : e.Stands (Whole.ofSource source).terminals) :
    (e.map (Run.locate source)).Intact source := by
  have hterminals : (Whole.ofSource source).terminals = _ := Token.terminals_ofSource source
  have hsolid := h.solid
  have htaken := h.taken
  have hfollows := h.follows
  rw [Whole.length_terminals] at hsolid
  rw [hterminals, ← List.map_take, ← List.map_drop, Terminal.kinds_ofToken] at htaken
  rw [hterminals, ← List.map_drop, Terminal.kinds_ofToken] at hfollows
  obtain ⟨first, last, hfirst, hlast, hplace⟩ := hsolid.exists_between
  obtain ⟨hall, hfrom⟩ := hsolid.split_between
  have hshaped : (e.map (Run.locate source)).Shaped :=
    Entry.shaped_of_map (f := fun _ => ()) (entryAt?_shaped htaken)
  refine ⟨hsolid.start_lt_stop, hshaped, _, _, _, first, last, hall, hfirst, hlast, hplace,
    htaken, ?_⟩
  rw [hfrom]
  exact hfollows

/-- The start of a run is that of its first token. -/
theorem Run.start_locate_point (r : Run) :
    ((Run.point r.first).locate source).start = (r.locate source).start := by
  unfold locate toSpan
  split <;> split <;> rfl

/-- All that is reported of a source stands in it. -/
theorem Whole.placed (hr : r ∈ (Whole.ofSource source).reports) :
    r.Placed 0 (Token.beforeEnd source).length := by
  have hreads := Parser.topLevel_reads (Input.start (Whole.ofSource source).terminals)
  rw [← Whole.position_next source]
  exact hreads.1.placed r hr

theorem Cause.missingPlatform_of_code {ρ : Type} {cause : Cause ρ} (h : cause.code = .e1004) :
    cause = .missingPlatform := by
  cases cause with
  | missingPlatform => rfl
  | leftover c | unclosed c => cases c <;> exact absurd h nofun
  | _ => exact absurd h nofun

theorem Cause.availability_of_code {ρ : Type} {cause : Cause ρ} (h : cause.code = .e1006) :
    cause = .leftover .availability := by
  cases cause with
  | leftover c =>
    cases c with
    | availability => rfl
    | _ => exact absurd h nofun
  | unclosed c => cases c <;> exact absurd h nofun
  | _ => exact absurd h nofun

theorem Report.missesName_iff {w : List Terminal} : r.missesName w = true ↔
    r.cause = .missingPlatform ∧
      ∃ t, w[r.place.first]? = some t ∧ Grammar.isNumber t.kind = true := by
  rw [missesName, Bool.and_eq_true, beq_iff_eq, Option.any_eq_true]

/-- No name is missed at a keyword, so a name missed from there on is missed behind it. -/
theorem Report.lt_reach_of_missesName {w : List Terminal} (hi : i.In w)
    (hkeyword : i.kind.isAvailability = true) (hname : r.missesName w = true)
    (hle : i.position ≤ r.place.first) : i.position < r.reach := by
  obtain ⟨hcause, t, ht, hnumber⟩ := missesName_iff.mp hname
  have hreach : r.reach = r.place.first := by
    rw [reach, hcause]
    rfl
  rw [hreach]
  refine Nat.lt_of_le_of_ne hle fun heq => ?_
  have hkind := hi.keywordAt_eq.trans hkeyword
  rw [Terminal.keywordAt, heq, ht, Option.any_some] at hkind
  cases hk : t.kind with
  | number v =>
    rw [hk] at hkind
    cases hkind
  | _ =>
    rw [hk] at hnumber
    cases hnumber

/-- **A diagnostic misses a name in a query** if its report misses one between the first and the
last token of the query. -/
theorem Diagnostic.missesName_word {q : Query Run} (hr : r ∈ (Whole.ofSource source).reports)
    (hq : q.place.Solid (Token.beforeEnd source).length) :
    (Session.word source source r).missesName source (q.map (Run.locate source)) = true ↔
      r.missesName (Whole.ofSource source).terminals = true ∧
        q.place.first ≤ r.place.first ∧ r.place.first < q.place.past := by
  have hcode := Session.code_word source source r
  have hplaced := Whole.placed hr
  have hterminals : (Whole.ofSource source).terminals = _ := Token.terminals_ofSource source
  unfold missesName
  rw [Report.missesName_iff, Bool.and_eq_true, Bool.and_eq_true, beq_iff_eq, hcode,
    List.any_eq_true, hterminals]
  have hplace : r.cause = .missingPlatform → r.place = Run.token r.place.first := by
    obtain ⟨cause, first, past⟩ := r
    rintro rfl
    obtain rfl : past = first + 1 := hplaced.2.2
    rfl
  have hwithin : ∀ {t : Token String}, r.cause = .missingPlatform →
      (Token.beforeEnd source)[r.place.first]? = some t →
      ((q.place.locate source).covers (r.place.locate source) = true ↔
        q.place.first ≤ r.place.first ∧ r.place.first < q.place.past) := by
    intro t hcause ht
    have htoken : (Run.token r.place.first).Solid (Token.beforeEnd source).length :=
      ⟨Nat.lt_succ_self _, (List.getElem?_eq_some_iff.mp ht).1⟩
    rw [hplace hcause]
    exact Run.covers_locate_iff htoken hq
  constructor
  · rintro ⟨⟨hcause, hcovers⟩, u, hu, hnumber⟩
    have hcause := Cause.missingPlatform_of_code hcause
    obtain ⟨hnumber, hspan⟩ := Bool.and_eq_true_iff.mp hnumber
    have hspan : u.span = r.place.locate source := beq_iff_eq.mp hspan
    obtain ⟨n, hn⟩ := List.mem_iff_getElem?.mp hu
    have hget : (Token.beforeEnd source)[r.place.first]? = some u :=
      Run.first_eq_of_start hplaced.2.1 hn (congrArg Span.start hspan).symm ▸ hn
    refine ⟨⟨hcause, Terminal.ofToken u, ?_, hnumber⟩, (hwithin hcause hget).mp hcovers⟩
    rw [List.getElem?_map, hget]
    rfl
  · rintro ⟨⟨hcause, t, ht, hnumber⟩, hrange⟩
    rw [List.getElem?_map] at ht
    obtain ⟨u, hu, rfl⟩ := Option.map_eq_some_iff.mp ht
    have hspan : u.span = r.place.locate source := by
      rw [hplace hcause]
      exact (Run.locate_token hu).symm
    refine ⟨⟨congrArg Cause.code hcause, (hwithin hcause hu).mpr hrange⟩, u,
      List.mem_of_getElem? hu, ?_⟩
    exact Bool.and_eq_true_iff.mpr ⟨hnumber, beq_iff_eq.mpr hspan⟩

section OnCut

variable {q : Query Run} {lo search : Nat} {before inner behind : List (Report Run)} {k l : Input}
variable (h : (Asked.mk q search).Cut (Whole.ofSource source).terminals lo
  (Whole.ofSource source).reports before inner behind k l)

include h

/-- What is known of the reading of the query. -/
theorem Asked.Cut.keeps : Parser.KeepsQuery (Whole.ofSource source).terminals k q inner l := by
  obtain ⟨resume, hread⟩ := h.read
  have hkeeps := Parser.query_keeps resume h.inside
  rw [Parser.Ensures, hread] at hkeeps
  exact hkeeps

/-- A report that goes beyond the first token of the query, and begins in front of its end, is one
of the query. -/
theorem Asked.Cut.mem_inner (hr : r ∈ (Whole.ofSource source).reports)
    (hreach : q.place.first < r.reach) (hfirst : r.place.first < q.place.past) : r ∈ inner := by
  have hplace : q.place = _ := h.place
  rw [hplace] at hreach hfirst
  rw [h.split] at hr
  rcases List.mem_append.mp hr with hr | hr
  · exact absurd hreach (Nat.not_lt_of_le (h.before r hr))
  rcases List.mem_append.mp hr with hr | hr
  · exact hr
  · exact absurd hfirst (Nat.not_lt_of_le (h.behind r hr))

/-- A name is missed within the query exactly by the query's own reports. -/
theorem Asked.Cut.filter_missesName (hq : q.place.Solid (Token.beforeEnd source).length) :
    ((Whole.ofSource source).reports.filter
        (Diagnostic.missesName source (q.map (Run.locate source)) ∘ Session.word source source)) =
      inner.filter (Report.missesName (Whole.ofSource source).terminals) := by
  have hplace : q.place = _ := h.place
  have hmem : ∀ r ∈ before ++ (inner ++ behind), r ∈ (Whole.ofSource source).reports :=
    fun r hr => h.split ▸ hr
  have hword : ∀ r ∈ before ++ (inner ++ behind), _ :=
    fun r hr => Diagnostic.missesName_word (hmem r hr) hq
  rw [hplace] at hword
  obtain ⟨hbefore, hrest⟩ := List.forall_mem_append.mp hword
  obtain ⟨hinner, hbehind⟩ := List.forall_mem_append.mp hrest
  have hfront : before.filter (Diagnostic.missesName source (q.map (Run.locate source)) ∘
      Session.word source source) = [] := by
    refine List.filter_eq_nil_iff.mpr fun r hr hmisses => ?_
    obtain ⟨hname, hlo, -⟩ := (hbefore r hr).mp hmisses
    have hreach := Report.lt_reach_of_missesName h.inside h.keyword hname hlo
    exact absurd hreach (Nat.not_lt_of_le (h.before r hr))
  have hback : behind.filter (Diagnostic.missesName source (q.map (Run.locate source)) ∘
      Session.word source source) = [] := by
    refine List.filter_eq_nil_iff.mpr fun r hr hmisses => ?_
    obtain ⟨-, -, hhi⟩ := (hbehind r hr).mp hmisses
    exact absurd hhi (Nat.not_lt_of_le (h.behind r hr))
  rw [h.split, List.filter_append, List.filter_append, hfront, hback, List.nil_append,
    List.append_nil]
  refine List.filter_congr fun r hr => Bool.eq_iff_iff.mpr ?_
  refine (hinner r hr).trans ⟨And.left, fun hname => ⟨hname, ?_⟩⟩
  have hfirst := List.mem_map_of_mem (f := fun r : Report Run => r.place.first)
    (List.mem_filter.mpr ⟨hr, hname⟩)
  rw [h.keeps.unnamed] at hfirst
  obtain ⟨e, he, hfirst⟩ := List.mem_map.mp hfirst
  have he := (List.mem_filter.mp he).1
  obtain ⟨hlo, hhi⟩ := h.keeps.within e he
  have hlt := (h.keeps.stands e he).solid.1
  rw [hfirst] at hlo hlt
  exact ⟨Nat.le_of_lt (Nat.lt_of_le_of_lt k.ahead_next.position_le hlo), Nat.lt_of_lt_of_le hlt hhi⟩

/-- The entries without a name are those whose first number is said to miss a name. -/
theorem Asked.Cut.unnamed_eq (hq : q.place.Solid (Token.beforeEnd source).length) :
    ((Outcome.ofSource source 0).diagnostics.filter
        (Diagnostic.missesName source (q.map (Run.locate source)))).map (fun d => d.span.start) =
      ((q.map (Run.locate source)).entries.filter Entry.isUnnamed).map fun e => e.place.start := by
  have hunnamed := congrArg (List.map fun n => ((Run.point n).locate source).start) h.keeps.unnamed
  rw [List.map_map, List.map_map] at hunnamed
  rw [Outcome.diagnostics_eq_word, List.filter_map, h.filter_missesName hq, List.map_map]
  refine Eq.trans (List.map_congr_left fun r _ => ?_) (hunnamed.trans ?_)
  · exact (Run.start_locate_point r.place).symm
  · rw [Query.map, List.filter_map, List.map_map]
    exact List.map_congr_left fun e _ => Run.start_locate_point e.place

/-- The parenthesis of a query with entries stands behind the keyword and in front of them. -/
theorem Asked.Cut.exists_opener (hne : q.entries ≠ []) : ∃ before keyword opener behind,
    Token.beforeEnd source = before ++ keyword :: opener :: behind ∧
      keyword.kind.isAvailability = true ∧ (q.map (Run.locate source)).begins keyword = true ∧
      opener.kind = .fixed .lparen ∧
      ∀ e ∈ (q.map (Run.locate source)).entries, opener.span.stop ≤ e.place.start := by
  have hplace : q.place = _ := h.place
  have hopen := h.keeps.opened hne
  have hend := Kind.ne_endOfFile_of_isAvailability h.keyword
  obtain ⟨-, -, -, hkinds⟩ := Input.takes_next rfl hend
  obtain ⟨-, -, -, hkinds'⟩ := Input.takes_next hopen nofun
  rw [hkinds', h.inside.kinds_eq] at hkinds
  obtain ⟨keyword, tokens, htokens, hkeyword, hrest⟩ := List.map_eq_cons_iff.mp hkinds
  obtain ⟨opener, behind, rfl, hopener, -⟩ := List.map_eq_cons_iff.mp hrest
  have hget : ∀ n, (Token.beforeEnd source)[k.position + n]? = (keyword :: opener :: behind)[n]? :=
    fun n => by rw [← htokens, List.getElem?_drop]
  have hfirst : (Token.beforeEnd source)[q.place.first]? = some keyword := by
    rw [hplace]
    exact hget 0
  refine ⟨(Token.beforeEnd source).take k.position, keyword, opener, behind, ?_, ?_, ?_, hopener,
    List.forall_mem_map.mpr fun e he => ?_⟩
  · rw [← htokens, List.take_append_drop]
  · rw [hkeyword, h.keyword]
  · exact beq_iff_eq.mpr (Run.start_locate (Token.getElem?_ofSource hfirst))
  · have hsolid := (h.keeps.stands e he).solid
    have hlt := (h.keeps.within e he).1
    rw [Whole.length_terminals] at hsolid
    rw [Input.position_next_of_isAvailability h.keyword] at hlt
    rw [← Run.locate_token (hget 1)]
    refine Run.Solid.stop_le_start ⟨Nat.lt_succ_self _, ?_⟩ hsolid hlt
    exact (List.getElem?_eq_some_iff.mp (hget 1)).1

variable {d : Diagnostic} (hcourse : Course (Input.start (Whole.ofSource source).terminals)
  (Whole.ofSource source).reports as j) (ha : Asked.mk q search ∈ as)

include hcourse ha

/-- Where the entries of a query end is behind them all. -/
theorem Asked.Cut.exists_end (hd : d ∈ (Outcome.ofSource source 0).diagnostics)
    (hends : d.endsEntries (q.map (Run.locate source)) = true) :
    ∃ s : Run, d.span = s.locate source ∧ s.first ≤ (Token.beforeEnd source).length ∧
      ∀ e ∈ q.entries, e.place.past ≤ s.first := by
  have hq := hcourse.solid_place ha
  rcases Bool.or_eq_true_iff.mp hends with hillegal | hopen
  · rw [Outcome.diagnostics_eq_word] at hd
    obtain ⟨r, hr, rfl⟩ := List.mem_map.mp hd
    obtain ⟨hcode, hcovers⟩ := Bool.and_eq_true_iff.mp hillegal
    have hcause := Cause.availability_of_code
      ((Session.code_word source source r).symm.trans (beq_iff_eq.mp hcode))
    obtain ⟨-, hlt, hpast⟩ := (Whole.placed hr).leftover hcause
    obtain ⟨hlo, hhi⟩ := (Run.covers_locate_iff ⟨hlt, hpast⟩ hq).mp hcovers
    have hreach : r.reach = r.place.past := by
      rw [Report.reach, hcause]
      rfl
    have hinner := h.mem_inner hr (hreach ▸ Nat.lt_of_le_of_lt hlo hlt) (Nat.lt_of_lt_of_le hlt hhi)
    refine ⟨r.place, rfl, Nat.le_of_lt (Nat.lt_of_lt_of_le hlt hpast), ?_⟩
    refine (h.keeps.ends r hinner).resolve_left fun hentry => ?_
    rw [hcause] at hentry
    exact hentry
  · refine ⟨Run.token search, hcourse.exists_leavesOpen ha hd hopen, ?_, ?_⟩
    · exact Nat.le_trans (hcourse.placed rfl _ ha).inside hq.2
    · rcases h.search with hsearch | ⟨r, hr, hentry, hsearch⟩
      · exact fun e he => Nat.le_trans (h.keeps.within e he).2 (Nat.le_of_eq hsearch.symm)
      · exact fun e he => Nat.le_trans ((h.keeps.ends r hr).resolve_left hentry e he)
          (Nat.le_of_eq hsearch)

/-- **The query is intact,** said of tokens and diagnostics. -/
theorem Asked.Cut.intact : (q.map (Run.locate source)).Intact source := by
  have hq := hcourse.solid_place ha
  have hsolid : ∀ e ∈ q.entries, e.place.Solid (Token.beforeEnd source).length :=
    fun e he => Whole.length_terminals source ▸ (h.keeps.stands e he).solid
  refine ⟨List.forall_mem_map.mpr fun e he => (h.keeps.stands e he).intact,
    List.pairwise_map.mpr (h.keeps.apart.imp_of_mem fun he hf hle => ?_), fun hne => ?_,
    h.unnamed_eq hq, fun d hd hends => ?_⟩
  · exact (hsolid _ he).stop_le_start (hsolid _ hf) hle
  · exact h.exists_opener fun hnil => hne (congrArg (List.map _) hnil)
  · obtain ⟨s, hspan, hs, hbehind⟩ := h.exists_end hcourse ha hd hends
    refine List.forall_mem_map.mpr fun e he => ?_
    rw [hspan]
    refine Run.stop_locate_le (Nat.le_of_lt (hsolid e he).1) (hbehind e he) ?_
    rw [Token.length_ofSource]
    exact Nat.lt_succ_of_le hs

end OnCut

end Source

/-! ## 4. All queries -/

namespace Outcome

/-- **Entries survive recovery.**  Each entry of a query is what its tokens say, and a version alone
is told by a diagnostic at its first number, one for each in their order.  The entries stand in a
row behind the parenthesis, and in front of all that ends them. -/
theorem entries_intact (source : String) {q : Query Span}
    (hq : q ∈ (ofSource source 0).queries) : q.Intact source := by
  obtain ⟨as, hcourse, has⟩ := Whole.exists_course source
  rw [queries_ofSource has] at hq
  obtain ⟨a, ha, rfl⟩ := List.mem_map.mp hq
  obtain ⟨before, inner, behind, k, l, hcut⟩ := hcourse.exists_cut rfl ha
  exact hcut.intact hcourse ha

/-- A version with a character that is invalid, a version alone, and an operator behind a star. -/
theorem entries_intact_operator :
    let source := "if #available(iOS 17.é, 3.1, * >= 4, Mac 5) " ++ Text.braced ""
    let q : Query Span :=
      { entries := [.platform "iOS" (Version.ofComponents? [17]) ⟨14, 23⟩,
          .unnamed (Version.ofComponents? [3, 1]) ⟨25, 28⟩, .star ⟨30, 31⟩]
        negated := false
        status := .done
        place := ⟨3, 44⟩ }
    q ∈ (ofSource source 0).queries ∧ q.Intact source := by
  intro source q
  have hq : q ∈ (ofSource source 0).queries := by decide +kernel
  exact ⟨hq, entries_intact source hq⟩

/-- One diagnostic misses a name, at the version alone, and one ends the entries. -/
example :
    let source := "if #available(iOS 17.é, 3.1, * >= 4, Mac 5) " ++ Text.braced ""
    let o := ofSource source 0
    o.queries.map (fun q => (o.diagnostics.map fun d => (d.span.start, d.missesName source q,
      d.endsEntries q))) = [[(21, false, false), (25, true, false), (32, false, true)]] := by
  decide +kernel

end Outcome

end PlatformGate
