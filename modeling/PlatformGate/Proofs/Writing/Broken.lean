/-
# Conditions that are broken

Two ways to get a condition wrong cost one diagnostic each and nothing else.  If `)` is missing, the
query ends in front of the body and keeps the entries in front (`Outcome.unclosed_listed`).  If an
operator comes that no query may hold, it is passed over with all that follows up to `)`, and the
query is done with the entries in front (`Outcome.operator_listed`).

In both cases what stands in front is the beginning of a list, and a list again.  It is read up to
where it ends (`Parser.entries_broken_off`), and all that is left to look at is what the reader does
there.
-/
import PlatformGate.Proofs.Grammar.Accepts
import PlatformGate.Proofs.Parse.Depth
import PlatformGate.Proofs.Tiling.Tiles
import PlatformGate.Proofs.Writing.ReadsBack

namespace PlatformGate

namespace Parser

open Writing Grammar

/-! ## 1. Queries -/

/-- An operator that no query may hold is no bracket. -/
theorem not_bracket_of_illegal {k : Kind String} (h : TagSet.illegalInQuery.contains k = true) :
    k.isOpener = false ∧ k.isCloser = false := by
  cases k with
  | fixed f => cases f <;> first | exact ⟨rfl, rfl⟩ | exact absurd h nofun
  | _ => exact absurd h nofun

/-- No operator ends a list but an operator that no query may hold, and that ends no header. -/
theorem fixed_of_illegal (owner : Owner) {k : Kind String}
    (h : TagSet.illegalInQuery.contains k = true) :
    ∃ f, k = .fixed f ∧ f ≠ .rparen ∧ EndsList (TagSet.headerEnd owner) f ∧
      (TagSet.headerEnd owner).contains k = false := by
  cases k with
  | fixed f =>
    refine ⟨f, rfl, ?_⟩
    cases owner <;> cases f <;> first
      | exact ⟨nofun, ⟨nofun, nofun, nofun, .inr (.inl rfl)⟩, rfl⟩
      | exact absurd h nofun
  | _ => exact absurd h nofun

/-- **An operator that no query may hold is taken with all that is enclosed behind it.** -/
theorem looks_operator {resume : TagSet} {i : Input} {t close : Terminal} {ts back : List Terminal}
    (hrest : i.rest = t :: (ts ++ close :: back))
    (hillegal : TagSet.illegalInQuery.contains t.kind = true)
    (hresume : resume.contains t.kind = false) (hts : Enclosed resume 0 ts)
    (hclose : close.kind = .fixed .rparen) :
    LooksForOperator resume i
      [⟨.leftover .availability, ⟨i.position, i.position + (ts.length + 1)⟩⟩]
      (i.skip (ts.length + 1)) := by
  have hcapture : captureLength (resume.insert (.fixed .rparen)) false 0 false i.rest =
      ts.length + 1 := by
    obtain ⟨hopener, hcloser⟩ := not_bracket_of_illegal hillegal
    have hstop := (TagSet.contains_insert_rparen resume hcloser).trans hresume
    have hdepth : t.depthAfter 0 = 0 := by simp [Terminal.depthAfter, hopener, hcloser]
    rw [hrest, captureLength, hdepth, captureLength_enclosed hclose hts]
    simp [endsCapture, hstop, hcloser]
  rw [← Input.kind_eq_head hrest] at hillegal
  unfold LooksForOperator illegalOperator
  rw [ensures_bind, ensures_kind, if_pos hillegal, ensures_bind, ensures_leftovers, hcapture]
  refine ⟨fun h => absurd h (Nat.succ_ne_zero _), ?_⟩
  rintro n rfl -
  exact ⟨rfl, rfl⟩

section Queries

variable {i : Input} {resume : TagSet} {f : Fixed} {items : List Item} {trailing : Bool}
  {us ts : List Terminal} {t : Terminal}

/-- **A list that breaks off is read up to there.** -/
theorem entries_broken_off (hf : EndsList resume f) (hrparen : f ≠ .rparen)
    (hrest : i.rest = us ++ t :: ts) (hus : us.map Terminal.kind = listed items trailing)
    (ht : t.kind = .fixed f) :
    (entries resume).Ensures i fun es rs j =>
      es.map (Entry.map fun _ => ()) = items.map Item.entry ∧
        LooksForOperator resume ⟨i.position + us.length, t :: ts⟩ rs j := by
  have hkinds : i.kinds = listed items trailing ++ .fixed f :: ts.map Terminal.kind := by
    rw [Input.kinds, hrest, List.map_append, hus, List.map_cons, ht]
  refine (entries_back hf (fun _ => hrparen) hkinds).mono fun es rs j hj => ?_
  obtain ⟨hes, ⟨position, rest⟩, ⟨vs, hvs, hposition⟩, hl, hlooks⟩ := hj
  have hlength : rest.length = (t :: ts).length := by
    have hlength := congrArg List.length hl
    simpa [Input.kinds] using hlength
  obtain ⟨rfl, rfl⟩ := List.append_inj' (hvs.symm.trans hrest) hlength
  obtain rfl : position = i.position + vs.length := hposition
  exact ⟨hes, hlooks⟩

variable {negated : Bool} (hf : EndsList resume f) (hrparen : f ≠ .rparen)
  (hkeyword : i.kind = (Condition.keywordSpelling negated).kind)
  (hopen : i.next.kind = .fixed .lparen) (hrest : i.next.next.rest = us ++ t :: ts)
  (hus : us.map Terminal.kind = listed items trailing) (ht : t.kind = .fixed f)

include hf hrparen hkeyword hopen hus ht

include hrest in
/-- **A query whose `)` is missing** has the entries in front, and is reported where the header
ends.  There reading goes on. -/
theorem query_unclosed (hresume : resume.contains t.kind = true)
    (hlegal : TagSet.illegalInQuery.contains t.kind = false) :
    (query resume).Ensures i fun q rs j =>
      let here := i.next.next.position + us.length
      q.map (fun _ => ()) = ⟨items.map Item.entry, negated, .incomplete, ()⟩ ∧
        rs = [⟨.unclosed .availability (Run.token i.next.position), Run.token here⟩] ∧
        j = ⟨here, t :: ts⟩ := by
  refine query_of_entries hkeyword hopen ?_
  refine (entries_broken_off hf hrparen hrest hus ht).mono fun es rs j hj => ?_
  obtain ⟨hes, hlooks⟩ := hj
  obtain ⟨rfl, rfl⟩ := hlooks.unique (looks_none hlegal)
  refine ⟨fun hclose => absurd (Kind.fixed.inj (ht.symm.trans hclose)) hrparen, fun _ => ?_⟩
  have hprobe : probeLength? resume 0 (t :: ts) = some 0 := by
    rw [probeLength?, hresume]
    rfl
  rw [ensures_unclosed, hprobe]
  exact ⟨by simp [Query.map, hes], rfl, rfl⟩

/-- **A query with an operator that no query may hold** is done with the entries in front.  What is
enclosed behind the operator is passed over and reported with it. -/
theorem query_operator (hresume : resume.contains t.kind = false)
    (hillegal : TagSet.illegalInQuery.contains t.kind = true) {close : Terminal}
    {back : List Terminal} (hrest : i.next.next.rest = us ++ t :: (ts ++ close :: back))
    (hts : Enclosed resume 0 ts) (hclose : close.kind = .fixed .rparen) :
    (query resume).Ensures i fun q rs j =>
      let first := i.next.next.position + us.length
      q.map (fun _ => ()) = ⟨items.map Item.entry, negated, .done, ()⟩ ∧
        rs = [⟨.leftover .availability, ⟨first, first + (ts.length + 1)⟩⟩] ∧ j.rest = back := by
  refine query_of_entries hkeyword hopen ?_
  refine (entries_broken_off hf hrparen hrest hus ht).mono fun es rs j hj => ?_
  obtain ⟨hes, hlooks⟩ := hj
  obtain ⟨rfl, rfl⟩ := hlooks.unique (looks_operator rfl hillegal hresume hts hclose)
  have hback : (t :: (ts ++ close :: back)).drop (ts.length + 1) = close :: back := by simp
  have hkind : (Input.skip (ts.length + 1)
      ⟨i.next.next.position + us.length, t :: (ts ++ close :: back)⟩).kind = .fixed .rparen :=
    (Input.kind_eq_head hback).trans hclose
  refine ⟨fun _ => ⟨by simp [Query.map, hes], rfl, ?_⟩, fun hne => absurd hkind hne⟩
  rw [Input.next_eq_of_rest hback]

end Queries

/-! ## 2. Bodies -/

/-- What stands behind a header. -/
def bodyRule : Owner → Rule
  | .guardStatement => .seq [.token .elseWord, .ref .block]
  | _ => .ref .block

theorem Finishes.mono {i : Input} {owner : Owner} {B B' : Body Run → Prop}
    (h : Finishes owner B i) (hB : ∀ b, B b → B' b) : Finishes owner B' i :=
  ⟨h.1, Ensures.mono h.2 fun b _ _ hb => ⟨hB b hb.1, hb.2⟩⟩

/-- What is read in front of `{` is a block. -/
theorem body_of_lbrace {i : Input} (owner : Owner) (h : i.kind = .fixed .lbrace) :
    (body stmt owner).Ensures i fun b _ _ => ∃ ss p, b = .block ss p := by
  simp only [body, ensures_bind, ensures_check, ↓reduceIte, Bool.false_eq_true]
  refine (headerTail_complete owner (h ▸ rfl) (Input.rest_ne_nil h)).mono fun _ rs j hj => ?_
  obtain ⟨-, rfl⟩ := hj
  exact ⟨fun _ => ⟨_, _, rfl⟩, fun hne => absurd h hne⟩

/-- **A derived body is read to its end.** -/
theorem finishes_of_derives {i : Input} {owner : Owner} (hlined : Lined i.rest)
    (h : Derives (bodyRule owner) i.rest []) :
    Finishes owner (fun b => ∃ ss p, b = .block ss p) i := by
  have hblock : ∀ j : Input, Lined j.rest.tail → Derives (.ref .block) j.rest [] →
      j.kind = .fixed .lbrace ∧ (body stmt owner).Ensures j fun b rs k =>
        (∃ ss p, b = .block ss p) ∧ rs = [] ∧ k.rest = [] := by
    intro j hlined h
    have hopen : j.kind = .fixed .lbrace := (derives_block.mp h).1
    have hread := body_complete (fun i us _ h hus hlined => (stmt_complete i us hlined).2 h hus)
      owner (Nat.le_refl _) hlined h
    exact ⟨hopen, (body_of_lbrace owner hopen).and hread⟩
  cases owner with
  | guardStatement =>
    obtain ⟨ms, helse, h⟩ := derives_cons.mp h
    obtain ⟨hword, rfl⟩ := derives_token.mp helse
    obtain ⟨ms, h, hnil⟩ := derives_cons.mp h
    obtain rfl := derives_nil.mp hnil
    rw [← Input.rest_next] at h
    refine ⟨hword, (hblock i.next ?_ h).2⟩
    rw [Input.rest_next]
    exact hlined.tail.tail
  | _ => exact hblock i hlined.tail h

end Parser

/-! ## 3. Outcomes -/

namespace Writing

/-- A condition up to the `(` of its query. -/
def opening (owner : Owner) (negated : Bool) : List (Kind String) :=
  [(Condition.ownerSpelling owner).kind, (Condition.keywordSpelling negated).kind, .fixed .lparen]

end Writing

/-- How a query that is never closed is reported. -/
theorem Report.toDiagnostic_unclosed (f : Run → Span) (text : String) (opener place : Run) :
    (Report.map f ⟨.unclosed .availability opener, place⟩).toDiagnostic text =
      ⟨.e1002, .error, "expected ')' to end availability condition", f place,
        [⟨"to match this opening '('", f opener⟩]⟩ := rfl

/-- How code that does not belong in a query is reported. -/
theorem Report.toDiagnostic_operator {f : Run → Span} {text quoted : String} {place : Run}
    (h : Text.slice? text (f place).start (f place).stop = some quoted) :
    (Report.map f ⟨.leftover .availability, place⟩).toDiagnostic text =
      ⟨.e1006, .error, s!"unexpected code '{quoted}' in availability condition", f place, []⟩ := by
  unfold toDiagnostic
  rw [map, h]
  rfl

namespace Outcome

open Writing Grammar

/-- The module is one statement, which has a body; its header is one query, and stands for `q`. -/
def IsCondition (o : Outcome) (owner : Owner) (q : Query Unit) : Prop :=
  ∃ query ss inner outer,
    o.Holds [Parser.headed owner [.availability query] (.block ss inner) outer] ∧
      query.map (fun _ => ()) = q

section Source

variable {source : String} {owner : Owner} {negated : Bool} {items : List Item} {trailing : Bool}
  {w : List (Kind String)}

/-- The tokens of a condition up to where its list breaks off. -/
theorem exists_opening {head : List (Token String)}
    (h : head.map Token.kind = opening owner negated ++ w) :
    ∃ a b c us, head = a :: b :: c :: us ∧ a.kind = (Condition.ownerSpelling owner).kind ∧
      b.kind = (Condition.keywordSpelling negated).kind ∧ c.kind = .fixed .lparen ∧
      us.map Token.kind = w := by
  obtain ⟨a, _, rfl, ha, h⟩ := List.map_eq_cons_iff.mp h
  obtain ⟨b, _, rfl, hb, h⟩ := List.map_eq_cons_iff.mp h
  obtain ⟨c, us, rfl, hc, hus⟩ := List.map_eq_cons_iff.mp h
  exact ⟨a, b, c, us, rfl, ha, hb, hc, hus⟩

/-- A condition for which there is one report. -/
theorem isCondition_of_query {a b : Token String} {rest : List (Token String)} {q : Query Unit}
    {r : Report Run} (hsource : Token.beforeEnd source = a :: b :: rest)
    (hword : a.kind = (Condition.ownerSpelling owner).kind)
    (hkeyword : b.kind = (Condition.keywordSpelling negated).kind)
    (h : (Parser.query (TagSet.headerEnd owner)).Ensures
      ⟨1, (b :: rest).map Terminal.ofToken⟩ fun query rs j =>
        (query.map (fun _ => ()) = q ∧ rs = [r]) ∧
          Parser.Finishes owner (fun b => ∃ ss p, b = .block ss p) j) :
    (ofSource source 0).diagnostics = [(r.map (Run.locate source)).toDiagnostic source] ∧
      (ofSource source 0).IsCondition owner q := by
  have hterminals : Terminal.ofTokens (Token.ofSource source) =
      (a :: b :: rest).map Terminal.ofToken := by
    rw [Token.terminals_ofSource, hsource]
  have havailability : b.kind.isAvailability = true := by
    rw [hkeyword]
    cases negated <;> rfl
  have hread := Parser.topLevel_of_query (i := ⟨0, (a :: b :: rest).map Terminal.ofToken⟩)
    hword havailability h
  obtain ⟨query, b, place, hvalue, ⟨hq, hreports⟩, ss, p, rfl⟩ := hread
  constructor
  · rw [diagnostics_ofSource, hterminals, Input.start, hreports]
    rfl
  · refine ⟨query.map (Run.locate source), Stmt.mapAll (Run.locate source) ss, p.locate source,
      place.locate source, (holds_ofSource_iff source 0 _).mpr ?_, ?_⟩
    · rw [hterminals, Input.start, hvalue]
      cases owner <;> rfl
    · rw [Query.map_forget, hq]

theorem endsList_bodyBegin (owner : Owner) :
    Parser.EndsList (TagSet.headerEnd owner) (Parser.bodyBegin owner) := by
  cases owner <;> exact ⟨nofun, nofun, nofun, .inr (.inr rfl)⟩

/-- **A missing `)` costs one diagnostic and nothing else.**  A list of items, cut off anywhere but
behind a dot, with the body directly behind it, is read as what is left of the list says. -/
theorem unclosed_listed (hcut : w <+: listed items trailing)
    (hdot : w.getLast? ≠ some (.fixed .dot))
    (hsource : (Token.beforeEnd source).map Token.kind =
      opening owner negated ++ w ++ (Condition.bodySpelling owner).map Spelling.kind) :
    ∃ opener stop, (Token.beforeEnd source)[2]? = some opener ∧
      (Token.beforeEnd source)[w.length + 3]? = some stop ∧
      (ofSource source 0).diagnostics =
        [⟨.e1002, .error, "expected ')' to end availability condition", stop.span,
          [⟨"to match this opening '('", opener.span⟩]⟩] ∧
      (ofSource source 0).IsCondition owner ⟨meaning w, negated, .incomplete, ()⟩ := by
  obtain ⟨items, trailing, rfl⟩ := exists_listed_of_prefix hcut hdot
  obtain ⟨head, tail, htokens, hhead, htail⟩ := List.map_eq_append_iff.mp hsource
  obtain ⟨word, keyword, opener, us, rfl, hword, hkeyword, hopen, hus⟩ := exists_opening hhead
  obtain ⟨stop, ts, rfl, hstop⟩ : ∃ stop ts, tail = stop :: ts ∧
      stop.kind = .fixed (Parser.bodyBegin owner) := by
    cases owner <;> obtain ⟨stop, ts, rfl, hstop, -⟩ := List.map_eq_cons_iff.mp htail <;>
      exact ⟨stop, ts, rfl, hstop⟩
  obtain ⟨hresume, hlegal⟩ : (TagSet.headerEnd owner).contains stop.kind = true ∧
      TagSet.illegalInQuery.contains stop.kind = false := by
    rw [hstop]
    cases owner <;> exact ⟨rfl, rfl⟩
  have hquery := Parser.query_unclosed
    (i := ⟨1, (keyword :: opener :: (us ++ stop :: ts)).map Terminal.ofToken⟩)
    (t := .ofToken stop) (endsList_bodyBegin owner) (by cases owner <;> nofun) hkeyword hopen
    List.map_append (List.map_map.trans hus) hstop hresume hlegal
  have hfinishes : Parser.Finishes owner (fun b => ∃ ss p, b = .block ss p)
      ⟨3 + us.length, (stop :: ts).map Terminal.ofToken⟩ := by
    refine (Parser.finishes_empty ?_).mono fun b ⟨p, hb⟩ => ⟨[], p, hb⟩
    exact List.map_map.trans htail
  rw [List.length_map] at hquery
  obtain ⟨hdiagnostics, hcondition⟩ := isCondition_of_query
    (r := ⟨.unclosed .availability (Run.token 2), Run.token (3 + us.length)⟩)
    htokens hword hkeyword
    (hquery.mono fun q rs j ⟨hq, hrs, hj⟩ => ⟨⟨hq, hrs⟩, hj ▸ hfinishes⟩)
  have hopenerAt : (Token.beforeEnd source)[2]? = some opener := by
    rw [htokens]
    rfl
  have hstopAt : (Token.beforeEnd source)[us.length + 3]? = some stop := by
    rw [htokens]
    simp
  refine ⟨opener, stop, hopenerAt, ?_, ?_, meaning_listed items trailing ▸ hcondition⟩
  · rw [← hus, List.length_map, hstopAt]
  · rw [hdiagnostics, Report.toDiagnostic_unclosed, Nat.add_comm, Run.locate_token hstopAt,
      Run.locate_token hopenerAt]

/-- A list that is cut off in the middle of a version. -/
theorem unclosed_listed_in_version :
    let source := "guard #unavailable(iOS 17, macOS 14 else " ++ Text.braced " "
    let items := [.platform ⟨'i', ['O', 'S'], rfl, List.all_eq_true.mp rfl, by decide⟩
        (some ⟨[⟨17, by decide⟩], by decide, by decide⟩),
      .platform ⟨'m', ['a', 'c', 'O', 'S'], rfl, List.all_eq_true.mp rfl, by decide⟩
        (some ⟨[⟨14, by decide⟩, ⟨1, by decide⟩], by decide, by decide⟩)]
    let w := [.word "iOS", .number 17, .fixed .comma, .word "macOS", .number 14]
    (w <+: listed items true ∧ w.getLast? ≠ some (.fixed .dot) ∧
      (Token.beforeEnd source).map Token.kind = opening .guardStatement true ++ w ++
        (Condition.bodySpelling .guardStatement).map Spelling.kind) ∧
    ∃ opener stop, (Token.beforeEnd source)[2]? = some opener ∧
      (Token.beforeEnd source)[w.length + 3]? = some stop ∧
      (ofSource source 0).diagnostics =
        [⟨.e1002, .error, "expected ')' to end availability condition", stop.span,
          [⟨"to match this opening '('", opener.span⟩]⟩] ∧
      (ofSource source 0).IsCondition .guardStatement ⟨meaning w, true, .incomplete, ()⟩ := by
  intro source items w
  have hcut : w <+: listed items true := ⟨[.fixed .dot, .number 1, .fixed .comma], rfl⟩
  have hdot : w.getLast? ≠ some (.fixed .dot) := by decide
  have hsource : (Token.beforeEnd source).map Token.kind = opening .guardStatement true ++ w ++
      (Condition.bodySpelling .guardStatement).map Spelling.kind := by decide +kernel
  exact ⟨⟨hcut, hdot, hsource⟩, unclosed_listed hcut hdot hsource⟩

/-- **An illegal operator costs one diagnostic and nothing else.**  It stands behind a list of items
that is cut off anywhere but behind a dot; between it and the `)` stands anything enclosed, and
behind that a proper body.  All that the report takes is the operator and what is enclosed. -/
theorem operator_listed {head junk back : List (Token String)} {op close : Token String}
    (hcut : w <+: listed items trailing) (hdot : w.getLast? ≠ some (.fixed .dot))
    (hsource : Token.beforeEnd source = head ++ op :: (junk ++ close :: back))
    (hhead : head.map Token.kind = opening owner negated ++ w)
    (hop : TagSet.illegalInQuery.contains op.kind = true)
    (hjunk : Enclosed (TagSet.headerEnd owner) 0 (junk.map Terminal.ofToken))
    (hclose : close.kind = .fixed .rparen)
    (hback : Derives (Parser.bodyRule owner) (back.map Terminal.ofToken) []) :
    let place : Span := ⟨op.span.start, (junk.getLastD op).span.stop⟩
    ∃ quoted, Text.slice? source place.start place.stop = some quoted ∧
      (ofSource source 0).diagnostics =
        [⟨.e1006, .error, s!"unexpected code '{quoted}' in availability condition", place, []⟩] ∧
      (ofSource source 0).IsCondition owner ⟨meaning w, negated, .done, ()⟩ := by
  intro place
  obtain ⟨items, trailing, rfl⟩ := exists_listed_of_prefix hcut hdot
  obtain ⟨word, keyword, opener, us, rfl, hword, hkeyword, hopen, hus⟩ := exists_opening hhead
  obtain ⟨f, hf, hrparen, hends, hresume⟩ := Parser.fixed_of_illegal owner hop
  let i : Input := ⟨1, (keyword :: opener :: (us ++ op :: (junk ++ close :: back))).map .ofToken⟩
  have hrest : i.next.next.rest = us.map Terminal.ofToken ++ Terminal.ofToken op ::
      (junk.map Terminal.ofToken ++ Terminal.ofToken close :: back.map Terminal.ofToken) := by
    simp [i, Input.next]
  have hquery := Parser.query_operator hends hrparen (i := i) hkeyword hopen
    (List.map_map.trans hus) hf hresume hop hrest hjunk hclose
  rw [List.length_map, List.length_map] at hquery
  have hlined : Lined (back.map Terminal.ofToken) := by
    intro t ht
    refine lined_ofSource source t ?_
    rw [Token.terminals_ofSource, hsource]
    simp only [List.cons_append, List.map_cons, List.tail_cons, List.map_append, List.mem_append,
      List.mem_cons, ht, or_true]
  let taken : Run := ⟨3 + us.length, 3 + us.length + (junk.length + 1)⟩
  obtain ⟨hdiagnostics, hcondition⟩ := isCondition_of_query (r := ⟨.leftover .availability, taken⟩)
    hsource hword hkeyword (hquery.mono fun q rs j ⟨hq, hrs, hj⟩ =>
      ⟨⟨hq, hrs⟩, Parser.finishes_of_derives (hj ▸ hlined) (hj ▸ hback)⟩)
  obtain ⟨hsolid, hplace⟩ : taken.Solid (Token.beforeEnd source).length ∧
      taken.locate source = place := by
    have hsplit := Run.locate_split hsource
    rwa [show (word :: keyword :: opener :: us).length = 3 + us.length from
      Nat.add_comm us.length 3] at hsplit
  obtain ⟨quoted, hquoted⟩ := hsolid.exists_slice
  refine ⟨quoted, hplace ▸ hquoted, ?_, meaning_listed items trailing ▸ hcondition⟩
  rw [hdiagnostics, Report.toDiagnostic_operator hquoted, hplace]

/-- An operator behind a comma, with brackets and a line break behind it. -/
theorem operator_listed_behind_comma :
    let source := "while #available(*, && (a,\nb)) " ++ Text.braced " "
    let w := [.fixed .star, .fixed .comma]
    let head := (Token.beforeEnd source).take 5
    let op : Token String := ⟨.fixed .ampAmp, ⟨20, 22⟩, ⟨true, false, false, false⟩⟩
    let junk := ((Token.beforeEnd source).drop 6).take 5
    let close : Token String := ⟨.fixed .rparen, ⟨29, 30⟩, Layout.none⟩
    let back := (Token.beforeEnd source).drop 12
    let place : Span := ⟨op.span.start, (junk.getLastD op).span.stop⟩
    (w <+: listed [.star] true ∧ w.getLast? ≠ some (.fixed .dot) ∧
      Token.beforeEnd source = head ++ op :: (junk ++ close :: back) ∧
      head.map Token.kind = opening .whileStatement false ++ w ∧
      TagSet.illegalInQuery.contains op.kind = true ∧
      Enclosed (TagSet.headerEnd .whileStatement) 0 (junk.map Terminal.ofToken) ∧
      close.kind = .fixed .rparen ∧
      Derives (Parser.bodyRule .whileStatement) (back.map Terminal.ofToken) []) ∧
    ∃ quoted, Text.slice? source place.start place.stop = some quoted ∧
      (ofSource source 0).diagnostics =
        [⟨.e1006, .error, s!"unexpected code '{quoted}' in availability condition", place, []⟩] ∧
      (ofSource source 0).IsCondition .whileStatement ⟨meaning w, false, .done, ()⟩ := by
  intro source w head op junk close back place
  have hcut : w <+: listed [.star] true := List.prefix_refl w
  have hdot : w.getLast? ≠ some (.fixed .dot) := by decide
  have hsource : Token.beforeEnd source = head ++ op :: (junk ++ close :: back) := by
    decide +kernel
  have hhead : head.map Token.kind = opening .whileStatement false ++ w := by decide +kernel
  have hop : TagSet.illegalInQuery.contains op.kind = true := rfl
  have hjunk : Enclosed (TagSet.headerEnd .whileStatement) 0 (junk.map Terminal.ofToken) := by
    decide +kernel
  have hbraces : back.map Terminal.ofToken =
      [⟨.fixed .lbrace, false, false⟩, ⟨.fixed .rbrace, false, false⟩] := by decide +kernel
  have hback : Derives (Parser.bodyRule .whileStatement) (back.map Terminal.ofToken) [] := by
    rw [hbraces]
    exact derives_block.mpr ⟨rfl, _, .ref .none, rfl, rfl⟩
  exact ⟨⟨hcut, hdot, hsource, hhead, hop, hjunk, rfl, hback⟩,
    operator_listed hcut hdot hsource hhead hop hjunk rfl hback⟩

end Source

end Outcome

end PlatformGate
