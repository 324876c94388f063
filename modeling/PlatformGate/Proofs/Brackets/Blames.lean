/-
# What diagnostics blame

A diagnostic has a note exactly if it is about a construct that is never closed.  The note is at the
token that opened the construct: that of a query stands directly behind its keyword, that of a call
behind the callee, and a tuple and a block begin with theirs.  The construct is one of those that
the source holds, so a bracket that was skipped is never blamed.

Constructs inside each other may all be reported at one token.  Each has a bracket of its own, and
no bracket is blamed by two diagnostics (`Outcome.openers_blamed`).
-/
import PlatformGate.Proofs.Account.Quotes
import PlatformGate.Proofs.Brackets.Lines

namespace PlatformGate

/-! ## 1. Blame -/

/-- The token opens the construct, where `front` is what stands in front of the token.  The span is
that of the construct, except for a call, where it is that of the callee. -/
def Construct.OpenedBy (front : List (Token String)) (t : Token String) (p : Span) :
    Construct → Prop
  | availability => ∃ u, front.getLast? = some u ∧ u.kind.isAvailability = true ∧
      p.start = u.span.start
  | call => ∃ u, front.getLast? = some u ∧ p.stop = u.span.stop
  | tuple | block => p.start = t.span.start
  | header _ | topLevel => False

/-- The diagnostic says that a construct is not closed, and blames the token that opened it. -/
structure Diagnostic.Blames (source : String) (ss : List (Stmt Span)) (d : Diagnostic)
    (c : Construct) (t : Token String) : Prop where
  opens : ∃ front back p, Token.ofSource source = front ++ t :: back ∧
    (c, p) ∈ Stmt.bracketsAll ss ∧ c.OpenedBy front t p
  kind_eq : t.kind = .fixed c.bracket
  code_eq : d.code = if c = .availability then .e1002 else .e1003
  notes_eq : d.notes = [⟨"to match this opening '" ++ c.bracket.spelling ++ "'", t.span⟩]
  /-- What is missing closes the bracket. -/
  message_eq : ∃ g, c.bracket.closer? = some g ∧
    d.message = "expected '" ++ g.spelling ++ "' to end " ++ c.closingName
  behind : t.span.stop ≤ d.span.start
  atEnd : t.kind = .fixed .lbrace → d.span = Span.point (Text.byteLength source.toList)

namespace Cause

variable {ρ : Type} (cause : Cause ρ)

/-- Reports with a note have codes of their own. -/
theorem isSome_note? : cause.note?.isSome = (cause.code == .e1002 || cause.code == .e1003) := by
  cases cause with
  | unclosed c | leftover c => cases c <;> rfl
  | _ => rfl

variable {cause}

/-- The only notes are those about a construct that is not closed. -/
theorem unclosed_of_isSome_note? (h : cause.note?.isSome = true) :
    ∃ c o, cause = .unclosed c o := by
  cases cause with
  | unclosed c o => exact ⟨c, o, rfl⟩
  | _ => exact absurd h nofun

end Cause

/-! ## 2. From terminals to tokens -/

section Source

variable {source : String} {c : Construct} {i s b k : Input} {p : Run} {t : Token String}

/-- An input on a source is at a token, unless it is at the end. -/
theorem Input.In.exists_token (hi : i.In (Whole.ofSource source).terminals) (hrest : i.rest ≠ []) :
    ∃ t, (Token.beforeEnd source)[i.position]? = some t ∧ t.kind = i.kind := by
  obtain ⟨terminal, ts, hcons⟩ := List.exists_cons_of_ne_nil hrest
  have hget : (Whole.ofSource source).terminals[i.position]? = some terminal := by
    rw [hi.head?, hcons]
    rfl
  have hat : (Whole.ofSource source).At i.position (· = terminal) := ⟨terminal, hget, rfl⟩
  obtain ⟨t, ht, hterminal⟩ := hat.exists_token
  refine ⟨t, ht, ?_⟩
  rw [Input.kind_eq_head hcons, ← hterminal]
  rfl

/-- **The bracket of a construct is the token that opens it.** -/
theorem Construct.Opens.openedBy (h : c.Opens s b) (hs : s.In (Whole.ofSource source).terminals)
    (hplace : c.StandsAt b.position p) (ht : (Token.beforeEnd source)[b.position]? = some t) :
    c.OpenedBy ((Token.ofSource source).take b.position) t (p.locate source) := by
  have hlength := (List.getElem?_eq_some_iff.mp ht).1
  have ht' := Token.getElem?_ofSource ht
  cases h with
  | query hkeyword hopen =>
    have hrest := Input.rest_ne_nil_of_isAvailability hkeyword
    obtain ⟨u, hu, hkind⟩ := hs.exists_token hrest
    have hnext : s.next.position = s.position + 1 := Input.position_next hrest
    have hfirst : s.position = p.first := Nat.succ.inj (hnext.symm.trans hplace)
    have hu' := Token.getElem?_ofSource hu
    refine ⟨u, ?_, ?_, Run.start_locate (hfirst ▸ hu')⟩
    · rw [hnext, List.getLast?_take, if_neg (Nat.succ_ne_zero _), Nat.add_sub_cancel, hu']
      rfl
    · rw [hkind, hkeyword]
  | bracket hc hopen =>
    cases c with
    | availability => exact absurd rfl hc
    | call =>
      obtain ⟨hlt, hpast⟩ := hplace
      rw [hpast] at hlength
      have hu := List.getElem?_eq_getElem (l := Token.beforeEnd source) (i := p.past - 1) (by omega)
      have hu' := Token.getElem?_ofSource hu
      refine ⟨_, ?_, Run.stop_locate hlt hu'⟩
      rw [hpast, List.getLast?_take, if_neg (by omega), hu']
      rfl
    | tuple | block => exact Run.start_locate (hplace ▸ ht')
    | header | topLevel => exact hplace.elim

/-- What is reported at the end stands at the end of the source. -/
theorem Run.locate_token_end :
    (Run.token (Token.beforeEnd source).length).locate source =
      Span.point (Text.byteLength source.toList) := by
  obtain ⟨layout, heq⟩ := Token.ofSource_eq_append_point source
  have hget : (Token.ofSource source)[(Token.beforeEnd source).length]? =
      some ⟨.endOfFile, Span.point (Text.byteLength source.toList), layout⟩ := by
    rw [heq, List.getElem?_append_right (Nat.le_refl _), Nat.sub_self]
    rfl
  let r := Run.token (Token.beforeEnd source).length
  have hstart := Run.start_locate (r := r) hget
  have hstop := Run.stop_locate (r := r) (Nat.lt_succ_self _) hget
  calc r.locate source = ⟨(r.locate source).start, (r.locate source).stop⟩ := rfl
    _ = Span.point (Text.byteLength source.toList) := by rw [hstart, hstop, Span.point]

/-- Tokens at different places have different spans. -/
theorem Token.span_ne {m n : Nat} {t u : Token String}
    (ht : (beforeEnd source)[m]? = some t) (hu : (beforeEnd source)[n]? = some u) (hmn : m ≠ n) :
    t.span ≠ u.span := by
  intro heq
  have hsolid := (inOrder_beforeEnd source).solid
  have hsolidt := hsolid t (List.mem_of_getElem? ht)
  have hsolidu := hsolid u (List.mem_of_getElem? hu)
  rcases Nat.lt_or_gt_of_ne hmn with hlt | hlt
  · have hle := stop_le_start (getElem?_ofSource ht) (getElem?_ofSource hu) hlt
    rw [heq] at hle
    omega
  · have hle := stop_le_start (getElem?_ofSource hu) (getElem?_ofSource ht) hlt
    rw [heq] at hle
    omega

theorem Session.notes_word (r : Report Run) :
    (word source source r).notes ≠ [] ↔ r.cause.note?.isSome = true := by
  unfold word Report.toDiagnostic
  simp only [Report.map, Cause.note?_map]
  cases r.cause.note? <;> simp

end Source

/-! ## 3. Diagnostics -/

section Whole

variable {source : String} {c : Construct} {s b k : Input} {p : Run}

/-- **A report that a construct is left open blames the token that opened it.** -/
theorem Construct.Opens.blames {ss : List (Stmt Span)}
    (h : c.Opens s b) (hs : s.In (Whole.ofSource source).terminals) (hahead : b.next.Ahead k)
    (hk : k.position ≤ (Token.beforeEnd source).length) (hend : c = .block → k.rest = [])
    (hplace : c.StandsAt b.position p)
    (hmem : (c, p.locate source) ∈ Stmt.bracketsAll ss) :
    ∃ t, (Token.beforeEnd source)[b.position]? = some t ∧
      (Session.word source source (c.leftOpen b.position k)).Blames source ss c t := by
  have hb := hs.ahead h.ahead
  obtain ⟨t, ht, hkind⟩ := hb.exists_token (Input.rest_ne_nil h.kind)
  rw [h.kind] at hkind
  have hlocate := Run.locate_token ht
  have hlength := Token.length_ofSource source
  have hlt := Nat.lt_of_lt_of_le h.position_lt hahead.position_le
  refine ⟨t, ht, ?_⟩
  constructor
  case opens =>
    have ht' := Token.getElem?_ofSource ht
    obtain ⟨hn, rfl⟩ := List.getElem?_eq_some_iff.mp ht'
    refine ⟨(Token.ofSource source).take b.position, (Token.ofSource source).drop (b.position + 1),
      p.locate source, ?_, hmem, h.openedBy hs hplace ht⟩
    rw [← List.drop_eq_getElem_cons hn, List.take_append_drop]
  case kind_eq => exact hkind
  case code_eq => cases c <;> rfl
  case notes_eq =>
    rw [← hlocate, ← c.opening_eq]
    rfl
  case message_eq =>
    obtain ⟨g, hg, hclosing⟩ := c.exists_closer
    refine ⟨g, hg, ?_⟩
    rw [← hclosing]
    rfl
  case behind =>
    rw [← hlocate]
    exact Run.stop_locate_le (Nat.le_succ _) hlt (Nat.lt_of_le_of_lt hk (by omega))
  case atEnd =>
    intro hbrace
    have hnil := hend (c.eq_block_of_bracket (Kind.fixed.inj (hkind.symm.trans hbrace)))
    rw [hb.next.ahead hahead, List.drop_eq_nil_iff, Whole.length_terminals] at hnil
    have hposition := Nat.le_antisymm hk hnil
    change (Run.token k.position).locate source = _
    rw [hposition, Run.locate_token_end]

/-- How the brackets of a source nest. -/
theorem Whole.nest (source : String) :
    let step := Parser.topLevel (Input.start (Whole.ofSource source).terminals)
    Nest (Input.start (Whole.ofSource source).terminals) (Stmt.bracketsAll step.value)
      (Whole.ofSource source).reports step.next := by
  obtain ⟨bs, hnest, rfl⟩ := Parser.nests_topLevel (P := Input.Any)
    (Input.start (Whole.ofSource source).terminals) trivial
  exact hnest

/-- A report with a note is about a construct that the source holds. -/
theorem Whole.exists_blames {r : Report Run} (hr : r ∈ (Whole.ofSource source).reports)
    (hnotes : (Session.word source source r).notes ≠ []) :
    ∃ c n t, r.cause = .unclosed c (Run.token n) ∧ (Token.beforeEnd source)[n]? = some t ∧
      (Session.word source source r).Blames source (Stmt.mapAll (Run.locate source)
        (Parser.topLevel (Input.start (Whole.ofSource source).terminals)).value) c t := by
  obtain ⟨c, o, hcause⟩ := Cause.unclosed_of_isSome_note? ((Session.notes_word r).mp hnotes)
  have hstart : (Input.start (Whole.ofSource source).terminals).In
    (Whole.ofSource source).terminals := rfl
  obtain ⟨s, b, k, p, hmem, hplace, hopen, rfl, hahead, hbehind, hrest, hend⟩ :=
    (Whole.nest source).exists_bracket hr hcause
  have hk : k.position ≤ (Token.beforeEnd source).length :=
    Whole.position_next source ▸ hrest.position_le
  have hlocated := List.mem_map_of_mem (f := Prod.map id (Run.locate source)) hmem
  rw [← Stmt.bracketsAll_mapAll] at hlocated
  obtain ⟨t, ht, hblame⟩ := hopen.blames (hstart.ahead hahead) hbehind hk hend hplace hlocated
  exact ⟨c, b.position, t, rfl, ht, hblame⟩

end Whole

namespace Outcome

/-- **A bracket that is blamed is one that opened a construct.**  A diagnostic has a note exactly if
its code is one of the two for constructs that are not closed.  It then has one note, at the bracket
of the construct, and no other diagnostic has a note there. -/
theorem openers_blamed (source : String) :
    (∃ ss, (∀ ss', (ofSource source 0).Holds ss' ↔ ss' = ss) ∧
      ∀ d ∈ (ofSource source 0).diagnostics,
        (d.notes ≠ [] ↔ d.code = .e1002 ∨ d.code = .e1003) ∧
          (d.notes ≠ [] → ∃ c t, d.Blames source ss c t)) ∧
      (ofSource source 0).diagnostics.Pairwise fun d e =>
        ∀ n ∈ d.notes, ∀ m ∈ e.notes, n.span ≠ m.span := by
  rw [diagnostics_eq_word]
  refine ⟨⟨_, holds_ofSource_iff source 0, ?_⟩, ?_⟩
  · refine List.forall_mem_map.mpr fun r hr => ?_
    have hcode := Session.code_word source source r
    constructor
    · rw [Session.notes_word, hcode, Cause.isSome_note?, Bool.or_eq_true, beq_iff_eq, beq_iff_eq]
    · intro hnotes
      obtain ⟨c, -, t, -, -, hblame⟩ := Whole.exists_blames hr hnotes
      exact ⟨c, t, hblame⟩
  · refine List.pairwise_map.mpr ((Whole.nest source).once.imp_of_mem ?_)
    intro r r' hr hr' hapart n hn m hm
    obtain ⟨c, i, t, hcause, ht, hblame⟩ := Whole.exists_blames hr (List.ne_nil_of_mem hn)
    obtain ⟨c', j, u, hcause', hu, hblame'⟩ := Whole.exists_blames hr' (List.ne_nil_of_mem hm)
    rw [hblame.notes_eq] at hn
    rw [hblame'.notes_eq] at hm
    obtain rfl := List.mem_singleton.mp hn
    obtain rfl := List.mem_singleton.mp hm
    refine Token.span_ne ht hu ?_
    rintro rfl
    exact hapart _ _ _ _ hcause hcause' rfl

/-- Three constructs are open where the source ends; the tuple blames the second parenthesis. -/
theorem openers_blamed_nested :
    let source := "if #available(iOS " ++ Fixed.lbrace.spelling ++ " f((é"
    let d : Diagnostic :=
      { code := .e1003
        message := "expected ')' to end tuple"
        span := ⟨25, 25⟩
        notes := [⟨"to match this opening '('", ⟨22, 23⟩⟩] }
    d ∈ (ofSource source 0).diagnostics ∧ ∃ ss c t, d.Blames source ss c t := by
  intro source d
  have hd : d ∈ (ofSource source 0).diagnostics := by decide +kernel
  obtain ⟨⟨ss, -, hall⟩, -⟩ := openers_blamed source
  obtain ⟨c, t, hblame⟩ := (hall d hd).2 nofun
  exact ⟨hd, ss, c, t, hblame⟩

end Outcome

end PlatformGate
