/-
# No token is lost and none is claimed twice

The statements of a source and the leftovers between them tile its tokens: each span begins with the
first token that none before it covers and ends with a token, so that every token lies in exactly
one.  The same holds between the braces of every block.  Both are said here of spans and
diagnostics; `Whole.Rows` has said them of runs and reports.
-/
import PlatformGate.Proofs.Arena.Holds
import PlatformGate.Proofs.Query.Contract
import PlatformGate.Proofs.Tiling.Rows
import PlatformGate.Proofs.Token.Bounds
import PlatformGate.Proofs.Token.Flags

namespace PlatformGate

/-! ## 1. Spans that tile tokens -/

namespace Span

variable {ν : Type}

/-- Each span begins with the first token that none before it covers, and ends with a token. -/
def Tile : List (Token ν) → List Span → Prop
  | ts, [] => ts = []
  | ts, s :: ss => ∃ first more rest, ts = first :: (more ++ rest) ∧ s.start = first.span.start ∧
      s.stop = (more.getLastD first).span.stop ∧ Tile rest ss

/-- The spans tile the tokens: they stand behind each other, and every token lies in exactly one. -/
structure Tiles (ts : List (Token ν)) (ss : List Span) : Prop where
  tile : Tile ts ss
  apart : ss.Pairwise fun s t => s.stop ≤ t.start
  once : ∀ t ∈ ts, ss.countP (fun s => s.covers t.span) = 1

/-- Whether a span is a part of the stretch `p` and of none of its statements. -/
def isOwn (p : Span) (stmts : List Span) (s : Span) : Bool :=
  p.covers s && stmts.all fun t => !t.covers s

end Span

namespace Run.Tile

variable {lo hi : Nat} {rs : List Run}

theorem solid (h : Tile lo hi rs) {n : Nat} (hn : hi ≤ n) : ∀ r ∈ rs, r.Solid n := by
  intro r hr
  have hbounds := h.bounds r hr
  exact ⟨hbounds.2.1, Nat.le_trans hbounds.2.2 hn⟩

theorem apart (h : Tile lo hi rs) : rs.Pairwise fun r s => r.past ≤ s.first := by
  induction rs generalizing lo with
  | nil => exact .nil
  | cons r rs ih =>
    obtain ⟨-, -, hrest⟩ := h
    exact List.pairwise_cons.mpr ⟨fun s hs => (hrest.bounds s hs).1, ih hrest⟩

/-- Every index lies in exactly one tile. -/
theorem once (h : Tile lo hi rs) {k : Nat} (hlo : lo ≤ k) (hhi : k < hi) :
    rs.countP (fun r => decide (r.first ≤ k ∧ k + 1 ≤ r.past)) = 1 := by
  induction rs generalizing lo with
  | nil =>
    obtain rfl : lo = hi := h
    omega
  | cons r rs ih =>
    obtain ⟨hfirst, hlt, hrest⟩ := h
    rw [List.countP_cons]
    by_cases hk : k < r.past
    · -- the others begin behind the first
      have hnone : rs.countP (fun r => decide (r.first ≤ k ∧ k + 1 ≤ r.past)) = 0 := by
        rw [List.countP_eq_zero]
        intro s hs hin
        have hbounds := hrest.bounds s hs
        have hin := of_decide_eq_true hin
        omega
      rw [hnone, if_pos (decide_eq_true (by omega))]
    · rw [ih hrest (by omega), if_neg (by simp; omega)]

end Run.Tile

section Located

variable {source : String}

/-- The tokens of a source from one index up to another. -/
def Token.between (source : String) (lo hi : Nat) : List (Token String) :=
  ((Token.beforeEnd source).take hi).drop lo

theorem Token.mem_between {lo hi : Nat} {t : Token String} (h : t ∈ between source lo hi) :
    ∃ k, lo ≤ k ∧ k < hi ∧ (beforeEnd source)[k]? = some t := by
  obtain ⟨k, hk⟩ := List.mem_iff_getElem?.mp h
  unfold between at hk
  rw [List.getElem?_drop, List.getElem?_take] at hk
  split at hk
  · exact ⟨lo + k, Nat.le_add_right _ _, by assumption, hk⟩
  · cases hk

theorem Token.mem_between_of_getElem? {lo hi k : Nat} {t : Token String} (hlo : lo ≤ k)
    (hhi : k < hi) (ht : (beforeEnd source)[k]? = some t) : t ∈ between source lo hi := by
  apply List.mem_of_getElem? (i := k - lo)
  unfold between
  rw [List.getElem?_drop, Nat.add_sub_cancel' hlo, List.getElem?_take_of_lt hhi, ht]

theorem Token.between_append {lo mid hi : Nat} (hlo : lo ≤ mid) (hhi : mid ≤ hi)
    (hlength : mid ≤ (beforeEnd source).length) :
    between source lo hi = between source lo mid ++ between source mid hi := by
  have hsplit := List.take_append_drop mid ((beforeEnd source).take hi)
  rw [List.take_take, Nat.min_eq_left hhi] at hsplit
  have hle : lo ≤ ((beforeEnd source).take mid).length := by
    rw [List.length_take]
    omega
  exact (congrArg (List.drop lo) hsplit).symm.trans (List.drop_append_of_le_length hle)

theorem Token.between_cons {lo hi : Nat} {t : Token String} (hlt : lo < hi)
    (ht : (beforeEnd source)[lo]? = some t) :
    between source lo hi = t :: between source (lo + 1) hi := by
  unfold between
  have hlo : lo < ((beforeEnd source).take hi).length := by
    have := (List.getElem?_eq_some_iff.mp ht).1
    rw [List.length_take]
    omega
  rw [List.drop_eq_getElem_cons hlo, List.getElem_take]
  rw [(List.getElem?_eq_some_iff.mp ht).2]

theorem Token.getLast?_between {lo hi : Nat} {u : Token String} (hlt : lo < hi)
    (hu : (beforeEnd source)[hi - 1]? = some u) : (between source lo hi).getLast? = some u := by
  have hhi := (List.getElem?_eq_some_iff.mp hu).1
  unfold between
  rw [List.getLast?_drop, List.getLast?_take, hu]
  rw [List.length_take, if_neg (by omega), if_neg (by omega), Option.some_or]

/-- The last of some tokens, the first of which is at hand. -/
theorem Token.getLastD_between {lo hi : Nat} {t u : Token String} (hlt : lo < hi)
    (ht : (beforeEnd source)[lo]? = some t) (hu : (beforeEnd source)[hi - 1]? = some u) :
    (between source (lo + 1) hi).getLastD t = u := by
  have hlast := getLast?_between hlt hu
  rw [between_cons hlt ht, List.getLast?_cons] at hlast
  rw [List.getLastD_eq_getLast?]
  exact Option.some.inj hlast

/-- The tokens that a run covers, from the first to the last. -/
theorem Run.Solid.exists_between {r : Run} (h : r.Solid (Token.beforeEnd source).length) :
    ∃ first last, (Token.between source r.first r.past).head? = some first ∧
      (Token.between source r.first r.past).getLast? = some last ∧
      r.locate source = ⟨first.span.start, last.span.stop⟩ := by
  obtain ⟨t, u, ht, hu, heq⟩ := h.exists_tokens
  refine ⟨t, u, ?_, Token.getLast?_between h.1 hu, heq⟩
  rw [Token.between_cons h.1 ht, List.head?_cons]

/-- A run cuts the tokens of its source in three. -/
theorem Run.Solid.split_between {r : Run} (h : r.Solid (Token.beforeEnd source).length) :
    Token.beforeEnd source = (Token.beforeEnd source).take r.first ++
        Token.between source r.first r.past ++ (Token.beforeEnd source).drop r.past ∧
      Token.between source r.first r.past ++ (Token.beforeEnd source).drop r.past =
        (Token.beforeEnd source).drop r.first := by
  obtain ⟨hlt, hle⟩ := h
  have hfrom : Token.between source r.first r.past ++ (Token.beforeEnd source).drop r.past =
      (Token.beforeEnd source).drop r.first := by
    rw [Token.between, ← List.drop_append_of_le_length, List.take_append_drop]
    rw [List.length_take]
    omega
  refine ⟨?_, hfrom⟩
  rw [List.append_assoc, hfrom, List.take_append_drop]

theorem Run.locate_token {k : Nat} {t : Token String} (ht : (Token.beforeEnd source)[k]? = some t) :
    (Run.token k).locate source = t.span :=
  Run.locate_eq (Nat.lt_succ_self k) ht ht

/-- **Runs that tile indexes are spans that tile tokens.** -/
theorem Run.Tile.tiles {lo hi : Nat} {rs : List Run} (h : Run.Tile lo hi rs)
    (hhi : hi ≤ (Token.beforeEnd source).length) :
    Span.Tiles (Token.between source lo hi) (rs.map (Run.locate source)) := by
  constructor
  · induction rs generalizing lo with
    | nil =>
      obtain rfl : lo = hi := h
      unfold Token.between
      exact List.drop_eq_nil_of_le (List.length_take_le _ _)
    | cons r rs ih =>
      have hsolid := h.solid hhi r List.mem_cons_self
      obtain ⟨rfl, hlt, hrest⟩ := h
      obtain ⟨t, u, ht, hu, heq⟩ := hsolid.exists_tokens
      have hle := hrest.le
      refine ⟨t, Token.between source (r.first + 1) r.past, Token.between source r.past hi, ?_, ?_,
        ?_, ih hrest⟩
      · rw [Token.between_append (Nat.le_of_lt hlt) hle hsolid.2, Token.between_cons hlt ht]
        rfl
      · rw [heq]
      · rw [heq, Token.getLastD_between hlt ht hu]
  · have hsolid := h.solid hhi
    refine List.pairwise_map.mpr (h.apart.imp_of_mem ?_)
    intro r s hr hs hle
    exact (hsolid r hr).stop_le_start (hsolid s hs) hle
  · intro t ht
    obtain ⟨k, hlo, hlt, hk⟩ := Token.mem_between ht
    rw [List.countP_map, ← h.once hlo hlt]
    apply List.countP_congr
    intro r hr
    have htoken : (Run.token k).Solid (Token.beforeEnd source).length :=
      ⟨Nat.lt_succ_self k, Nat.le_trans hlt hhi⟩
    have hcovers := Run.covers_locate_iff htoken (h.solid hhi r hr)
    rw [Run.locate_token hk] at hcovers
    simpa [Run.token] using hcovers

end Located

/-! ## 3. Diagnostics about leftovers -/

/-- The diagnostic says that code was left over in a block. -/
def Diagnostic.isOfBlock (text : String) (d : Diagnostic) : Bool :=
  d.code == .e1008 && d.message ==
    Construct.block.leftoverMessage ((Text.slice? text d.span.start d.span.stop).getD "")

/-- Among the constructs that share a code, the message tells which one it is. -/
theorem Construct.eq_block_of_message {text : String} {c : Construct}
    (hcode : c.leftoverCode = .e1008)
    (h : c.leftoverMessage text = Construct.block.leftoverMessage text) : c = .block := by
  cases c with
  | block => rfl
  | availability | topLevel => exact absurd hcode nofun
  | tuple => exact absurd ((String.append_right_inj _).mp h) (by decide)
  | call => exact absurd ((String.append_right_inj _).mp h) (by decide)
  | header owner =>
    have hend : toString "' in " ++ toString owner.phrase = toString "' in code block" :=
      (String.append_right_inj _).mp (String.append_assoc.symm.trans h)
    cases owner <;> exact absurd hend (by decide)

namespace Report

variable (r : Report Run) (f : Run → Span) (text : String)

theorem isOfBlock_toDiagnostic :
    ((r.map f).toDiagnostic text).isOfBlock text = (r.cause == .leftover .block) := by
  obtain ⟨cause, place⟩ := r
  cases cause with
  | leftover c =>
    rw [Bool.eq_iff_iff, beq_iff_eq]
    constructor
    · intro h
      obtain ⟨hcode, hmessage⟩ := Bool.and_eq_true_iff.mp h
      rw [Construct.eq_block_of_message (beq_iff_eq.mp hcode) (beq_iff_eq.mp hmessage)]
    · intro h
      obtain rfl := Cause.leftover.inj h
      exact Bool.and_eq_true_iff.mpr ⟨rfl, beq_self_eq_true _⟩
  | unclosed c opener => cases c <;> rfl
  | _ => rfl

/-- The code of leftovers at the top level is given to nothing else. -/
theorem isOfTopLevel_toDiagnostic :
    (((r.map f).toDiagnostic text).code == .e1009) = (r.cause == .leftover .topLevel) := by
  obtain ⟨cause, place⟩ := r
  cases cause with
  | leftover c => cases c <;> rfl
  | unclosed c opener => cases c <;> rfl
  | _ => rfl

end Report

/-! ## 4. A source as a whole -/

namespace Whole

/-- The terminals of a source and all that is reported about it. -/
def ofSource (source : String) : Whole where
  terminals := Terminal.ofTokens (Token.ofSource source)
  reports := (Parser.topLevel (Input.start (Terminal.ofTokens (Token.ofSource source)))).reports

section Source

variable {source : String}

theorem length_terminals (source : String) :
    (ofSource source).terminals.length = (Token.beforeEnd source).length := by
  unfold ofSource
  rw [Token.terminals_ofSource, List.length_map]

/-- A terminal of the source is a token of it. -/
theorem At.exists_token {n : Nat} {P : Terminal → Prop} (h : (ofSource source).At n P) :
    ∃ t, (Token.beforeEnd source)[n]? = some t ∧ P (Terminal.ofToken t) := by
  obtain ⟨terminal, hget, hP⟩ := h
  unfold ofSource at hget
  rw [Token.terminals_ofSource, List.getElem?_map] at hget
  obtain ⟨t, ht, rfl⟩ := Option.map_eq_some_iff.mp hget
  exact ⟨t, ht, hP⟩

/-- The leftovers of a construct are the spans of the diagnostics about them. -/
theorem map_leftovers {c : Construct} {q : Diagnostic → Bool}
    (hq : ∀ r : Report Run, q ((r.map (Run.locate source)).toDiagnostic source) =
      (r.cause == .leftover c)) :
    ((ofSource source).leftovers c).map (Run.locate source) =
      ((Outcome.ofSource source 0).diagnostics.filter q).map Diagnostic.span := by
  rw [Outcome.diagnostics_ofSource, List.filter_map, List.map_map, leftovers, List.map_map]
  have hfilter : (q ∘ fun r : Report Run => (r.map (Run.locate source)).toDiagnostic source) =
      fun r => r.cause == .leftover c := funext hq
  exact congrArg (fun p => List.map _ (List.filter p _)) hfilter.symm

/-- A source is read to its end. -/
theorem position_next (source : String) :
    (Parser.topLevel (Input.start (ofSource source).terminals)).next.position =
      (Token.beforeEnd source).length := by
  have hread := Parser.topLevel_reads (Input.start (ofSource source).terminals)
  have hstop := hread.1.ahead.stop_eq
  rw [hread.2.1, List.length_nil] at hstop
  exact hstop.trans ((Nat.zero_add _).trans (length_terminals source))

theorem solid_leftovers (c : Construct) :
    ∀ p ∈ (ofSource source).leftovers c, p.Solid (Token.beforeEnd source).length := by
  intro p hp
  obtain ⟨r, hr, hc, rfl⟩ := mem_leftovers.mp hp
  have hread := Parser.topLevel_reads (Input.start (ofSource source).terminals)
  obtain ⟨-, hlt, hpast⟩ := (hread.1.placed r hr).leftover hc
  exact ⟨hlt, position_next source ▸ hpast⟩

/-- Where none of them is a part of a statement, all leftovers are the source's own. -/
theorem own_eq_leftovers {c : Construct} {stmts : List Run}
    (h : ∀ s ∈ stmts, ∀ p ∈ (ofSource source).leftovers c, p.liesIn s = false) :
    (ofSource source).own c ⟨0, (ofSource source).terminals.length⟩ stmts =
      (ofSource source).leftovers c := by
  unfold own
  rw [List.filter_eq_self]
  intro p hp
  have hsolid := solid_leftovers c p hp
  rw [← length_terminals] at hsolid
  refine Bool.and_eq_true_iff.mpr ⟨?_, ?_⟩
  · exact Run.liesIn_iff.mpr ⟨Nat.zero_le _, hsolid.2⟩
  · rw [List.all_eq_true]
    intro s hs
    rw [h s hs p hp]
    rfl

/-- The source begins with a line. -/
theorem endsLine_start (source : String) :
    EndsLine .topLevel (Input.start (ofSource source).terminals) := by
  cases hts : (ofSource source).terminals with
  | nil => exact .inl rfl
  | cons t ts =>
    refine .inr (.inl ?_)
    have hat : (ofSource source).At 0 fun u => u = t := ⟨t, by rw [hts]; rfl, rfl⟩
    obtain ⟨token, htoken, rfl⟩ := hat.exists_token
    obtain ⟨eof, heq, -⟩ := Token.ofSource_eq_append source
    have hstart : Layout.atLineStart.lineStart = true := rfl
    apply Token.lineStart_head_ofLexemes (Lexeme.scan source.toList) 0 hstart
    change token ∈ (Token.ofSource source).head?
    rw [heq, List.head?_eq_getElem?,
      List.getElem?_append_left (List.getElem?_eq_some_iff.mp htoken).1, htoken]
    exact Option.mem_some_self _

/-- **The leftovers that are a stretch's own** are told by their spans. -/
theorem map_own {c : Construct} {p : Run} {stmts : List Run}
    (hp : p.Solid (Token.beforeEnd source).length)
    (hstmts : ∀ s ∈ stmts, s.Solid (Token.beforeEnd source).length) :
    ((ofSource source).own c p stmts).map (Run.locate source) =
      (((ofSource source).leftovers c).map (Run.locate source)).filter
        ((p.locate source).isOwn (stmts.map (Run.locate source))) := by
  unfold own
  rw [List.filter_map]
  congr 1
  apply List.filter_congr
  intro r hr
  have hr := solid_leftovers c r hr
  have hcovers : ∀ s : Run, s.Solid (Token.beforeEnd source).length →
      r.liesIn s = (s.locate source).covers (r.locate source) := by
    intro s hs
    rw [Bool.eq_iff_iff, Run.liesIn_iff, Run.covers_locate_iff hr hs]
  unfold Run.isOwn Function.comp Span.isOwn
  rw [hcovers p hp, List.all_map]
  congr 1
  rw [Bool.eq_iff_iff, List.all_eq_true, List.all_eq_true]
  exact forall₂_congr fun s hs => by rw [hcovers s (hstmts s hs), Function.comp_apply]

end Source

end Whole

/-! ## 5. Blocks and sources are tiled -/

namespace Outcome

/-- How a block at `p` ends that has the tokens `inner` between its braces: with a `}`, or with the
source, and then the opening brace is blamed. -/
def Closes (o : Outcome) (opening : Token String) (inner behind : List (Token String)) (p : Span) :
    Prop :=
  (∃ closing after, behind = closing :: after ∧ closing.kind = .fixed .rbrace ∧
    p.stop = closing.span.stop) ∨
  (behind = [] ∧ p.stop = (inner.getLastD opening).span.stop ∧
    ∃ d ∈ o.diagnostics, d.code = .e1003 ∧ d.notes.map Note.span = [opening.span])

/-- A block at `p` with the given statements.  The tokens between its braces are tiled by its
statements and by the leftovers of blocks that are in none of them; each statement begins a line or
stands first. -/
def BlockTiled (source : String) (o : Outcome) (stmts : List Span) (p : Span) : Prop :=
  ∃ before opening inner behind,
    Token.beforeEnd source = before ++ opening :: (inner ++ behind) ∧
    opening.kind = .fixed .lbrace ∧ p.start = opening.span.start ∧
    o.Closes opening inner behind p ∧
    (∃ tiles, Span.Tiles inner tiles ∧ tiles.Perm (stmts ++
      ((o.diagnostics.filter (Diagnostic.isOfBlock source)).map Diagnostic.span).filter
        (p.isOwn stmts))) ∧
    ∀ s ∈ stmts, ∃ t ∈ inner, s.start = t.span.start ∧
      (t.layout.lineStart = true ∨ inner.head? = some t)

/-- The top level of a source.  Its tokens are tiled by the statements and by the leftovers of the
top level, and each statement begins a line. -/
structure Tiled (source : String) (o : Outcome) (ss : List (Stmt Span)) : Prop where
  tiles : ∃ tiles, Span.Tiles (Token.beforeEnd source) tiles ∧ tiles.Perm (ss.map Stmt.place ++
    (o.diagnostics.filter fun d => d.code == .e1009).map Diagnostic.span)
  lines : ∀ s ∈ ss, ∃ t ∈ Token.beforeEnd source, s.place.start = t.span.start ∧
    t.layout.lineStart = true
  blocks : ∀ s ∈ ss, s.EveryBlock (BlockTiled source o)

section Source

variable {source : String}

/-- A block closes no later than the source ends, and is not empty. -/
theorem closes_bounds {first stop past : Nat} (h : (Whole.ofSource source).Closes first stop past)
    (hle : first + 1 ≤ stop) :
    stop ≤ (Token.beforeEnd source).length ∧
      (⟨first, past⟩ : Run).Solid (Token.beforeEnd source).length := by
  rcases h with ⟨hpast, hat⟩ | ⟨hpast, hend, -⟩
  · obtain ⟨t, ht, -⟩ := hat.exists_token
    have hlt := (List.getElem?_eq_some_iff.mp ht).1
    exact ⟨Nat.le_of_lt hlt, by dsimp only; omega, by dsimp only; omega⟩
  · rw [Whole.length_terminals] at hend
    exact ⟨Nat.le_of_eq hend, by dsimp only; omega, by dsimp only; omega⟩

/-- The tokens of a source, cut in front of a block, behind its opening brace and where it closes. -/
theorem beforeEnd_eq_between {first stop : Nat} {opening : Token String}
    (hopening : (Token.beforeEnd source)[first]? = some opening) (hle : first + 1 ≤ stop)
    (hstop : stop ≤ (Token.beforeEnd source).length) :
    Token.beforeEnd source = Token.between source 0 first ++
      opening :: (Token.between source (first + 1) stop ++
        Token.between source stop (Token.beforeEnd source).length) := by
  have hlt := (List.getElem?_eq_some_iff.mp hopening).1
  rw [← Token.between_append hle hstop hstop, ← Token.between_cons hlt hopening,
    ← Token.between_append (Nat.zero_le _) (Nat.le_of_lt hlt) (Nat.le_of_lt hlt)]
  exact List.take_length.symm

/-- **How a block ends,** said of tokens and diagnostics. -/
theorem closes_of_closes {first stop past : Nat} {opening last : Token String}
    (h : (Whole.ofSource source).Closes first stop past) (hle : first + 1 ≤ stop)
    (hopening : (Token.beforeEnd source)[first]? = some opening)
    (hlast : (Token.beforeEnd source)[past - 1]? = some last) {p : Span}
    (hp : p.stop = last.span.stop) :
    (ofSource source 0).Closes opening (Token.between source (first + 1) stop)
      (Token.between source stop (Token.beforeEnd source).length) p := by
  rcases h with ⟨hpast, hat⟩ | ⟨hpast, hend, r, hr, hcause⟩
  · left
    obtain ⟨closing, hclosing, hkind⟩ := hat.exists_token
    have hlt := (List.getElem?_eq_some_iff.mp hclosing).1
    refine ⟨closing, _, Token.between_cons hlt hclosing, hkind, ?_⟩
    rw [hpast, Nat.add_sub_cancel] at hlast
    rw [hp, Option.some.inj (hlast.symm.trans hclosing)]
  · right
    rw [hpast] at hlast
    refine ⟨?_, ?_, (r.map (Run.locate source)).toDiagnostic source, ?_, ?_, ?_⟩
    · rw [hend, Whole.length_terminals]
      exact List.drop_eq_nil_of_le (List.length_take_le _ _)
    · rw [hp, Token.getLastD_between hle hopening hlast]
    · rw [diagnostics_ofSource]
      exact List.mem_map_of_mem hr
    · rw [Report.code_toDiagnostic, hcause]
      rfl
    · rw [Report.notes_toDiagnostic, hcause]
      exact congrArg (fun span => [span]) (Run.locate_token hopening)

/-- Where a statement of a block begins. -/
theorem line_of_braced {stmts : List Run} {p s : Run} (h : (Whole.ofSource source).Braced stmts p)
    (hs : s ∈ stmts) (hsolid : s.Solid (Token.beforeEnd source).length) {stop : Nat}
    (hlo : p.first + 1 ≤ s.first) (hhi : s.first < stop) :
    ∃ t ∈ Token.between source (p.first + 1) stop, (s.locate source).start = t.span.start ∧
      (t.layout.lineStart = true ∨
        (Token.between source (p.first + 1) stop).head? = some t) := by
  obtain ⟨first, last, hfirst, -, heq⟩ := hsolid.exists_tokens
  refine ⟨first, Token.mem_between_of_getElem? hlo hhi hfirst, by rw [heq], ?_⟩
  rcases h.lines s hs with hat | hfollows
  · left
    obtain ⟨t, ht, hline⟩ := hat.exists_token
    rwa [← Option.some.inj (hfirst.symm.trans ht)] at hline
  · right
    rw [hfollows] at hfirst
    rw [Token.between_cons (by omega) hfirst, List.head?_cons]

/-- **A block as it should be is tiled.** -/
theorem blockTiled_of_braced {stmts : List Run} {p : Run}
    (h : (Whole.ofSource source).Braced stmts p) :
    BlockTiled source (ofSource source 0) (stmts.map (Run.locate source)) (p.locate source) := by
  obtain ⟨opening, hopening, hbrace⟩ := h.opens.exists_token
  obtain ⟨stop, hcloses, tiles, hperm, htile⟩ := h.inner
  have hle := htile.le
  obtain ⟨hstop, hp⟩ := closes_bounds hcloses hle
  change p.Solid _ at hp
  obtain ⟨t, last, ht, hlast, hlocate⟩ := hp.exists_tokens
  obtain rfl : opening = t := Option.some.inj (hopening.symm.trans ht)
  have hmem : ∀ s ∈ stmts, s ∈ tiles := fun s hs =>
    hperm.mem_iff.mpr (List.mem_append_left _ hs)
  have hstmts : ∀ s ∈ stmts, s.Solid (Token.beforeEnd source).length := fun s hs =>
    htile.solid hstop s (hmem s hs)
  refine ⟨Token.between source 0 p.first, opening, Token.between source (p.first + 1) stop,
    Token.between source stop (Token.beforeEnd source).length,
    beforeEnd_eq_between hopening hle hstop, hbrace, by rw [hlocate],
    closes_of_closes hcloses hle hopening hlast (by rw [hlocate]), ?_, ?_⟩
  · refine ⟨tiles.map (Run.locate source), htile.tiles hstop, ?_⟩
    have hmap := hperm.map (Run.locate source)
    rw [List.map_append, Whole.map_own hp hstmts,
      Whole.map_leftovers fun r => r.isOfBlock_toDiagnostic _ _] at hmap
    exact hmap
  · intro s hs
    obtain ⟨r, hr, rfl⟩ := List.mem_map.mp hs
    have hbounds := htile.bounds r (hmem r hr)
    exact line_of_braced h hr (hstmts r hr) hbounds.1 (by omega)

/-- Rows from the first terminal to the end of a source. -/
theorem tiled_of_rows {ss : List (Stmt Run)}
    (hrows : (Whole.ofSource source).Rows .topLevel (Input.start (Whole.ofSource source).terminals) ss
      (Whole.ofSource source).terminals.length) :
    Tiled source (ofSource source 0) (Stmt.mapAll (Run.locate source) ss) := by
  obtain ⟨tiles, hperm, htile⟩ := hrows.tiled
  rw [Stmt.mapAll_eq_map]
  constructor
  · refine ⟨tiles.map (Run.locate source), ?_, ?_⟩
    · have htiles := htile.tiles (Nat.le_of_eq (Whole.length_terminals source))
      have hall : Token.between source 0 (Whole.ofSource source).terminals.length =
          Token.beforeEnd source := by
        rw [Whole.length_terminals]
        exact List.take_length
      exact hall ▸ htiles
    · have hown : (Whole.ofSource source).own .topLevel ⟨0, _⟩ (ss.map Stmt.place) = _ :=
        Whole.own_eq_leftovers (List.forall_mem_map.mpr hrows.apart)
      have hmap := (hperm.trans (.of_eq (congrArg _ hown))).map (Run.locate source)
      rw [List.map_append, Whole.map_leftovers (q := fun d => d.code == .e1009)
        fun r => r.isOfTopLevel_toDiagnostic _ _] at hmap
      have hplaces : (ss.map (Stmt.map (Run.locate source))).map Stmt.place =
          (ss.map Stmt.place).map (Run.locate source) := by
        rw [List.map_map, List.map_map]
        exact List.map_congr_left fun s _ => Stmt.place_map _ s
      rw [hplaces]
      exact hmap
  · intro s hs
    obtain ⟨r, hr, rfl⟩ := List.mem_map.mp hs
    have hmem := hperm.mem_iff.mpr (List.mem_append_left _ (List.mem_map_of_mem hr))
    have hsolid := htile.solid (Nat.le_of_eq (Whole.length_terminals source)) _ hmem
    obtain ⟨first, last, hfirst, -, heq⟩ := hsolid.exists_tokens
    obtain ⟨t, ht, hline⟩ := (hrows.fresh (Whole.endsLine_start source) r hr).exists_token
    obtain rfl : first = t := Option.some.inj (hfirst.symm.trans ht)
    refine ⟨first, List.mem_of_getElem? ht, ?_, hline⟩
    rw [Stmt.place_map, heq]
  · intro s hs
    obtain ⟨r, hr, rfl⟩ := List.mem_map.mp hs
    exact Stmt.EveryBlock.map (fun _ _ => blockTiled_of_braced) r (hrows.blocks r hr)

/-- **No token is lost and none is claimed twice,** neither at the top level of a source nor in any
of its blocks. -/
theorem ofSource_tiled (source : String) :
    ∃ ss, (∀ ss', (ofSource source 0).Holds ss' ↔ ss' = ss) ∧
      Tiled source (ofSource source 0) ss :=
  ⟨_, holds_ofSource_iff source 0,
    tiled_of_rows (Parser.topLevel_tiled (Whole.ofSource source).terminals)⟩

end Source

end Outcome

end PlatformGate
