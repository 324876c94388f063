/-
# The scans on the tokens of a source

`Parser.capture` takes leftovers and gives their run, and `Parser.probe` searches for a token to
resume at and says whether there is one.  Reading knows no other scans: with the one leftovers are
reported, and with the other reading goes on where a bracket is not closed (`Parser.leftovers_eq`,
`Parser.unclosed_eq`).

`scans_stop_first` says where they stop in every source, from every token on, for every set and
whether lines matter or not.  It speaks of the tokens alone: `Token.EndsLeftovers` and
`Token.Resumes` look at single tokens and count the brackets between them, and the scans stop at the
least index for which these hold.
-/
import PlatformGate.Proofs.Recovery.Stops
import PlatformGate.Proofs.Tiling.Tiles

namespace PlatformGate

open Terminal

/-! ## 1. The scans as steps of reading -/

namespace Parser

/-- Moves behind leftovers and gives their run, if there are any. -/
def capture (stop : TagSet) (lineSensitive : Bool) : Parser (Option Run) := do
  let start ← position
  let n := captureLength stop lineSensitive 0 false (← rest)
  if n = 0 then return none
  skip n
  return some (← runFrom start)

/-- Moves on to a token of `resume` if the search for one succeeds, and says whether it does. -/
def probe (resume : TagSet) : Parser Bool := do
  match probeLength? resume 0 (← rest) with
  | some n =>
    skip n
    return true
  | none => return false

variable {stop resume : TagSet} {lineSensitive : Bool} {i : Input} {n : Nat}

theorem capture_apply (h : captureLength stop lineSensitive 0 false i.rest = n) :
    capture stop lineSensitive i =
      ⟨if n = 0 then none else some ⟨i.position, i.position + n⟩, [], i.skip n⟩ := by
  subst h
  by_cases hzero : captureLength stop lineSensitive 0 false i.rest = 0
  · simp only [capture, bind_apply, position, rest, hzero, ↓reduceIte, pure_apply]
    rfl
  · simp only [capture, bind_apply, position, rest, hzero, ↓reduceIte, skip, runFrom, pure_apply]
    rfl

theorem probe_of_some (h : probeLength? resume 0 i.rest = some n) :
    probe resume i = ⟨true, [], i.skip n⟩ := by
  simp only [probe, bind_apply, rest, h]
  rfl

theorem probe_of_none (h : probeLength? resume 0 i.rest = none) :
    probe resume i = ⟨false, [], i⟩ := by
  simp only [probe, bind_apply, rest, h]
  rfl

/-- Leftovers are captured and then reported. -/
theorem leftovers_eq (c : Construct) (stop : TagSet) (lineSensitive : Bool) :
    leftovers c stop lineSensitive = (do
      let r? ← capture stop lineSensitive
      r?.elim (pure ()) (report (.leftover c))) := by
  refine ext fun i => ?_
  rw [bind_apply, capture_apply rfl]
  by_cases hzero : captureLength stop lineSensitive 0 false i.rest = 0
  · simp [leftovers, bind_apply, position, rest, pure_apply, hzero, Input.skip]
  · simp [leftovers, bind_apply, position, rest, hzero, skip, runFrom, report, Input.skip]

/-- Behind the report of an unclosed bracket comes a search. -/
theorem unclosed_eq (c : Construct) (opener : Nat) (resume : TagSet) :
    unclosed c opener resume = (do
      reportHere (.unclosed c (Run.token opener))
      let _ ← probe resume
      return ()) := by
  refine ext fun i => ?_
  rw [bind_apply, bind_apply]
  cases h : probeLength? resume 0 i.rest with
  | none => simp [unclosed, bind_apply, reportHere, rest, h, pure_apply, probe_of_none h]
  | some n => simp [unclosed, bind_apply, reportHere, rest, h, skip, pure_apply, probe_of_some h]

end Parser

/-! ## 2. The span of what is taken -/

namespace Span

/-- What is covered, and one span more. -/
def cover (covered : Option Span) (p : Span) : Option Span :=
  some (covered.elim p fun c => c.merge p)

/-- The span that covers all the given ones, taken together from left to right. -/
def coverAll (ps : List Span) : Option Span := ps.foldl cover none

end Span

namespace Token

variable {ν : Type} {t u : Token ν} {ts us : List (Token ν)}

theorem InOrder.sublist (h : InOrder ts) (hsub : us.Sublist ts) : InOrder us where
  apart := h.apart.sublist hsub
  solid := fun t ht => h.solid t (hsub.subset ht)

/-- What ends with a token grows to the last of those behind it.  The induction is on these; where
the covered span begins is left open. -/
theorem InOrder.foldl_cover (h : InOrder (t :: ts)) {start : Nat}
    (hstart : start ≤ t.span.start) :
    (ts.map span).foldl Span.cover (some ⟨start, t.span.stop⟩) =
      some ⟨start, (ts.getLastD t).span.stop⟩ := by
  induction ts generalizing t with
  | nil => rfl
  | cons u ts ih =>
    have hbehind : InOrder (u :: ts) := h.sublist (List.sublist_cons_self t _)
    have hsolid := h.solid t List.mem_cons_self
    have hsolid' := hbehind.solid u List.mem_cons_self
    have hapart := List.rel_of_pairwise_cons h.apart List.mem_cons_self
    have hcover : Span.cover (some ⟨start, t.span.stop⟩) u.span = some ⟨start, u.span.stop⟩ := by
      rw [Span.cover, Option.elim_some, Span.merge, Nat.min_eq_left (by dsimp only; omega),
        Nat.max_eq_right (by dsimp only; omega)]
    rw [List.map_cons, List.foldl_cons, hcover, ih hbehind (by omega), List.getLastD_cons]

/-- **The spans of tokens taken together** run from the first token to the last. -/
theorem InOrder.coverAll_eq (h : InOrder ts) (hfirst : ts.head? = some t)
    (hlast : ts.getLast? = some u) :
    Span.coverAll (ts.map span) = some ⟨t.span.start, u.span.stop⟩ := by
  obtain ⟨ts, rfl⟩ := List.head?_eq_some_iff.mp hfirst
  rw [List.getLast?_cons, Option.some_inj] at hlast
  have hfold := h.foldl_cover (Nat.le_refl t.span.start)
  rw [List.getLastD_eq_getLast?, hlast] at hfold
  exact hfold

theorem between_self (source : String) (s : Nat) : between source s s = [] :=
  List.drop_eq_nil_of_le (List.length_take_le _ _)

end Token

/-- A run covers the spans of its tokens, taken together. -/
theorem Run.Solid.coverAll_between {source : String} {r : Run}
    (h : r.Solid (Token.beforeEnd source).length) :
    Span.coverAll ((Token.between source r.first r.past).map Token.span) =
      some (r.locate source) := by
  obtain ⟨first, last, hfirst, hlast, hlocate⟩ := h.exists_between
  have hsub : (Token.between source r.first r.past).Sublist (Token.beforeEnd source) :=
    (List.drop_sublist _ _).trans (List.take_sublist _ _)
  rw [((Token.inOrder_beforeEnd source).sublist hsub).coverAll_eq hfirst hlast, hlocate]

/-! ## 3. Where the scans can stop, by the tokens of a source -/

section Places

variable (source : String)

/-- The input in front of the token with the given index. -/
def Input.atToken (p : Nat) : Input := ⟨p, (Terminal.ofTokens (Token.ofSource source)).drop p⟩

namespace Token

/-- What is seen of the tokens from one index up to another. -/
def seenBetween (lo hi : Nat) : List Terminal := (between source lo hi).map Terminal.ofToken

/-- Opening brackets less closing ones. -/
def nesting (lo hi : Nat) : Int :=
  opened (seenBetween source lo hi) - closed (seenBetween source lo hi)

/-- The depth behind some tokens, where a closing bracket that closes nothing is not counted. -/
def depthFrom (lo hi : Nat) : Nat := depthBehind 0 (seenBetween source lo hi)

/-- Leftovers that begin with token `s` can end in front of token `p`. -/
structure EndsLeftovers (stop : TagSet) (lineSensitive : Bool) (s p : Nat) : Prop where
  behind : s ≤ p
  ends : ∃ t, (ofSource source)[p]? = some t ∧ (t.kind = .endOfFile ∨ nesting source s p = 0 ∧
    (stop.contains t.kind = true ∨ t.kind.isCloser = true ∨
      s < p ∧ t.layout.lineStart = true ∧
        (lineSensitive = true ∨ t.kind.isStatementKeyword = true)))

/-- A search that begins with token `s` can resume at token `p`. -/
structure Resumes (resume : TagSet) (s p : Nat) : Prop where
  behind : s ≤ p
  found : ∃ t, (ofSource source)[p]? = some t ∧ t.kind ≠ .endOfFile ∧
    resume.contains t.kind = true
  outside : depthFrom source s p = 0
  passes : ∀ q t, s ≤ q → q < p → (ofSource source)[q]? = some t → depthFrom source s q = 0 →
    t.kind ≠ .fixed .rbrace ∧ ¬ (t.layout.lineStart = true ∧ t.kind.isStatementKeyword = true)

end Token

namespace Parser

/-- What comes of leftovers that begin with token `s` and end in front of token `p`. -/
structure Captured (s p : Nat) (step : Step (Option Run)) : Prop where
  stops : step.next = Input.atToken source p
  silent : step.reports = []
  none_iff : step.value = none ↔ p = s
  /-- Leftovers run from their first token to their last. -/
  located : ∀ r, step.value = some r → ∃ first last, (Token.ofSource source)[s]? = some first ∧
    (Token.ofSource source)[p - 1]? = some last ∧
    r.locate source = ⟨first.span.start, last.span.stop⟩
  /-- They cover the spans of their tokens, taken together one by one. -/
  covers : step.value.map (Run.locate source) =
    Span.coverAll ((Token.between source s p).map Token.span)
  /-- On the way no more brackets have closed than opened. -/
  never_below : ∀ q, s ≤ q → q ≤ p → 0 ≤ Token.nesting source s q

/-- What comes of a search that begins with token `s`. -/
structure Probed (resume : TagSet) (s : Nat) (step : Step Bool) : Prop where
  silent : step.reports = []
  succeeds_iff : step.value = true ↔ ∃ p, Token.Resumes source resume s p
  /-- A search that succeeds stops at the first token where it can resume. -/
  found : step.value = true →
    ∃ p, IsLeast {q | Token.Resumes source resume s q} p ∧ step.next = Input.atToken source p
  /-- A search that fails goes back to where it began. -/
  back : step.value = false → step.next = Input.atToken source s
  /-- Without a token to look for there is nothing to find. -/
  empty : resume.isEmpty = true → step.value = false

end Parser

end Places

section Located

variable {source : String} {stop resume : TagSet} {lineSensitive : Bool} {s p n : Nat}
  {t : Token String}

namespace Token

/-- A token is one of those in front of the end of file, or it is the end of file. -/
theorem getElem?_ofSource_cases (ht : (ofSource source)[p]? = some t) :
    (beforeEnd source)[p]? = some t ∧ t.kind ≠ .endOfFile ∨
      p = (beforeEnd source).length ∧ t.kind = .endOfFile := by
  obtain ⟨eof, heq, hkind⟩ := ofSource_eq_append source
  rw [heq] at ht
  rcases Nat.lt_or_ge p (beforeEnd source).length with hlt | hge
  · rw [List.getElem?_append_left hlt] at ht
    have hin := (List.mem_filter.mp (List.mem_of_getElem? ht)).2
    exact .inl ⟨ht, bne_iff_ne.mp hin⟩
  · have hlast := (List.getElem?_eq_some_iff.mp ht).1
    rw [List.length_append, List.length_singleton] at hlast
    obtain rfl := Nat.le_antisymm (Nat.le_of_lt_succ hlast) hge
    obtain rfl : eof = t := by simpa using ht
    exact .inr ⟨rfl, hkind⟩

theorem getElem?_length_beforeEnd (source : String) :
    ∃ t, (ofSource source)[(beforeEnd source).length]? = some t ∧ t.kind = .endOfFile := by
  obtain ⟨eof, heq, hkind⟩ := ofSource_eq_append source
  exact ⟨eof, by simp [heq], hkind⟩

end Token

namespace Input

theorem rest_atToken :
    (atToken source s).rest = ((Token.beforeEnd source).map Terminal.ofToken).drop s := by
  rw [atToken, Token.terminals_ofSource]

theorem skip_atToken : (atToken source s).skip n = atToken source (n + s) := by
  rw [skip, atToken, atToken, List.drop_drop, Nat.add_comm]

theorem getElem?_rest_atToken :
    (atToken source s).rest[n]? = (Token.beforeEnd source)[n + s]?.map Terminal.ofToken := by
  rw [rest_atToken, List.getElem?_drop, List.getElem?_map, Nat.add_comm]

theorem length_rest_atToken :
    (atToken source s).rest.length = (Token.beforeEnd source).length - s := by
  rw [rest_atToken, List.length_drop, List.length_map]

end Input

namespace Token

theorem seenBetween_add : seenBetween source s (n + s) = (Input.atToken source s).rest.take n := by
  rw [seenBetween, between, Input.rest_atToken, List.drop_take, Nat.add_sub_cancel, List.map_take,
    List.map_drop]

theorem nesting_eq_zero_iff : nesting source s (n + s) = 0 ↔
    closed ((Input.atToken source s).rest.take n) =
      0 + opened ((Input.atToken source s).rest.take n) := by
  rw [nesting, seenBetween_add]
  omega

/-- **Leftovers end in front of a token as they do among what is left.** -/
theorem endsLeftovers_iff (hs : s ≤ (beforeEnd source).length) :
    EndsLeftovers source stop lineSensitive s (n + s) ↔
      EndsCaptureAt stop lineSensitive 0 false (Input.atToken source s).rest n := by
  have hends : ∀ t : Token String,
      endsCapture stop lineSensitive 0 (false || decide (0 < n)) (Terminal.ofToken t) = true ↔
        stop.contains t.kind = true ∨ t.kind.isCloser = true ∨
          s < n + s ∧ t.layout.lineStart = true ∧
            (lineSensitive = true ∨ t.kind.isStatementKeyword = true) := by
    intro t
    simp [endsCapture, Terminal.ofToken, or_assoc, and_assoc]
  constructor
  · rintro ⟨-, t, ht, hkind⟩
    rcases getElem?_ofSource_cases ht with ⟨ht, hne⟩ | ⟨hlast, -⟩
    · obtain ⟨hzero, hstop⟩ := hkind.resolve_left hne
      refine .inr ⟨nesting_eq_zero_iff.mp hzero, Terminal.ofToken t, ?_, (hends t).mpr hstop⟩
      rw [Input.getElem?_rest_atToken, ht, Option.map_some]
    · left
      rw [Input.length_rest_atToken]
      omega
  · rintro (hlast | ⟨hcount, u, hu, hstop⟩)
    · obtain ⟨t, ht, hkind⟩ := getElem?_length_beforeEnd source
      rw [Input.length_rest_atToken] at hlast
      refine ⟨Nat.le_add_left s n, t, ?_, .inl hkind⟩
      rw [hlast, Nat.sub_add_cancel hs, ht]
    · rw [Input.getElem?_rest_atToken] at hu
      obtain ⟨t, ht, rfl⟩ := Option.map_eq_some_iff.mp hu
      exact ⟨Nat.le_add_left s n, t, getElem?_ofSource ht,
        .inr ⟨nesting_eq_zero_iff.mpr hcount, (hends t).mp hstop⟩⟩

/-- **A search resumes at a token as it does among what is left.** -/
theorem resumes_iff :
    Resumes source resume s (n + s) ↔ ResumesAt resume 0 (Input.atToken source s).rest n := by
  have hbars : ∀ t : Token String, (Terminal.ofToken t).endsSearch = false ↔
      t.kind ≠ .fixed .rbrace ∧
        ¬ (t.layout.lineStart = true ∧ t.kind.isStatementKeyword = true) := by
    intro t
    simp [Terminal.endsSearch, Terminal.beginsStatement, Terminal.ofToken, and_comm]
  constructor
  · rintro ⟨-, ⟨t, ht, hne, hin⟩, hdepth, hpasses⟩
    obtain ⟨ht, -⟩ := (getElem?_ofSource_cases ht).resolve_right fun h => hne h.2
    rw [depthFrom, seenBetween_add] at hdepth
    refine ⟨⟨Terminal.ofToken t, ?_, hin⟩, hdepth, ?_⟩
    · rw [Input.getElem?_rest_atToken, ht, Option.map_some]
    · intro m u hm hu hzero
      rw [Input.getElem?_rest_atToken] at hu
      obtain ⟨t', ht', rfl⟩ := Option.map_eq_some_iff.mp hu
      refine (hbars t').mpr (hpasses (m + s) t' (Nat.le_add_left s m) (Nat.add_lt_add_right hm s)
        (getElem?_ofSource ht') ?_)
      rw [depthFrom, seenBetween_add, hzero]
  · rintro ⟨⟨u, hu, hin⟩, hdepth, hpasses⟩
    rw [Input.getElem?_rest_atToken] at hu
    obtain ⟨t, ht, rfl⟩ := Option.map_eq_some_iff.mp hu
    have hne : t.kind ≠ .endOfFile :=
      bne_iff_ne.mp (List.mem_filter.mp (List.mem_of_getElem? ht)).2
    refine ⟨Nat.le_add_left s n, ⟨t, getElem?_ofSource ht, hne, hin⟩, ?_, ?_⟩
    · rw [depthFrom, seenBetween_add, hdepth]
    · intro q t' hq hlt ht' hzero
      obtain ⟨m, rfl⟩ := Nat.exists_eq_add_of_le' hq
      -- the token in front is not the end of file, since another one follows
      have hmore := (List.getElem?_eq_some_iff.mp ht).1
      obtain ⟨ht', -⟩ := (getElem?_ofSource_cases ht').resolve_right fun h => by omega
      rw [depthFrom, seenBetween_add] at hzero
      refine (hbars t').mp
        (hpasses m (Terminal.ofToken t') (Nat.lt_of_add_lt_add_right hlt) ?_ hzero)
      rw [Input.getElem?_rest_atToken, ht', Option.map_some]

/-- **Depth 0 by counting.**  All that was opened from token `s` on is closed exactly if no stretch
that ends there opens more brackets than it closes. -/
theorem depthFrom_eq_zero_iff : depthFrom source s (n + s) = 0 ↔
    ∀ m, s ≤ m → nesting source m (n + s) ≤ 0 := by
  have hnesting : ∀ k, nesting source (k + s) (n + s) ≤ 0 ↔
      opened ((seenBetween source s (n + s)).drop k) ≤
        closed ((seenBetween source s (n + s)).drop k) := by
    intro k
    have hdrop : seenBetween source (k + s) (n + s) = (seenBetween source s (n + s)).drop k := by
      rw [seenBetween, seenBetween, ← List.map_drop, between, between, List.drop_drop, Nat.add_comm]
    rw [nesting, hdrop]
    omega
  rw [depthFrom, depthBehind_eq_zero_iff]
  constructor
  · rintro ⟨-, hdrop⟩ m hm
    obtain ⟨k, rfl⟩ := Nat.exists_eq_add_of_le' hm
    exact (hnesting k).mpr (hdrop k)
  · intro h
    have hdrop := fun k => (hnesting k).mp (h (k + s) (Nat.le_add_left s k))
    refine ⟨?_, hdrop⟩
    rw [Nat.zero_add]
    exact hdrop 0

/-- On the way through leftovers no more brackets close than open. -/
theorem nesting_nonneg {q : Nat}
    (h : captureLength stop lineSensitive 0 false (Input.atToken source s).rest = n)
    (hq : s ≤ q) (hqn : q ≤ n + s) : 0 ≤ nesting source s q := by
  obtain ⟨m, rfl⟩ := Nat.exists_eq_add_of_le' hq
  have hm : m ≤ captureLength stop lineSensitive 0 false (Input.atToken source s).rest :=
    h ▸ Nat.le_of_add_le_add_right hqn
  have hcount := closed_le_captured stop lineSensitive _ 0 false m hm
  rw [nesting, seenBetween_add]
  omega

/-- Where there is nothing to look for no search resumes. -/
theorem not_resumes_of_isEmpty (h : resume.isEmpty = true) : ¬ Resumes source resume s p := by
  rintro ⟨-, ⟨t, -, -, hin⟩, -, -⟩
  have hmem := TagSet.mem_members.mpr hin
  rw [TagSet.isEmpty, List.isEmpty_iff] at h
  rw [h] at hmem
  exact absurd hmem List.not_mem_nil

end Token

/-! ## 4. The first place -/

namespace Parser

theorem capture_atToken
    (h : captureLength stop lineSensitive 0 false (Input.atToken source s).rest = n) :
    capture stop lineSensitive (Input.atToken source s) =
      ⟨if n = 0 then none else some ⟨s, n + s⟩, [], Input.atToken source (n + s)⟩ := by
  rw [capture_apply h, Input.skip_atToken, Nat.add_comm n s]
  rfl

/-- **Leftovers end at the first token where they can.** -/
theorem capture_stops (hs : s ≤ (Token.beforeEnd source).length) (stop : TagSet)
    (lineSensitive : Bool) :
    ∃ p, IsLeast {q | Token.EndsLeftovers source stop lineSensitive s q} p ∧
      Captured source s p (capture stop lineSensitive (Input.atToken source s)) := by
  have hleast := isLeast_captureLength stop lineSensitive 0 false (Input.atToken source s).rest
  have hle := captureLength_le stop lineSensitive 0 false (Input.atToken source s).rest
  obtain ⟨n, hn⟩ :
      ∃ n, captureLength stop lineSensitive 0 false (Input.atToken source s).rest = n := ⟨_, rfl⟩
  rw [hn] at hleast hle
  have hends : ∀ m, Token.EndsLeftovers source stop lineSensitive s (m + s) ↔
      EndsCaptureAt stop lineSensitive 0 false (Input.atToken source s).rest m :=
    fun _ => Token.endsLeftovers_iff hs
  refine ⟨n + s, isLeast_shift (fun _ h => h.behind) hends hleast, ?_⟩
  have hbelow : ∀ q, s ≤ q → q ≤ n + s → 0 ≤ Token.nesting source s q :=
    fun _ => Token.nesting_nonneg hn
  rw [capture_atToken hn]
  by_cases hzero : n = 0
  · subst hzero
    refine ⟨rfl, rfl, by simp, nofun, ?_, hbelow⟩
    rw [Nat.zero_add, Token.between_self]
    rfl
  · have hsolid : Run.Solid (Token.beforeEnd source).length ⟨s, n + s⟩ := by
      rw [Input.length_rest_atToken] at hle
      constructor <;> dsimp only <;> omega
    rw [if_neg hzero]
    refine ⟨rfl, rfl, by simp [hzero], ?_, hsolid.coverAll_between.symm, hbelow⟩
    intro r hr
    obtain rfl := Option.some.inj hr
    obtain ⟨first, last, hfirst, hlast, hlocate⟩ := hsolid.exists_tokens
    exact ⟨first, last, Token.getElem?_ofSource hfirst, Token.getElem?_ofSource hlast, hlocate⟩

/-- **A search resumes at the first token where it can,** or goes back. -/
theorem probe_stops (source : String) (resume : TagSet) (s : Nat) :
    Probed source resume s (probe resume (Input.atToken source s)) := by
  cases h : probeLength? resume 0 (Input.atToken source s).rest with
  | none =>
    have hnowhere : ¬ ∃ p, Token.Resumes source resume s p := by
      rintro ⟨p, hp⟩
      obtain ⟨n, rfl⟩ := Nat.exists_eq_add_of_le' hp.behind
      exact not_resumesAt_of_probeLength? h (Token.resumes_iff.mp hp)
    rw [probe_of_none h]
    exact ⟨rfl, ⟨nofun, fun hp => absurd hp hnowhere⟩, nofun, fun _ => rfl, fun _ => rfl⟩
  | some n =>
    have hleast : IsLeast {q | Token.Resumes source resume s q} (n + s) :=
      isLeast_shift (fun _ hp => hp.behind) (fun _ => Token.resumes_iff) (isLeast_probeLength? h)
    rw [probe_of_some h, Input.skip_atToken]
    refine ⟨rfl, ⟨fun _ => ⟨_, hleast.1⟩, fun _ => rfl⟩, fun _ => ⟨_, hleast, rfl⟩, nofun, ?_⟩
    intro hempty
    exact absurd hleast.1 (Token.not_resumes_of_isEmpty hempty)

end Parser

/-- **The scans stop at the first place where they can.**  They are the scans that reading uses; and
the depth at which a search looks for its set is 0 exactly where all is closed that was opened. -/
theorem scans_stop_first (hs : s < (Token.ofSource source).length) (stop resume : TagSet)
    (lineSensitive : Bool) :
    (∃ p, IsLeast {q | Token.EndsLeftovers source stop lineSensitive s q} p ∧
      Parser.Captured source s p (Parser.capture stop lineSensitive (Input.atToken source s))) ∧
    Parser.Probed source resume s (Parser.probe resume (Input.atToken source s)) ∧
    (∀ q, s ≤ q →
      (Token.depthFrom source s q = 0 ↔ ∀ m, s ≤ m → Token.nesting source m q ≤ 0)) ∧
    (∀ c, Parser.leftovers c stop lineSensitive = do
      let r? ← Parser.capture stop lineSensitive
      r?.elim (pure ()) (Parser.report (.leftover c))) ∧
    ∀ c opener, Parser.unclosed c opener resume = do
      Parser.reportHere (.unclosed c (Run.token opener))
      let _ ← Parser.probe resume
      return () := by
  rw [Token.length_ofSource] at hs
  refine ⟨Parser.capture_stops (Nat.le_of_lt_succ hs) stop lineSensitive,
    Parser.probe_stops source resume s, ?_, fun c => Parser.leftovers_eq c stop lineSensitive,
    fun c opener => Parser.unclosed_eq c opener resume⟩
  intro q hq
  obtain ⟨n, rfl⟩ := Nat.exists_eq_add_of_le' hq
  exact Token.depthFrom_eq_zero_iff

end Located

/-- Behind `if` leftovers pass the keyword in parentheses and end in front of `]`.  A search passes
`]` too, and stops at the body. -/
theorem scans_stop_first_brackets :
    let source := "if a (b\nlet c) ] d\n" ++ Text.braced " x "
    let i := Input.atToken source 1
    1 < (Token.ofSource source).length ∧
      (Parser.capture TagSet.bodyStart true i).next.position = 7 ∧
      (Parser.probe TagSet.bodyStart i).next.position = 9 ∧
      (∃ p, IsLeast {q | Token.EndsLeftovers source TagSet.bodyStart true 1 q} p ∧
        Parser.Captured source 1 p (Parser.capture TagSet.bodyStart true i)) ∧
      Parser.Probed source TagSet.bodyStart 1 (Parser.probe TagSet.bodyStart i) := by
  intro source i
  have hs : 1 < (Token.ofSource source).length := by decide +kernel
  obtain ⟨hcaptured, hprobed, -⟩ := scans_stop_first hs TagSet.bodyStart TagSet.bodyStart true
  exact ⟨hs, by decide +kernel, by decide +kernel, hcaptured, hprobed⟩

end PlatformGate
