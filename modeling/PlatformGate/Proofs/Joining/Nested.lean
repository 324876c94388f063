/-
# Nested brackets in front of a keyword

Terminals are nested if every closing bracket closes the last bracket that is open, and none is left
open (`nested`).  Let nested terminals stand in front of a line that begins with `guard`, `while` or
`return` (`Anchored`).  A reader may lose a bracket on the way, and go on as if it had never been
opened; but it stands where the closing brackets still to come are known (`Input.Before`), and this
module shows that neither scan leads out of there:

* leftovers end in front of every bracket that closes one opened earlier, and so do not change what
  is still to be closed (`Input.Before.capture`);
* the search for a token to go on at passes `)` and `]`, but no `}` (`Input.Before.probe`).

Both stop at the keyword at the latest.
-/
import PlatformGate.Proofs.Parse.Depth
import PlatformGate.Proofs.Parse.Motion

namespace PlatformGate

/-! ## 1. Nested terminals -/

namespace Fixed

/-- The bracket that closes an opening bracket. -/
def closer? : Fixed → Option Fixed
  | lparen => some rparen
  | lbrace => some rbrace
  | lbracket => some rbracket
  | _ => none

/-- The keywords that begin a statement and nothing else: no clause, and no branch. -/
def isAnchor : Fixed → Bool
  | guardWord | whileWord | returnWord => true
  | _ => false

end Fixed

/-- The closing brackets that are awaited behind a terminal, the next one first.  In front of it
`awaited` are.  A closing bracket that is not the next one cannot stand there. -/
def Terminal.awaited? (awaited : List Fixed) (t : Terminal) : Option (List Fixed) :=
  match t.kind with
  | .fixed f =>
    match f.closer? with
    | some c => some (c :: awaited)
    | none =>
      if f.isCloser then
        match awaited with
        | c :: outer => if c = f then some outer else none
        | [] => none
      else some awaited
  | _ => some awaited

/-- Whether each closing bracket closes the last bracket that is open, and none is left open.  In
front of the terminals those are open that `awaited` close. -/
def nested (awaited : List Fixed) : List Terminal → Bool
  | [] => awaited.isEmpty
  | t :: ts =>
    match t.awaited? awaited with
    | some inner => nested inner ts
    | none => false

/-- A kind opens a bracket, closes one, or does neither. -/
theorem bracket_cases (k : Kind String) :
    (∃ f c, k = .fixed f ∧ f.closer? = some c) ∨ (∃ c, k = .fixed c ∧ c.isCloser = true) ∨
      (k.isOpener = false ∧ k.isCloser = false) := by
  cases k with
  | fixed f =>
    cases f with
    | lparen | lbrace | lbracket => exact .inl ⟨_, _, rfl, rfl⟩
    | rparen | rbrace | rbracket => exact .inr (.inl ⟨_, rfl, rfl⟩)
    | _ => exact .inr (.inr ⟨rfl, rfl⟩)
  | _ => exact .inr (.inr ⟨rfl, rfl⟩)

section Nested

variable {awaited : List Fixed} {t : Terminal} {ts : List Terminal} {f c : Fixed}

theorem isOpener_of_closer? (h : f.closer? = some c) : f.isOpener = true := by
  cases f with
  | lparen | lbrace | lbracket => rfl
  | _ => exact absurd h nofun

theorem nested_nil : nested awaited [] = true ↔ awaited = [] := List.isEmpty_iff

theorem nested_pass (hopener : t.kind.isOpener = false) (hcloser : t.kind.isCloser = false) :
    nested awaited (t :: ts) = nested awaited ts := by
  have hawaited : t.awaited? awaited = some awaited := by
    unfold Terminal.awaited?
    cases hkind : t.kind with
    | fixed f =>
      rw [hkind] at hopener hcloser
      cases f with
      | lparen | lbrace | lbracket => exact absurd hopener nofun
      | rparen | rbrace | rbracket => exact absurd hcloser nofun
      | _ => rfl
    | _ => rfl
  rw [nested, hawaited]

theorem nested_open (hkind : t.kind = .fixed f) (hcloser : f.closer? = some c) :
    nested awaited (t :: ts) = nested (c :: awaited) ts := by
  have hawaited : t.awaited? awaited = some (c :: awaited) := by
    simp only [Terminal.awaited?, hkind, hcloser]
  rw [nested, hawaited]

/-- A closing bracket closes the last bracket that is open. -/
theorem nested_close (hkind : t.kind = .fixed c) (hcloser : c.isCloser = true) :
    nested awaited (t :: ts) = true ↔ ∃ outer, awaited = c :: outer ∧ nested outer ts = true := by
  have hnone : c.closer? = none := by
    cases c with
    | lparen | lbrace | lbracket => exact absurd hcloser nofun
    | _ => rfl
  cases awaited with
  | nil =>
    simp [nested, Terminal.awaited?, hkind, hnone, hcloser]
  | cons d outer =>
    by_cases hd : d = c <;> simp [nested, Terminal.awaited?, hkind, hnone, hcloser, hd]

theorem not_isOpener_of_isCloser {k : Kind String} (h : k.isCloser = true) :
    k.isOpener = false := by
  cases ho : k.isOpener with
  | false => rfl
  | true =>
    rw [isCloser_of_isOpener ho] at h
    exact absurd h nofun

/-- One terminal of a stretch in which `opened` have been opened since it began.  Either it leaves
such a stretch behind, at the depth that a scan counts; or it closes a bracket that was open before.
-/
theorem nested_cons {opened : List Fixed} (h : nested (opened ++ awaited) (t :: ts) = true) :
    (∃ inner, nested (inner ++ awaited) ts = true ∧
      t.depthAfter opened.length = inner.length) ∨
    (opened = [] ∧ ∃ c outer, t.kind = .fixed c ∧ c.isCloser = true ∧ awaited = c :: outer ∧
      nested outer ts = true) := by
  rcases bracket_cases t.kind with ⟨f, c, hkind, hc⟩ | ⟨c, hkind, hc⟩ | ⟨hopener, hcloser⟩
  · have hopener : t.kind.isOpener = true := by rw [hkind]; exact isOpener_of_closer? hc
    rw [nested_open hkind hc] at h
    exact .inl ⟨c :: opened, h, by simp [Terminal.depthAfter, hopener]⟩
  · have hcloser : t.kind.isCloser = true := by rw [hkind]; exact hc
    obtain ⟨outer, houter, hnested⟩ := (nested_close hkind hc).mp h
    cases opened with
    | nil => exact .inr ⟨rfl, c, outer, hkind, hc, houter, hnested⟩
    | cons d opened =>
      obtain ⟨rfl, rfl⟩ := List.cons.inj houter
      refine .inl ⟨opened, hnested, ?_⟩
      simp [Terminal.depthAfter, not_isOpener_of_isCloser hcloser, hcloser]
  · rw [nested_pass hopener hcloser] at h
    exact .inl ⟨opened, h, by simp [Terminal.depthAfter, hopener, hcloser]⟩

end Nested

/-! ## 2. The line behind -/

theorem anchor_cases {k : Kind String} (h : k.isFixed Fixed.isAnchor = true) :
    k = .fixed .guardWord ∨ k = .fixed .whileWord ∨ k = .fixed .returnWord := by
  cases k with
  | fixed f =>
    cases f with
    | guardWord | whileWord | returnWord => simp
    | _ => exact absurd h nofun
  | _ => exact absurd h nofun

theorem isStatementKeyword_of_anchor {k : Kind String} (h : k.isFixed Fixed.isAnchor = true) :
    k.isStatementKeyword = true := by
  rcases anchor_cases h with rfl | rfl | rfl <;> rfl

/-- A line that begins with a keyword that begins a statement and nothing else. -/
structure Anchored (line : List Terminal) : Prop where
  begins : ∃ t ts, line = t :: ts ∧ t.lineStart = true ∧ t.kind.isFixed Fixed.isAnchor = true

/-- Neither a bracket nor a keyword that may begin the line. -/
def Kind.isPlain (k : Kind String) : Bool :=
  !k.isOpener && !k.isCloser && !k.isFixed Fixed.isAnchor

theorem Kind.isPlain_iff {k : Kind String} :
    k.isPlain = true ↔
      k.isOpener = false ∧ k.isCloser = false ∧ k.isFixed Fixed.isAnchor = false := by
  simp [isPlain, and_assoc]

/-- At most `m` terminals are left.  Those in front of `line` are nested behind brackets of which at
least `a` are still closed by `)`, and exactly `b` by `}`. -/
def Input.Before (line : List Terminal) (m a b : Nat) (i : Input) : Prop :=
  i.rest.length ≤ m ∧ ∃ ts awaited, i.rest = ts ++ line ∧ nested awaited ts = true ∧
    a ≤ awaited.count .rparen ∧ awaited.count .rbrace = b

namespace Input.Before

variable {line : List Terminal} {m m' a a' b : Nat} {i : Input}

theorem mono (h : i.Before line m a b) (hm : m ≤ m') (ha : a' ≤ a) : i.Before line m' a' b := by
  obtain ⟨hlen, ts, awaited, hrest, hnested, hparens, hbraces⟩ := h
  exact ⟨Nat.le_trans hlen hm, ts, awaited, hrest, hnested, Nat.le_trans ha hparens, hbraces⟩

/-- Where a bracket is still to be closed, the line has not been reached. -/
theorem rest_ne (h : i.Before line m a b) (hopen : 0 < a ∨ 0 < b) : i.rest ≠ line := by
  obtain ⟨-, ts, awaited, hrest, hnested, hparens, hbraces⟩ := h
  intro hline
  rw [hline] at hrest
  obtain rfl : ts = [] := List.append_left_eq_self.mp hrest.symm
  obtain rfl := nested_nil.mp hnested
  rw [List.count_nil] at hparens hbraces
  omega

/-- In front of the line there is a terminal to take. -/
theorem uncons (h : i.Before line m a b) (hline : i.rest ≠ line) :
    ∃ t ts awaited, i.kind = t.kind ∧ i.next.rest = ts ++ line ∧ i.next.rest.length ≤ m - 1 ∧
      nested awaited (t :: ts) = true ∧ a ≤ awaited.count .rparen ∧
      awaited.count .rbrace = b := by
  obtain ⟨hlen, ts, awaited, hrest, hnested, hparens, hbraces⟩ := h
  cases ts with
  | nil => exact absurd hrest hline
  | cons t ts =>
    have hnext : i.next.rest = ts ++ line := congrArg Input.rest (next_eq_of_rest hrest)
    have hshort : i.next.rest.length ≤ m - 1 := by
      rw [hrest, List.cons_append, List.length_cons] at hlen
      rw [hnext]
      omega
    exact ⟨t, ts, awaited, kind_eq_head hrest, hnext, hshort, hnested, hparens, hbraces⟩

/-- A terminal that is no bracket changes nothing. -/
theorem next_pass (h : i.Before line m a b) (hline : i.rest ≠ line)
    (hopener : i.kind.isOpener = false) (hcloser : i.kind.isCloser = false) :
    i.next.Before line (m - 1) a b := by
  obtain ⟨t, ts, awaited, hkind, hrest, hlen, hnested, hparens, hbraces⟩ := h.uncons hline
  rw [hkind] at hopener hcloser
  rw [nested_pass hopener hcloser] at hnested
  exact ⟨hlen, ts, awaited, hrest, hnested, hparens, hbraces⟩

/-- An opening bracket will be closed. -/
theorem next_open (h : i.Before line m a b) (hline : i.rest ≠ line) {f c : Fixed}
    (hkind : i.kind = .fixed f) (hcloser : f.closer? = some c) :
    i.next.Before line (m - 1) (a + if c == .rparen then 1 else 0)
      (b + if c == .rbrace then 1 else 0) := by
  obtain ⟨t, ts, awaited, hkind', hrest, hlen, hnested, hparens, hbraces⟩ := h.uncons hline
  rw [nested_open (hkind' ▸ hkind) hcloser] at hnested
  refine ⟨hlen, ts, c :: awaited, hrest, hnested, ?_, ?_⟩
  · rw [List.count_cons]
    exact Nat.add_le_add_right hparens _
  · rw [List.count_cons, hbraces]

/-- A closing bracket closes one that was open. -/
theorem next_close (h : i.Before line m a b) (hline : i.rest ≠ line) {c : Fixed}
    (hkind : i.kind = .fixed c) (hcloser : c.isCloser = true) :
    (if c == .rbrace then 1 else 0) ≤ b ∧
      i.next.Before line (m - 1) (a - if c == .rparen then 1 else 0)
        (b - if c == .rbrace then 1 else 0) := by
  obtain ⟨t, ts, awaited, hkind', hrest, hlen, hnested, hparens, hbraces⟩ := h.uncons hline
  obtain ⟨outer, rfl, houter⟩ := (nested_close (hkind' ▸ hkind) hcloser).mp hnested
  rw [List.count_cons] at hparens hbraces
  exact ⟨by omega, hlen, ts, outer, hrest, houter, by omega, by omega⟩

end Input.Before

namespace Anchored

variable {line : List Terminal} {i : Input}

theorem ne_nil (h : Anchored line) : line ≠ [] := by
  obtain ⟨t, ts, rfl, -⟩ := h.begins
  nofun

/-- What cannot begin the line stands in front of it. -/
theorem rest_ne (h : Anchored line) (hkind : i.kind.isFixed Fixed.isAnchor = false) :
    i.rest ≠ line := by
  obtain ⟨t, ts, rfl, -, hanchor⟩ := h.begins
  intro hrest
  rw [Input.kind_eq_head hrest, hanchor] at hkind
  exact absurd hkind nofun

theorem atLineStart (h : Anchored line) (hrest : i.rest = line) : i.atLineStart = true := by
  obtain ⟨t, ts, rfl, hline, -⟩ := h.begins
  unfold Input.atLineStart
  rw [hrest]
  exact hline

end Anchored

theorem Input.Before.rest_ne_nil {line : List Terminal} {m a b : Nat} {i : Input}
    (h : i.Before line m a b) (hline : Anchored line) : i.rest ≠ [] := by
  obtain ⟨-, ts, awaited, hrest, -⟩ := h
  rw [hrest]
  exact List.append_ne_nil_of_right_ne_nil ts hline.ne_nil

/-! ## 3. The two scans -/

section Scans

variable {line : List Terminal} (hline : Anchored line)

include hline

/-- Leftovers that have begun end in front of the line. -/
theorem captureLength_line (stop : TagSet) (lineSensitive : Bool) :
    captureLength stop lineSensitive 0 true line = 0 := by
  obtain ⟨t, ts, rfl, hstart, hanchor⟩ := hline.begins
  have hends : endsCapture stop lineSensitive 0 true t = true := by
    simp [endsCapture, hstart, isStatementKeyword_of_anchor hanchor]
  rw [captureLength, if_pos hends]

/-- **Leftovers close what they have opened and nothing else.**  The induction is on the terminals
in front of the line; `opened` are the brackets opened so far, whose number is the depth. -/
theorem captureLength_nested (stop : TagSet) (lineSensitive : Bool) (awaited : List Fixed)
    (ts : List Terminal) : ∀ (opened : List Fixed) (begun : Bool),
      nested (opened ++ awaited) ts = true → begun = true ∨ ts ≠ [] →
        ∃ us, nested awaited us = true ∧
          (ts ++ line).drop (captureLength stop lineSensitive opened.length begun (ts ++ line)) =
            us ++ line := by
  induction ts with
  | nil =>
    intro opened begun h hbegun
    obtain ⟨rfl, rfl⟩ := List.append_eq_nil_iff.mp (nested_nil.mp h)
    obtain rfl : begun = true := hbegun.resolve_right (absurd rfl)
    refine ⟨[], rfl, ?_⟩
    rw [List.nil_append, List.length_nil, captureLength_line hline]
    rfl
  | cons t ts ih =>
    intro opened begun h _
    rw [List.cons_append, captureLength]
    by_cases hends : endsCapture stop lineSensitive opened.length begun t = true
    · rw [if_pos hends]
      have hdepth : opened.length = 0 := beq_iff_eq.mp (Bool.and_eq_true_iff.mp hends).1
      obtain rfl := List.length_eq_zero_iff.mp hdepth
      exact ⟨t :: ts, h, rfl⟩
    · rw [if_neg hends, List.drop_succ_cons]
      rcases nested_cons h with ⟨inner, hinner, hdepth⟩ | ⟨rfl, c, outer, hkind, hcloser, -⟩
      · rw [hdepth]
        exact ih inner true hinner (.inl rfl)
      · have hclose : t.kind.isCloser = true := by rw [hkind]; exact hcloser
        have hpos := not_endsCapture_of_closer (Bool.eq_false_iff.mpr hends) hclose
        exact absurd hpos (Nat.lt_irrefl 0)

/-- **The search for a token to go on at closes no brace that was open before.**  At depth 0 it
passes a `)` or a `]` as if it were not there. -/
theorem probeLength?_nested {resume : TagSet}
    (hresume : ∀ k : Kind String, k.isFixed Fixed.isAnchor = true → resume.contains k = false)
    (ts : List Terminal) : ∀ (opened awaited : List Fixed) (n : Nat),
      nested (opened ++ awaited) ts = true →
        probeLength? resume opened.length (ts ++ line) = some n →
          ∃ us inner, nested inner us = true ∧ (ts ++ line).drop n = us ++ line ∧
            inner.count .rbrace = awaited.count .rbrace := by
  induction ts with
  | nil =>
    intro opened awaited n h hn
    obtain ⟨rfl, rfl⟩ := List.append_eq_nil_iff.mp (nested_nil.mp h)
    obtain ⟨t, ts, rfl, hstart, hanchor⟩ := hline.begins
    have hbegins : t.beginsStatement = true := by
      unfold Terminal.beginsStatement
      rw [hstart, isStatementKeyword_of_anchor hanchor]
      rfl
    rw [List.nil_append, List.length_nil, probeLength?, hresume _ hanchor, hbegins] at hn
    exact absurd hn.symm (Option.some_ne_none n)
  | cons t ts ih =>
    intro opened awaited n h hn
    rw [List.cons_append, probeLength?] at hn
    split at hn
    · rename_i hfound
      have hdepth : opened.length = 0 := beq_iff_eq.mp (Bool.and_eq_true_iff.mp hfound).1
      obtain rfl := List.length_eq_zero_iff.mp hdepth
      obtain rfl := Option.some.inj hn
      exact ⟨t :: ts, awaited, h, rfl, rfl⟩
    · split at hn
      · exact absurd hn.symm (Option.some_ne_none n)
      · rename_i hgoes
        obtain ⟨k, hk, rfl⟩ := Option.map_eq_some_iff.mp hn
        rw [List.cons_append, List.drop_succ_cons]
        rcases nested_cons h with
          ⟨inner, hinner, hdepth⟩ | ⟨rfl, c, outer, hkind, hcloser, rfl, houter⟩
        · rw [hdepth] at hk
          exact ih inner awaited k hinner hk
        · have hclose : t.kind.isCloser = true := by rw [hkind]; exact hcloser
          have hdepth : t.depthAfter 0 = 0 := by
            simp [Terminal.depthAfter, not_isOpener_of_isCloser hclose]
          have hbrace : c ≠ .rbrace := by
            rintro rfl
            simp [hkind] at hgoes
          rw [List.length_nil, hdepth] at hk
          obtain ⟨us, inner, hinner, hdrop, hcount⟩ := ih [] outer k houter hk
          refine ⟨us, inner, hinner, hdrop, ?_⟩
          rw [hcount, List.count_cons_of_ne hbrace]

end Scans

theorem probeLength?_empty (depth : Nat) (ts : List Terminal) :
    probeLength? TagSet.empty depth ts = none := by
  induction ts generalizing depth with
  | nil => rfl
  | cons t ts ih =>
    have hempty : TagSet.empty.contains t.kind = false := rfl
    rw [probeLength?, hempty, Bool.and_false, if_neg Bool.false_ne_true, ih]
    split <;> rfl

namespace Input.Before

variable {line : List Terminal} {m a b : Nat} {i : Input}

/-- Leftovers in front of the line do not change what is still to be closed. -/
theorem capture (h : i.Before line m a b) (hline : Anchored line) (hrest : i.rest ≠ line)
    (stop : TagSet) (lineSensitive : Bool) :
    (i.skip (captureLength stop lineSensitive 0 false i.rest)).Before line m a b := by
  obtain ⟨hlen, ts, awaited, hts, hnested, hparens, hbraces⟩ := h
  have hne : ts ≠ [] := by
    rintro rfl
    exact hrest hts
  obtain ⟨us, hus, hdrop⟩ := captureLength_nested hline stop lineSensitive awaited ts [] false
    hnested (.inr hne)
  refine ⟨?_, us, awaited, ?_, hus, hparens, hbraces⟩
  · exact Nat.le_trans (List.drop_sublist _ _).length_le hlen
  · rw [skip, hts]
    exact hdrop

/-- The search for a token to go on at may lose a `)`, but no `}`. -/
theorem probe (h : i.Before line m a b) (hline : Anchored line) {resume : TagSet}
    (hresume : ∀ k : Kind String, k.isFixed Fixed.isAnchor = true → resume.contains k = false) :
    (i.skip ((probeLength? resume 0 i.rest).getD 0)).Before line m 0 b := by
  obtain ⟨hlen, ts, awaited, hts, hnested, hparens, hbraces⟩ := h
  cases hn : probeLength? resume 0 i.rest with
  | none => exact ⟨hlen, ts, awaited, hts, hnested, Nat.zero_le _, hbraces⟩
  | some n =>
    rw [hts] at hn
    obtain ⟨us, inner, hus, hdrop, hcount⟩ := probeLength?_nested hline hresume ts [] awaited n
      hnested hn
    refine ⟨?_, us, inner, ?_, hus, Nat.zero_le _, hcount.trans hbraces⟩
    · exact Nat.le_trans (List.drop_sublist _ _).length_le hlen
    · rw [skip, hts]
      exact hdrop

end Input.Before

end PlatformGate
