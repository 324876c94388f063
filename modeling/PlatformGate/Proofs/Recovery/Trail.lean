/-
# What a report leaves to be settled

Where a value is missing in front of an availability keyword, the keyword has not been read.
Someone further up has to report it as leftovers, and nothing else may be reported before that,
except that a header ended in front of the keyword if it begins a line.  `Debt` is what is owed
between two reports, `Follows` says which report may come next and what is owed behind it, and
`Trail` is a whole list of reports.  So the reports of a parser are the labels of a small machine.

The statements about parsers are triples.  `Tracks w P p Q` says that from wherever the debt and the
input are as in `P`, the reports of `p` are a trail that ends as in `Q`.  What is owed is owed at
the next terminal, since nothing is read before it is settled.
-/
import PlatformGate.Proofs.Query.Passing

namespace PlatformGate

/-! ## 1. The machine -/

/-- What is owed. -/
inductive Debt
  | clear
  /-- A value is missing in front of the availability keyword at the index. -/
  | due (n : Nat)
  /-- Besides, the keyword begins a line, and a header has ended in front of it. -/
  | late (n : Nat)
  deriving DecidableEq

namespace Terminal

/-- Whether an availability keyword stands at the index. -/
def keywordAt (w : List Terminal) (n : Nat) : Bool := w[n]?.any fun t => t.kind.isAvailability

/-- Whether a line begins at the index. -/
def lineStartAt (w : List Terminal) (n : Nat) : Bool := w[n]?.any lineStart

end Terminal

open Terminal

/-- The causes that are found where a header ends in front of something else than the end of file:
its body is missing, or its `else`. -/
def Cause.EndsHeader {ρ : Type} : Cause ρ → Prop
  | .missingBody _ false | .missingElse => True
  | _ => False

/-- A value that is missing in front of an availability keyword. -/
def Report.IsMisuse (w : List Terminal) (r : Report Run) : Prop :=
  ∃ pos n, r = ⟨.missingValue pos, Run.point n⟩ ∧ keywordAt w n = true

/-- Leftovers hold no keyword that begins a statement, unless in brackets.  Only those of a tuple or
a call may begin with one. -/
def Report.SparesStatements (w : List Terminal) (r : Report Run) : Prop :=
  ∀ c, r.cause = .leftover c → ∀ n t, r.place.first ≤ n → n < r.place.past → w[n]? = some t →
    t.beginsStatement = true → depthBehind 0 ((w.take n).drop r.place.first) = 0 →
      n = r.place.first ∧ (c = .tuple ∨ c = .call)

/-- Which report may come next, by what is owed in front of it and behind it. -/
inductive Follows (w : List Terminal) : Debt → Report Run → Debt → Prop
  | other {r : Report Run} (h : ¬ r.IsMisuse w) : Follows w .clear r .clear
  | misuse {pos : ValuePosition} {n : Nat} (h : keywordAt w n = true) :
      Follows w .clear ⟨.missingValue pos, Run.point n⟩ (.due n)
  | delay {cause : Cause Run} {n : Nat} (hcause : cause.EndsHeader)
      (hline : lineStartAt w n = true) : Follows w (.due n) ⟨cause, Run.token n⟩ (.late n)
  | settle {s : Debt} {c : Construct} {n m : Nat} (hs : s = .due n ∨ s = .late n)
      (hc : c ≠ .availability) (hlt : n < m) : Follows w s ⟨.leftover c, ⟨n, m⟩⟩ .clear

/-- Reports that follow each other. -/
inductive Trail (w : List Terminal) : Debt → List (Report Run) → Debt → Prop
  | nil {s : Debt} : Trail w s [] s
  | cons {s s' s'' : Debt} {r : Report Run} {rs : List (Report Run)} (h : Follows w s r s')
      (hspares : r.SparesStatements w) (hrs : Trail w s' rs s'') : Trail w s (r :: rs) s''

section Trails

variable {w : List Terminal} {s s' s'' : Debt} {r : Report Run} {rs rs' : List (Report Run)}

theorem Trail.append (h : Trail w s rs s') (h' : Trail w s' rs' s'') :
    Trail w s (rs ++ rs') s'' := by
  induction h with
  | nil => exact h'
  | cons hr hspares _ ih => exact .cons hr hspares (ih h')

theorem Trail.single (h : Follows w s r s') (hspares : r.SparesStatements w) :
    Trail w s [r] s' := .cons h hspares .nil

theorem trail_nil_iff : Trail w s [] s' ↔ s = s' := by
  constructor
  · rintro ⟨⟩
    rfl
  · rintro rfl
    exact .nil

theorem Trail.spares (h : Trail w s rs s') : ∀ r ∈ rs, r.SparesStatements w := by
  induction h with
  | nil => exact fun r hr => absurd hr List.not_mem_nil
  | cons _ hspares _ ih => exact List.forall_mem_cons.mpr ⟨hspares, ih⟩

/-- Only leftovers say anything about what they hold. -/
theorem sparesStatements_of_ne (h : ∀ c, r.cause ≠ .leftover c) : r.SparesStatements w :=
  fun c hc => absurd hc (h c)

/-- An availability keyword is no bracket. -/
theorem isCloser_of_isAvailability {k : Kind String} (h : k.isAvailability = true) :
    k.isCloser = false := by
  cases k with
  | fixed f => cases f <;> first | rfl | exact absurd h nofun
  | _ => rfl

theorem not_isMisuse_of_ne (h : ∀ pos, r.cause ≠ .missingValue pos) : ¬ r.IsMisuse w := by
  rintro ⟨pos, n, rfl, -⟩
  exact h pos rfl

end Trails

/-! ## 2. What is owed at an input -/

namespace Input

variable {w : List Terminal} {s : Debt} {i j : Input}

/-- The input is what is left of the terminals. -/
def In (w : List Terminal) (i : Input) : Prop := i.rest = w.drop i.position

theorem In.skip (h : i.In w) (n : Nat) : (i.skip n).In w := by
  unfold In at h ⊢
  rw [Input.skip, h, List.drop_drop]

theorem In.next (h : i.In w) : i.next.In w := by
  by_cases hne : i.rest = []
  · have : i.next = i := by unfold Input.next; rw [hne]
    rwa [this]
  · rw [next_eq_skip hne]
    exact h.skip 1

theorem In.head? (h : i.In w) : w[i.position]? = i.rest.head? := by
  rw [h, List.head?_drop]

theorem In.keywordAt_eq (h : i.In w) : keywordAt w i.position = i.kind.isAvailability := by
  unfold keywordAt Input.kind
  rw [h.head?]
  cases i.rest <;> rfl

theorem In.lineStartAt_eq (h : i.In w) : lineStartAt w i.position = i.atLineStart := by
  unfold lineStartAt Input.atLineStart
  rw [h.head?]

/-- Whether a keyword that begins a statement comes next. -/
def beginsStatement (i : Input) : Bool := i.rest.head?.any Terminal.beginsStatement

theorem isStatementKeyword_of_beginsStatement (h : i.beginsStatement = true) :
    i.kind.isStatementKeyword = true := by
  unfold beginsStatement at h
  unfold kind
  cases hrest : i.rest with
  | nil => rw [hrest] at h; exact absurd h nofun
  | cons t ts =>
    rw [hrest] at h
    exact (Bool.and_eq_true_iff.mp h).2

theorem atLineStart_of_beginsStatement (h : i.beginsStatement = true) : i.atLineStart = true := by
  unfold beginsStatement at h
  unfold atLineStart
  cases hrest : i.rest with
  | nil => rw [hrest] at h; exact absurd h nofun
  | cons t ts =>
    rw [hrest] at h
    exact (Bool.and_eq_true_iff.mp h).1

/-- Nothing is owed. -/
def Clear (w : List Terminal) (s : Debt) (i : Input) : Prop := i.In w ∧ s = .clear

/-- A value may just have been found missing. -/
def Open (w : List Terminal) (s : Debt) (i : Input) : Prop :=
  i.In w ∧ (s = .clear ∨ i.kind.isAvailability = true ∧ s = .due i.position)

/-- What is owed is owed at the next terminal. -/
def Owing (w : List Terminal) (s : Debt) (i : Input) : Prop :=
  i.In w ∧ (s = .clear ∨ i.kind.isAvailability = true ∧
    (s = .due i.position ∨ s = .late i.position))

theorem Clear.open (h : Clear w s i) : Open w s i := ⟨h.1, .inl h.2⟩

theorem Open.owing (h : Open w s i) : Owing w s i :=
  ⟨h.1, h.2.imp_right fun h => ⟨h.1, .inl h.2⟩⟩

theorem Clear.owing (h : Clear w s i) : Owing w s i := h.open.owing

/-- In front of any other token nothing is owed. -/
theorem Owing.clear (h : Owing w s i) (hkind : i.kind.isAvailability = false) : Clear w s i := by
  refine ⟨h.1, ?_⟩
  rcases h.2 with hs | ⟨havail, -⟩
  · exact hs
  · rw [havail] at hkind
    exact absurd hkind nofun

theorem Clear.next (h : Clear w s i) : Clear w s i.next := ⟨h.1.next, h.2⟩

end Input

open Input

/-! ## 3. Triples -/

namespace Parser

variable {α β : Type} {w : List Terminal}

/-- From wherever `P` holds, the reports of the parser are a trail to where `Q` holds. -/
def Tracks (w : List Terminal) (P : Debt → Input → Prop) (p : Parser α)
    (Q : Debt → Input → Prop) : Prop :=
  ∀ s i, P s i → p.Ensures i fun _ rs j => ∃ s', Trail w s rs s' ∧ Q s' j

section Rules

variable {P P' Q Q' R : Debt → Input → Prop} {p : Parser α}

theorem tracks_pure {a : α} : Tracks w P (pure a) P := fun s _ h => ⟨s, .nil, h⟩

theorem tracks_pure_of {a : α} (h : ∀ s i, P s i → Q s i) : Tracks w P (pure a) Q :=
  fun s i hi => ⟨s, .nil, h s i hi⟩

theorem Tracks.bind {f : α → Parser β} (h : Tracks w P p Q) (hf : ∀ a, Tracks w Q (f a) R) :
    Tracks w P (p >>= f) R := by
  intro s i hi
  obtain ⟨s', hrs, hQ⟩ := h s i hi
  obtain ⟨s'', hrs', hR⟩ := hf _ s' _ hQ
  exact ⟨s'', hrs.append hrs', hR⟩

theorem Tracks.from_of (h : Tracks w P p Q) (hP : ∀ s i, P' s i → P s i) : Tracks w P' p Q :=
  fun s i hi => h s i (hP s i hi)

theorem Tracks.to_of (h : Tracks w P p Q) (hQ : ∀ s i, Q s i → Q' s i) : Tracks w P p Q' := by
  intro s i hi
  obtain ⟨s', hrs, hj⟩ := h s i hi
  exact ⟨s', hrs, hQ s' _ hj⟩

theorem Tracks.ite {c : Prop} [Decidable c] {p' : Parser α} (h : Tracks w P p Q)
    (h' : Tracks w P p' Q) : Tracks w P (if c then p else p') Q := by
  split
  · exact h
  · exact h'

/-- Every round leads back. -/
theorem tracks_collect {item : Parser (Option α)} (h : Tracks w P item P) :
    Tracks w P (collect item) P := by
  have hwithin : ∀ n, Tracks w P (collectWithin item n) P := by
    intro n
    induction n with
    | zero => exact tracks_pure
    | succ n ih =>
      refine h.bind fun a? => ?_
      cases a? with
      | none => exact tracks_pure
      | some a => exact ih.bind fun as => tracks_pure
  exact fun s i hi => hwithin _ s i hi

/-- What is looked at is known behind the look. -/
theorem tracks_kind {f : Kind String → Parser α}
    (h : ∀ k, Tracks w (fun s i => P s i ∧ i.kind = k) (f k) Q) : Tracks w P (kind >>= f) Q :=
  fun s i hi => h i.kind s i ⟨hi, rfl⟩

/-- In front of any token but the keyword nothing is owed. -/
theorem tracks_check {f : Fixed} {g : Bool → Parser α} (hP : ∀ s i, P s i → Owing w s i)
    (hf : f.isAvailability = false)
    (hyes : Tracks w (fun s i => Clear w s i ∧ i.kind = .fixed f) (g true) Q)
    (hno : Tracks w P (g false) Q) : Tracks w P (check f >>= g) Q := by
  intro s i hi
  rw [ensures_bind, ensures_check]
  refine ⟨fun hkind => hyes s i ⟨?_, hkind⟩, fun _ => hno s i hi⟩
  exact (hP s i hi).clear (by rw [hkind]; exact hf)

theorem tracks_eat {f : Fixed} {g : Bool → Parser α} (hP : ∀ s i, P s i → Owing w s i)
    (hf : f.isAvailability = false) (hyes : Tracks w (Clear w) (g true) Q)
    (hno : Tracks w P (g false) Q) : Tracks w P (eat f >>= g) Q := by
  intro s i hi
  rw [ensures_bind, ensures_eat]
  refine ⟨fun hkind => hyes s i.next ?_, fun _ => hno s i hi⟩
  exact ((hP s i hi).clear (by rw [hkind]; exact hf)).next

/-- At the end of file nothing is owed. -/
theorem tracks_atEnd {g : Bool → Parser α} (hP : ∀ s i, P s i → Owing w s i)
    (hyes : Tracks w (Clear w) (g true) Q) (hno : Tracks w P (g false) Q) :
    Tracks w P (atEnd >>= g) Q := by
  intro s i hi
  rw [ensures_bind, ensures_atEnd]
  refine ⟨fun hnil => hyes s i ?_, fun _ => hno s i hi⟩
  exact (hP s i hi).clear (by unfold Input.kind; rw [hnil]; rfl)

theorem tracks_atLineStart {g : Bool → Parser α}
    (h : ∀ b, Tracks w (fun s i => P s i ∧ i.atLineStart = b) (g b) Q) :
    Tracks w P (atLineStart >>= g) Q := fun s i hi => h i.atLineStart s i ⟨hi, rfl⟩

end Rules

section Silent

variable {P : Debt → Input → Prop}

theorem tracks_position : Tracks w P position P := fun s _ h => ⟨s, .nil, h⟩

theorem tracks_runFrom {start : Nat} : Tracks w P (runFrom start) P := fun s _ h => ⟨s, .nil, h⟩

theorem tracks_afterNewline : Tracks w P afterNewline P := fun s _ h => ⟨s, .nil, h⟩

theorem tracks_next : Tracks w (Clear w) next (Clear w) := fun s _ h => ⟨s, .nil, h.next⟩

end Silent

/-! ## 4. Reports -/

/-- A report at a terminal, neither about leftovers nor about a value. -/
theorem tracks_report (cause : Cause Run) (place : Run) (hleft : ∀ c, cause ≠ .leftover c)
    (hvalue : ∀ pos, cause ≠ .missingValue pos) :
    Tracks w (Clear w) (report cause place) (Clear w) := by
  rintro s i ⟨hi, rfl⟩
  rw [ensures_report]
  refine ⟨.clear, .single (.other ?_) ?_, hi, rfl⟩
  · exact not_isMisuse_of_ne hvalue
  · exact sparesStatements_of_ne hleft

theorem tracks_reportHere (cause : Cause Run) (hleft : ∀ c, cause ≠ .leftover c)
    (hvalue : ∀ pos, cause ≠ .missingValue pos) :
    Tracks w (Clear w) (reportHere cause) (Clear w) :=
  fun s i hi => tracks_report cause (Run.token i.position) hleft hvalue s i hi

theorem tracks_invalidToken : Tracks w (Clear w) invalidToken (Clear w) := by
  refine tracks_position.bind fun start => ?_
  refine tracks_next.bind fun _ => ?_
  exact (tracks_report .invalidToken _ nofun nofun).bind fun _ => tracks_pure

theorem tracks_unclosed {c : Construct} {opener : Nat} {resume : TagSet} :
    Tracks w (Clear w) (unclosed c opener resume) (Clear w) := by
  rintro s i ⟨hi, rfl⟩
  rw [ensures_unclosed]
  refine ⟨.clear, .single (.other ?_) ?_, hi.skip _, rfl⟩
  · exact not_isMisuse_of_ne nofun
  · exact sparesStatements_of_ne nofun

theorem tracks_errorHere {P : Debt → Input → Prop} : Tracks w P errorHere P :=
  fun s _ h => ⟨s, .nil, h⟩

/-- **A missing value is a misuse exactly in front of an availability keyword.** -/
theorem tracks_missingValue (pos : ValuePosition) :
    Tracks w (Clear w) (missingValue pos) (Open w) := by
  rintro s i ⟨hi, rfl⟩
  change ∃ s', Trail w .clear [⟨.missingValue pos, Run.point i.position⟩] s' ∧ Open w s' i
  by_cases hkeyword : keywordAt w i.position = true
  · refine ⟨.due i.position, .single (.misuse hkeyword) (sparesStatements_of_ne nofun), hi, .inr ?_⟩
    rw [hi.keywordAt_eq] at hkeyword
    exact ⟨hkeyword, rfl⟩
  · refine ⟨.clear, .single (.other ?_) (sparesStatements_of_ne nofun), hi, .inl rfl⟩
    rintro ⟨pos', n, heq, h⟩
    cases heq
    exact hkeyword h

/-! ## 5. Leftovers -/

/-- **Leftovers begin with a keyword that begins a statement, or hold none outside brackets.**  Only
the first terminal is not looked at in this respect. -/
theorem captureLength_spares_statements {stop : TagSet} {lineSensitive begun : Bool}
    {depth n : Nat} {ts : List Terminal} {t : Terminal}
    (hn : n < captureLength stop lineSensitive depth begun ts) (ht : ts[n]? = some t)
    (hbegins : t.beginsStatement = true) (hdepth : depthBehind depth (ts.take n) = 0) :
    begun = false ∧ n = 0 := by
  induction ts generalizing depth begun n with
  | nil => exact absurd hn (Nat.not_lt_zero n)
  | cons u us ih =>
    rw [captureLength] at hn
    split at hn
    · exact absurd hn (Nat.not_lt_zero n)
    · rename_i hgoes
      cases n with
      | zero =>
        obtain rfl : u = t := by simpa using ht
        obtain rfl : depth = 0 := hdepth
        obtain ⟨hline, hkeyword⟩ := Bool.and_eq_true_iff.mp hbegins
        refine ⟨?_, rfl⟩
        rw [← Bool.not_eq_true]
        rintro rfl
        exact hgoes (by simp [endsCapture, hline, hkeyword])
      | succ n =>
        have hrest := ih (Nat.lt_of_succ_lt_succ hn) (by simpa using ht) hdepth
        exact absurd hrest.1 Bool.false_ne_true.symm

section Leftovers

variable {i : Input} {c : Construct}

/-- Leftovers spare the statements if the first terminal begins none. -/
theorem sparesStatements_captured (stop : TagSet) (lineSensitive : Bool) (hi : i.In w)
    (hfirst : i.beginsStatement = true → c = .tuple ∨ c = .call) :
    Report.SparesStatements w ⟨.leftover c,
      ⟨i.position, i.position + captureLength stop lineSensitive 0 false i.rest⟩⟩ := by
  rintro c' ⟨⟩ n t hfrom hto ht hbegins hdepth
  obtain ⟨k, rfl⟩ := Nat.exists_eq_add_of_le (show i.position ≤ n from hfrom)
  have hk : k < captureLength stop lineSensitive 0 false i.rest := Nat.lt_of_add_lt_add_left hto
  have ht' : i.rest[k]? = some t := by rw [hi, List.getElem?_drop, ht]
  have hdepth' : depthBehind 0 (i.rest.take k) = 0 := by
    rw [List.drop_take, Nat.add_sub_cancel_left] at hdepth
    rwa [hi]
  obtain ⟨-, rfl⟩ := captureLength_spares_statements hk ht' hbegins hdepth'
  refine ⟨rfl, hfirst ?_⟩
  unfold Input.beginsStatement
  rw [List.head?_eq_getElem?, ht']
  exact hbegins

/-- A single terminal spares the statements if it is no keyword. -/
theorem sparesStatements_token (hi : i.In w) (hfirst : i.beginsStatement = false) :
    Report.SparesStatements w ⟨.leftover c, Run.token i.position⟩ := by
  rintro c' ⟨⟩ n t hfrom hto ht hbegins -
  obtain rfl : n = i.position := Nat.le_antisymm (Nat.lt_succ_iff.mp hto) hfrom
  unfold Input.beginsStatement at hfirst
  rw [← hi.head?, ht] at hfirst
  exact absurd (hfirst.symm.trans hbegins) nofun

/-- Where nothing is owed leftovers are free to be reported. -/
theorem trail_leftovers {s : Debt} (h : Clear w s i)
    (hfirst : i.beginsStatement = true → c = .tuple ∨ c = .call) (stop : TagSet)
    (lineSensitive : Bool) :
    (leftovers c stop lineSensitive).Ensures i fun _ rs j =>
      ∃ s', Trail w s rs s' ∧ Clear w s' j := by
  obtain ⟨hi, rfl⟩ := h
  rw [ensures_leftovers]
  refine ⟨fun _ => ⟨.clear, .nil, hi, rfl⟩, ?_⟩
  rintro n rfl -
  have hspares := sparesStatements_captured stop lineSensitive hi hfirst
  exact ⟨.clear, .single (.other (not_isMisuse_of_ne nofun)) hspares, hi.skip _, rfl⟩

/-- **Leftovers settle what is owed.**  The keyword is no stop token, so it is taken. -/
theorem tracks_leftovers {P : Debt → Input → Prop} (hP : ∀ s i, P s i → Owing w s i)
    (hc : c ≠ .availability)
    (hfirst : ∀ s i, P s i → i.beginsStatement = true → c = .tuple ∨ c = .call)
    {stop : TagSet} (hstop : ∀ k : Kind String, k.isAvailability = true → stop.contains k = false)
    (lineSensitive : Bool) : Tracks w P (leftovers c stop lineSensitive) (Clear w) := by
  intro s i hPi
  have hfirst := hfirst s i hPi
  obtain ⟨hi, hs⟩ := hP s i hPi
  rcases hs with rfl | ⟨havail, hs⟩
  · exact trail_leftovers ⟨hi, rfl⟩ hfirst stop lineSensitive
  · have hpos : 0 < captureLength stop lineSensitive 0 false i.rest := by
      obtain ⟨t, ts, hts⟩ := List.exists_cons_of_ne_nil
        (rest_ne_nil_of_kind (i := i) fun h => by rw [h] at havail; exact absurd havail nofun)
      rw [kind_eq_head hts] at havail
      rw [hts]
      exact captureLength_pos (hstop _ havail) (isCloser_of_isAvailability havail)
    rw [ensures_leftovers]
    refine ⟨fun h0 => absurd h0 (Nat.ne_of_gt hpos), ?_⟩
    rintro n rfl -
    have hspares := sparesStatements_captured stop lineSensitive hi hfirst
    exact ⟨.clear, .single (.settle hs hc (Nat.lt_add_of_pos_right hpos)) hspares, hi.skip _, rfl⟩

end Leftovers

end Parser

end PlatformGate
