/-
# Reading moves forward

A parser takes terminals from the front of its input and nothing else: what is left is a tail of
what there was, and the index of the next terminal has grown by the number taken (`Ahead`).  What
it reports stands between where it began and where it stopped (`Placed`).  Both facts together are
`Moves`, which every parser of the library keeps; this module proves it for the parsers that go on
after a problem, and says exactly which reports they give.
-/
import PlatformGate.Proofs.Parse.Ensures

namespace PlatformGate

/-! ## 1. Inputs -/

theorem Kind.ne_endOfFile_of_isAvailability {k : Kind String} (h : k.isAvailability = true) :
    k ≠ .endOfFile := by
  rintro rfl
  exact absurd h nofun

namespace Input

/-- `j` is left of `i` when some terminals have been taken. -/
def Ahead (i j : Input) : Prop :=
  ∃ ts, i.rest = ts ++ j.rest ∧ j.position = i.position + ts.length

variable {i j k : Input}

theorem Ahead.refl (i : Input) : i.Ahead i := ⟨[], rfl, rfl⟩

theorem Ahead.trans (h : i.Ahead j) (h' : j.Ahead k) : i.Ahead k := by
  obtain ⟨ts, hts, hp⟩ := h
  obtain ⟨us, hus, hq⟩ := h'
  refine ⟨ts ++ us, ?_, ?_⟩
  · rw [hts, hus, List.append_assoc]
  · rw [hq, hp, List.length_append, Nat.add_assoc]

theorem Ahead.position_le (h : i.Ahead j) : i.position ≤ j.position := by
  obtain ⟨ts, -, hp⟩ := h
  omega

/-- The index of the end of file stays the same. -/
theorem Ahead.stop_eq (h : i.Ahead j) :
    j.position + j.rest.length = i.position + i.rest.length := by
  obtain ⟨ts, hts, hp⟩ := h
  rw [hts, List.length_append]
  omega

theorem Ahead.length_lt (h : i.Ahead j) (hlt : i.position < j.position) :
    j.rest.length < i.rest.length := by
  have := h.stop_eq
  omega

theorem ahead_skip {n : Nat} (h : n ≤ i.rest.length) : i.Ahead (i.skip n) :=
  ⟨i.rest.take n, (List.take_append_drop n i.rest).symm, by simp [skip, List.length_take, h]⟩

theorem kind_eq_head {t : Terminal} {ts : List Terminal} (h : i.rest = t :: ts) :
    i.kind = t.kind := by
  unfold kind
  rw [h]

theorem next_eq_of_rest {t : Terminal} {ts : List Terminal} (h : i.rest = t :: ts) :
    i.next = ⟨i.position + 1, ts⟩ := by
  unfold next
  rw [h]

/-- Only in front of the end of file does reading on leave the input as it is. -/
theorem next_eq_skip (h : i.rest ≠ []) : i.next = i.skip 1 := by
  obtain ⟨t, ts, hts⟩ := List.exists_cons_of_ne_nil h
  rw [next_eq_of_rest hts, skip, hts]
  rfl

theorem ahead_next (i : Input) : i.Ahead i.next := by
  cases h : i.rest with
  | nil =>
    have : i.next = i := by unfold next; rw [h]
    rw [this]
    exact .refl i
  | cons t ts => exact ⟨[t], by rw [h, next_eq_of_rest h]; rfl, by rw [next_eq_of_rest h]; rfl⟩

theorem position_next (h : i.rest ≠ []) : i.next.position = i.position + 1 := by
  rw [next_eq_skip h, skip]

theorem position_lt_next (h : i.rest ≠ []) : i.position < i.next.position := by
  rw [position_next h]
  exact Nat.lt_succ_self _

theorem rest_ne_nil_of_kind (h : i.kind ≠ .endOfFile) : i.rest ≠ [] := by
  intro hnil
  exact h (by unfold kind; rw [hnil])

theorem rest_ne_nil_of_isAvailability (h : i.kind.isAvailability = true) : i.rest ≠ [] :=
  rest_ne_nil_of_kind (Kind.ne_endOfFile_of_isAvailability h)

/-- The end of file is no sign. -/
theorem rest_ne_nil_of_unary {op : UnaryOperator} (h : UnaryOperator.ofKind? i.kind = some op) :
    i.rest ≠ [] := by
  apply rest_ne_nil_of_kind
  intro hk
  rw [hk] at h
  exact absurd h.symm (Option.some_ne_none op)

/-- The end of file is no operator. -/
theorem rest_ne_nil_of_binary {op : BinaryOperator} (h : BinaryOperator.ofKind? i.kind = some op) :
    i.rest ≠ [] := by
  apply rest_ne_nil_of_kind
  intro hk
  rw [hk] at h
  exact absurd h.symm (Option.some_ne_none op)

/-- A token of fixed spelling belongs to a terminal. -/
theorem rest_ne_nil {f : Fixed} (h : i.kind = .fixed f) : i.rest ≠ [] := by
  apply rest_ne_nil_of_kind
  rw [h]
  nofun

end Input

/-! ## 2. Places of reports -/

/-- What is said of the terminal that comes next and of nothing else. -/
def Cause.OfNext {ρ : Type} : Cause ρ → Prop
  | .invalidToken | .leftover _ | .missingValue _ | .unclosed _ _ => False
  | _ => True

/-- Where a report may stand if it was given between the terminals `lo` and `hi`.  Leftovers and
invalid tokens have been read, a missing value is a point, and all else stands at one terminal,
perhaps at the one where reading stopped.  An opening bracket stands in front of the report that
blames it. -/
def Report.Placed (lo hi : Nat) (r : Report Run) : Prop :=
  lo ≤ r.place.first ∧ r.place.first ≤ hi ∧
  match r.cause with
  | .invalidToken | .leftover _ => r.place.first < r.place.past ∧ r.place.past ≤ hi
  | .missingValue _ => r.place.past = r.place.first
  | .unclosed _ opener =>
    r.place.past = r.place.first + 1 ∧ ∃ k < r.place.first, opener = Run.token k
  | _ => r.place.past = r.place.first + 1

theorem Report.Placed.mono {lo lo' hi hi' : Nat} {r : Report Run} (h : r.Placed lo hi)
    (hlo : lo' ≤ lo) (hhi : hi ≤ hi') : r.Placed lo' hi' := by
  obtain ⟨h1, h2, h3⟩ := h
  refine ⟨Nat.le_trans hlo h1, Nat.le_trans h2 hhi, ?_⟩
  split at h3
  · exact ⟨h3.1, Nat.le_trans h3.2 hhi⟩
  · exact ⟨h3.1, Nat.le_trans h3.2 hhi⟩
  · exact h3
  · exact h3
  · exact h3

/-- No report is placed the wrong way round, and none ends past the terminal where reading
stopped. -/
theorem Report.Placed.bounds {lo hi : Nat} {r : Report Run} (h : r.Placed lo hi) :
    lo ≤ r.place.first ∧ r.place.first ≤ r.place.past ∧ r.place.first ≤ hi ∧
      r.place.past ≤ hi + 1 := by
  obtain ⟨h1, h2, h3⟩ := h
  refine ⟨h1, ?_, h2, ?_⟩ <;> split at h3 <;> omega

/-- What a parser does to its input, whatever value it gives; `C` is what it may complain of. -/
structure Moves (C : Cause Run → Prop) (i : Input) (rs : List (Report Run)) (j : Input) :
    Prop where
  ahead : i.Ahead j
  placed : ∀ r ∈ rs, r.Placed i.position j.position
  causes : ∀ r ∈ rs, C r.cause

namespace Moves

variable {C C' : Cause Run → Prop} {i j k : Input} {rs rs' : List (Report Run)}

theorem refl (i : Input) : Moves C i [] i := ⟨.refl i, by simp, by simp⟩

theorem of_ahead (h : i.Ahead j) : Moves C i [] j := ⟨h, by simp, by simp⟩

theorem trans (h : Moves C i rs j) (h' : Moves C j rs' k) : Moves C i (rs ++ rs') k := by
  refine ⟨h.ahead.trans h'.ahead, fun r hr => ?_, fun r hr => ?_⟩
  · rcases List.mem_append.mp hr with hr | hr
    · exact (h.placed r hr).mono (Nat.le_refl _) h'.ahead.position_le
    · exact (h'.placed r hr).mono h.ahead.position_le (Nat.le_refl _)
  · rcases List.mem_append.mp hr with hr | hr
    · exact h.causes r hr
    · exact h'.causes r hr

theorem mono (h : Moves C i rs j) (hC : ∀ cause, C cause → C' cause) : Moves C' i rs j :=
  ⟨h.ahead, h.placed, fun r hr => hC _ (h.causes r hr)⟩

theorem next (i : Input) : Moves C i [] i.next := of_ahead i.ahead_next

/-- A silent step behind another. -/
theorem then_ahead (h : Moves C i rs j) (h' : j.Ahead k) : Moves C i rs k := by
  simpa using h.trans (of_ahead h')

/-- A silent step in front of another. -/
theorem after_ahead (h : i.Ahead j) (h' : Moves C j rs k) : Moves C i rs k :=
  (of_ahead h).trans h'

theorem single {r : Report Run} (h : i.Ahead j) (hr : r.Placed i.position j.position)
    (hC : C r.cause) : Moves C i [r] j :=
  ⟨h, by simpa using hr, by simpa using hC⟩

/-- A report at the next terminal, which is not read. -/
theorem here {cause : Cause Run} (hC : C cause) (h : cause.OfNext) :
    Moves C i [⟨cause, Run.token i.position⟩] i := by
  refine single (.refl i) ⟨Nat.le_refl _, Nat.le_refl _, ?_⟩ hC
  cases cause with
  | invalidToken | leftover | missingValue | unclosed => exact h.elim
  | _ => rfl

/-- Leftovers are read and reported. -/
theorem leftover {c : Construct} (hC : C (.leftover c)) {n : Nat} (hpos : 0 < n)
    (hn : n ≤ i.rest.length) :
    Moves C i [⟨.leftover c, ⟨i.position, i.position + n⟩⟩] (i.skip n) := by
  have hp : (i.skip n).position = i.position + n := rfl
  refine single (Input.ahead_skip hn) ⟨Nat.le_refl _, ?_, ?_, ?_⟩ hC <;>
    simp only [hp] <;> omega

end Moves

/-! ## 3. Going on after a problem -/

namespace Parser

variable {i : Input} {Q : Unit → List (Report Run) → Input → Prop}

theorem ensures_leftovers {c : Construct} {stop : TagSet} {lineSensitive : Bool} :
    (leftovers c stop lineSensitive).Ensures i Q ↔
      (captureLength stop lineSensitive 0 false i.rest = 0 → Q () [] i) ∧
      ∀ n, captureLength stop lineSensitive 0 false i.rest = n → n ≠ 0 →
        Q () [⟨.leftover c, ⟨i.position, i.position + n⟩⟩] (i.skip n) := by
  simp only [leftovers, ensures_bind, ensures_position, ensures_rest]
  by_cases h : captureLength stop lineSensitive 0 false i.rest = 0
  · rw [if_pos h]
    simp [h, ensures_pure]
  · rw [if_neg h]
    simp only [h, false_imp_iff, true_and, ensures_bind, ensures_skip, ensures_runFrom,
      ensures_report, List.nil_append]
    constructor
    · rintro hQ n rfl -
      exact hQ
    · intro hQ
      exact hQ _ rfl h

theorem ensures_strayCloser {c : Construct} :
    (strayCloser c).Ensures i Q ↔
      Q () [⟨.leftover c, Run.token i.position⟩] i.next := Iff.rfl

theorem ensures_unclosed {c : Construct} {opener : Nat} {resume : TagSet} :
    (unclosed c opener resume).Ensures i Q ↔
      Q () [⟨.unclosed c (Run.token opener), Run.token i.position⟩]
        (i.skip ((probeLength? resume 0 i.rest).getD 0)) := by
  simp only [unclosed, ensures_bind, ensures_reportHere, ensures_rest, List.nil_append]
  cases h : probeLength? resume 0 i.rest with
  | none => simp [ensures_pure, Input.skip]
  | some n => simp [ensures_skip]

section Moving

variable {C : Cause Run → Prop}

theorem leftovers_moves {c : Construct} (hC : C (.leftover c)) (stop : TagSet)
    (lineSensitive : Bool) (i : Input) :
    (leftovers c stop lineSensitive).Ensures i fun _ rs j => Moves C i rs j := by
  rw [ensures_leftovers]
  refine ⟨fun _ => .refl i, ?_⟩
  rintro n rfl hn
  exact .leftover hC (Nat.pos_of_ne_zero hn) (captureLength_le _ _ _ _ _)

/-- The search for a token to go on at leads no further than the end. -/
theorem probe_le (resume : TagSet) (ts : List Terminal) :
    (probeLength? resume 0 ts).getD 0 ≤ ts.length := by
  cases h : probeLength? resume 0 ts with
  | none => exact Nat.zero_le _
  | some n => exact Nat.le_of_lt (probeLength?_lt h)

theorem unclosed_moves {c : Construct} {opener : Nat} (hC : C (.unclosed c (Run.token opener)))
    (resume : TagSet) (h : opener < i.position) :
    (unclosed c opener resume).Ensures i fun _ rs j => Moves C i rs j := by
  rw [ensures_unclosed]
  exact .single (Input.ahead_skip (probe_le resume i.rest))
    ⟨Nat.le_refl _, Nat.le_add_right _ _, rfl, opener, h, rfl⟩ hC

theorem invalidToken_moves (hC : C .invalidToken) (hkind : i.kind = .invalid) :
    invalidToken.Ensures i fun place rs j =>
      Moves C i rs j ∧ place = ⟨i.position, j.position⟩ ∧ i.position < j.position := by
  have hne : i.rest ≠ [] := Input.rest_ne_nil_of_kind (by rw [hkind]; nofun)
  have hp := Input.position_next hne
  rw [ensures_invalidToken]
  refine ⟨.single i.ahead_next ⟨Nat.le_refl _, ?_, ?_, ?_⟩ hC, ?_, ?_⟩ <;>
    simp only [hp, Run.token] <;> omega

end Moving

/-! ## 4. Leftovers between statements -/

/-- In front of a terminal that is no stop and no closing bracket, leftovers take something. -/
theorem captureLength_pos {stop : TagSet} {lineSensitive : Bool} {t : Terminal}
    {ts : List Terminal} (hstop : stop.contains t.kind = false) (hclose : t.kind.isCloser = false) :
    0 < captureLength stop lineSensitive 0 false (t :: ts) := by
  simp [captureLength, endsCapture, hstop, hclose]

/-- What does not close anything is no stop between statements. -/
theorem leftoverStop_contains {c : Construct} {k : Kind String} (h : k.isCloser = false) :
    (leftoverStop c).contains k = false := by
  cases k with
  | fixed f => cases c <;> cases f <;> first | rfl | exact absurd h (by decide)
  | _ => cases c <;> rfl

/-- **Leftovers between statements take at least one terminal,** and give one report of exactly
what they take. -/
theorem junk_reads (c : Construct) (h : i.rest ≠ []) :
    (junk c).Ensures i fun _ rs j => ∃ n, 0 < n ∧ n ≤ i.rest.length ∧ j = i.skip n ∧
      rs = [⟨.leftover c, ⟨i.position, i.position + n⟩⟩] := by
  obtain ⟨t, ts, hts⟩ := List.exists_cons_of_ne_nil h
  simp only [junk, ensures_bind, ensures_kind]
  split
  · rw [ensures_strayCloser]
    exact ⟨1, Nat.one_pos, by simp [hts], Input.next_eq_skip h, rfl⟩
  · rename_i hclose
    have hclose : i.kind.isCloser = false := by simpa using hclose
    have hpos : 0 < captureLength (leftoverStop c) true 0 false i.rest := by
      rw [hts]
      rw [Input.kind_eq_head hts] at hclose
      exact captureLength_pos (leftoverStop_contains hclose) hclose
    rw [ensures_leftovers]
    refine ⟨fun h0 => absurd h0 (Nat.ne_of_gt hpos), ?_⟩
    rintro n rfl -
    exact ⟨_, hpos, captureLength_le _ _ _ _ _, rfl, rfl⟩

end Parser

end PlatformGate
