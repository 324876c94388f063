/-
# Brackets are counted without going below zero

The scan over leftovers counts brackets.  It stops in front of a closing bracket at depth 0, and so
takes from its count only what it has added before: in whatever it has passed, at most as many
brackets close as open.  The other way round, terminals whose brackets match are taken to the last
if nothing outside of the brackets stops the scan (`captureLength_enclosed`).
-/
import PlatformGate.Parse.Recovery

namespace PlatformGate

/-! ## 1. What leftovers have passed -/

/-- How many terminals open a bracket. -/
def opened (ts : List Terminal) : Nat := ts.countP fun t => t.kind.isOpener

/-- How many terminals close a bracket. -/
def closed (ts : List Terminal) : Nat := ts.countP fun t => t.kind.isCloser

theorem isCloser_of_isOpener {k : Kind String} (h : k.isOpener = true) : k.isCloser = false := by
  cases k with
  | fixed f => cases f <;> first | rfl | exact absurd h (by decide)
  | _ => rfl

theorem not_endsCapture_of_closer {stop : TagSet} {lineSensitive begun : Bool} {depth : Nat}
    {t : Terminal} (h : endsCapture stop lineSensitive depth begun t = false)
    (hclose : t.kind.isCloser = true) : 0 < depth := by
  apply Nat.pos_of_ne_zero
  rintro rfl
  simp [endsCapture, hclose] at h

/-- A terminal adds what it opens to the depth and takes off what it closes, as far as there is
something to close. -/
theorem depthAfter_eq {depth : Nat} {t : Terminal} :
    t.depthAfter depth = depth + opened [t] - closed [t] := by
  unfold Terminal.depthAfter closed opened
  rw [List.countP_singleton, List.countP_singleton]
  by_cases hopen : t.kind.isOpener = true
  · simp [hopen, isCloser_of_isOpener hopen]
  · by_cases hclose : t.kind.isCloser = true
    · simp [hopen, hclose]
    · simp [hopen, hclose]

/-- The depth behind a terminal counts what it opens and closes, if there is something to close. -/
theorem depthAfter_add_closed_of_pos {depth : Nat} {t : Terminal}
    (h : t.kind.isCloser = true → 0 < depth) :
    t.depthAfter depth + closed [t] = depth + opened [t] := by
  rw [depthAfter_eq]
  apply Nat.sub_add_cancel
  rw [closed, List.countP_singleton]
  split
  · rename_i hclose
    exact Nat.le_add_right_of_le (h hclose)
  · exact Nat.zero_le _

/-- The depth behind a terminal that leftovers take counts what it opens and closes. -/
theorem depthAfter_add_closed {stop : TagSet} {lineSensitive begun : Bool} {depth : Nat}
    {t : Terminal} (h : endsCapture stop lineSensitive depth begun t = false) :
    t.depthAfter depth + closed [t] = depth + opened [t] :=
  depthAfter_add_closed_of_pos (not_endsCapture_of_closer h)

theorem opened_cons (t : Terminal) (ts : List Terminal) :
    opened (t :: ts) = opened [t] + opened ts := by
  change List.countP _ ([t] ++ ts) = _
  exact List.countP_append

theorem closed_cons (t : Terminal) (ts : List Terminal) :
    closed (t :: ts) = closed [t] + closed ts := by
  change List.countP _ ([t] ++ ts) = _
  exact List.countP_append

/-- **Leftovers never close more than was open.**  The induction is on the terminals; the depth in
front of them is what earlier ones have opened. -/
theorem closed_le_captured (stop : TagSet) (lineSensitive : Bool) (ts : List Terminal) :
    ∀ (depth : Nat) (begun : Bool) (n : Nat),
      n ≤ captureLength stop lineSensitive depth begun ts →
        closed (ts.take n) ≤ depth + opened (ts.take n) := by
  induction ts with
  | nil =>
    intro depth begun n _
    simp [closed]
  | cons t ts ih =>
    intro depth begun n hn
    cases n with
    | zero => simp [closed]
    | succ n =>
      rw [captureLength] at hn
      by_cases hend : endsCapture stop lineSensitive depth begun t = true
      · rw [if_pos hend] at hn
        exact absurd hn (Nat.not_succ_le_zero n)
      · rw [if_neg hend] at hn
        have hrest := ih (t.depthAfter depth) true n (Nat.le_of_succ_le_succ hn)
        have hcount := depthAfter_add_closed (Bool.eq_false_iff.mpr hend)
        rw [List.take_succ_cons, opened_cons, closed_cons]
        omega

/-- **Leftovers close all that they open,** unless the source ends. -/
theorem closed_eq_captured (stop : TagSet) (lineSensitive : Bool) (ts : List Terminal) :
    ∀ (depth : Nat) (begun : Bool),
      let n := captureLength stop lineSensitive depth begun ts
      closed (ts.take n) = depth + opened (ts.take n) ∨ ts.drop n = [] := by
  induction ts with
  | nil => exact fun _ _ => .inr rfl
  | cons t ts ih =>
    intro depth begun
    rw [captureLength]
    by_cases hend : endsCapture stop lineSensitive depth begun t = true
    · have hdepth : depth = 0 := by
        simp only [endsCapture, Bool.and_eq_true, beq_iff_eq] at hend
        exact hend.1
      rw [if_pos hend, hdepth]
      exact .inl (by simp [closed, opened])
    · rw [if_neg hend]
      have hcount := depthAfter_add_closed (Bool.eq_false_iff.mpr hend)
      refine (ih (t.depthAfter depth) true).imp (fun hrest => ?_) id
      rw [List.take_succ_cons, opened_cons, closed_cons]
      omega

/-! ## 2. What leftovers pass -/

/-- Behind so many open brackets, the brackets among the terminals match: they never close more than
is open, and all is closed behind the last.  Outside of the brackets there is no stop token and no
statement begins. -/
structure Enclosed (stop : TagSet) (depth : Nat) (ts : List Terminal) : Prop where
  never_below : ∀ n, closed (ts.take n) ≤ depth + opened (ts.take n)
  closes : closed ts = depth + opened ts
  outside : ∀ n t, ts[n]? = some t → closed (ts.take n) = depth + opened (ts.take n) →
    stop.contains t.kind = false ∧ t.beginsStatement = false

section Enclosed

variable {stop : TagSet} {depth : Nat} {t : Terminal} {ts : List Terminal}

theorem enclosed_nil : Enclosed stop depth [] ↔ depth = 0 := by
  constructor
  · exact fun h => h.closes.symm
  · rintro rfl
    exact ⟨fun n => by simp [closed], rfl, fun n t ht => absurd ht nofun⟩

/-- The brackets of terminals match if they do behind the first, and that closes something. -/
theorem enclosed_cons : Enclosed stop depth (t :: ts) ↔
    (depth = 0 →
      stop.contains t.kind = false ∧ t.beginsStatement = false ∧ t.kind.isCloser = false) ∧
    Enclosed stop (t.depthAfter depth) ts := by
  constructor
  · intro h
    have hcloser : t.kind.isCloser = true → 0 < depth := by
      intro hclose
      have hbelow := h.never_below 1
      have hopen : t.kind.isOpener = false :=
        Bool.eq_false_iff.mpr fun hopen => by simp [isCloser_of_isOpener hopen] at hclose
      simp only [List.take_succ_cons, List.take_zero, closed, opened, List.countP_singleton, hclose,
        hopen, if_true, Bool.false_eq_true, if_false] at hbelow
      omega
    have hcount := depthAfter_add_closed_of_pos hcloser
    refine ⟨fun hdepth => ?_, ⟨fun n => ?_, ?_, fun n u hu heq => ?_⟩⟩
    · obtain ⟨hstop, hbegins⟩ := h.outside 0 t rfl (by simp [closed, opened, hdepth])
      refine ⟨hstop, hbegins, Bool.eq_false_iff.mpr fun hclose => ?_⟩
      exact Nat.ne_of_gt (hcloser hclose) hdepth
    · have hbelow := h.never_below (n + 1)
      rw [List.take_succ_cons, opened_cons, closed_cons] at hbelow
      omega
    · have hcloses := h.closes
      rw [opened_cons, closed_cons] at hcloses
      omega
    · refine h.outside (n + 1) u hu ?_
      rw [List.take_succ_cons, opened_cons, closed_cons]
      omega
  · rintro ⟨hfirst, h⟩
    have hcloser : t.kind.isCloser = true → 0 < depth := fun hclose =>
      Nat.pos_of_ne_zero fun hdepth => by simp [(hfirst hdepth).2.2] at hclose
    have hcount := depthAfter_add_closed_of_pos hcloser
    refine ⟨fun n => ?_, ?_, fun n u hu heq => ?_⟩
    · cases n with
      | zero => simp [closed]
      | succ n =>
        have hbelow := h.never_below n
        rw [List.take_succ_cons, opened_cons, closed_cons]
        omega
    · have hcloses := h.closes
      rw [opened_cons, closed_cons]
      omega
    · cases n with
      | zero =>
        obtain rfl := Option.some.inj hu
        have hdepth : depth = 0 := by simpa [closed, opened] using heq.symm
        exact ⟨(hfirst hdepth).1, (hfirst hdepth).2.1⟩
      | succ n =>
        refine h.outside n u hu ?_
        rw [List.take_succ_cons, opened_cons, closed_cons] at heq
        omega

/-- Whether brackets match can be told from left to right. -/
instance decidableEnclosed (stop : TagSet) :
    ∀ (depth : Nat) (ts : List Terminal), Decidable (Enclosed stop depth ts)
  | _, [] => decidable_of_iff _ enclosed_nil.symm
  | depth, t :: ts =>
    have := decidableEnclosed stop (t.depthAfter depth) ts
    decidable_of_iff _ enclosed_cons.symm

/-- Only a closing bracket is a stop because `)` is one. -/
theorem TagSet.contains_insert_rparen (stop : TagSet) {k : Kind String}
    (h : k.isCloser = false) : (stop.insert (.fixed .rparen)).contains k = stop.contains k := by
  cases k with
  | fixed f => cases f <;> first | rfl | exact absurd h nofun
  | _ => rfl

/-- **Leftovers take all that is enclosed,** up to a closing bracket behind it.  The induction is on
the terminals; the depth in front of them is what earlier ones have opened. -/
theorem captureLength_enclosed {close : Terminal} {rest : List Terminal}
    (hclose : close.kind = .fixed .rparen) (h : Enclosed stop depth ts) :
    captureLength (stop.insert (.fixed .rparen)) false depth true (ts ++ close :: rest) =
      ts.length := by
  induction ts generalizing depth with
  | nil =>
    obtain rfl := enclosed_nil.mp h
    have hend : close.kind.isCloser = true := by
      rw [hclose]
      rfl
    simp [captureLength, endsCapture, hend]
  | cons t ts ih =>
    obtain ⟨hfirst, h⟩ := enclosed_cons.mp h
    have hgo : endsCapture (stop.insert (.fixed .rparen)) false depth true t = false := by
      by_cases hdepth : depth = 0
      · obtain ⟨hstop, hbegins, hopen⟩ := hfirst hdepth
        have hparen := TagSet.contains_insert_rparen stop hopen
        rw [Terminal.beginsStatement] at hbegins
        simp [endsCapture, hparen, hstop, hopen, hbegins]
      · simp [endsCapture, hdepth]
    rw [List.cons_append, captureLength, hgo, if_neg Bool.false_ne_true, ih h, List.length_cons]

end Enclosed

end PlatformGate
