/-
# The scans stop at the first place where they can

Whether leftovers can end in front of a terminal can be told without running the scan: from that
terminal, and from how many brackets open and close in front of it (`EndsCaptureAt`).  The same
holds of the terminals at which a search can resume (`ResumesAt`).  Both scans stop at the least
such place (`isLeast_captureLength`, `isLeast_probeLength?`), and a search fails only where there is
none (`not_resumesAt_of_probeLength?`).

The two count differently.  Leftovers end in front of a closing bracket that closes nothing, so
their depth is the number of opening brackets less that of closing ones.  A search passes such a
bracket and does not count it; for it, depth 0 means that no stretch up to there opens more brackets
than it closes (`depthBehind_eq_zero_iff`).

Each induction is on the terminals, with the depth in front of them left open.  Behind the first
terminal the places are those among the others, moved by one.  `isLeast_shift` says so, and later
carries the result from what is left of a source to the indexes of its tokens.
-/
import Mathlib.Order.Bounds.Basic
import PlatformGate.Proofs.Parse.Depth
import PlatformGate.Proofs.Query.Passing

namespace PlatformGate

open Terminal

/-- The least index moves along with the indexes. -/
theorem isLeast_shift {P Q : Nat → Prop} {s k : Nat} (hfrom : ∀ p, Q p → s ≤ p)
    (hshift : ∀ n, Q (n + s) ↔ P n) (h : IsLeast {n | P n} k) : IsLeast {p | Q p} (k + s) := by
  obtain ⟨hk, hleast⟩ := h
  constructor
  · exact (hshift k).mpr hk
  · intro p hp
    obtain ⟨n, rfl⟩ := Nat.exists_eq_add_of_le' (hfrom p hp)
    exact Nat.add_le_add_right (hleast ((hshift n).mp hp)) s

/-! ## 1. Where leftovers end -/

section Leftovers

variable {stop : TagSet} {lineSensitive begun : Bool} {depth n : Nat} {t : Terminal}
  {ts : List Terminal}

/-- Leftovers can end in front of the `n`th terminal: nothing is left there; or all brackets are
closed, also those that were open before, and the terminal ends leftovers that are not in
brackets. -/
def EndsCaptureAt (stop : TagSet) (lineSensitive : Bool) (depth : Nat) (begun : Bool)
    (ts : List Terminal) (n : Nat) : Prop :=
  n = ts.length ∨ closed (ts.take n) = depth + opened (ts.take n) ∧
    ∃ t, ts[n]? = some t ∧ endsCapture stop lineSensitive 0 (begun || decide (0 < n)) t = true

theorem endsCaptureAt_zero :
    EndsCaptureAt stop lineSensitive depth begun (t :: ts) 0 ↔
      endsCapture stop lineSensitive depth begun t = true := by
  unfold EndsCaptureAt endsCapture
  simp [closed, opened, eq_comm (a := 0)]

/-- Behind a terminal that leftovers take, they end where the others do. -/
theorem endsCaptureAt_succ (h : endsCapture stop lineSensitive depth begun t = false) :
    EndsCaptureAt stop lineSensitive depth begun (t :: ts) (n + 1) ↔
      EndsCaptureAt stop lineSensitive (t.depthAfter depth) true ts n := by
  have hcount := depthAfter_add_closed h
  have hdepth : closed ((t :: ts).take (n + 1)) = depth + opened ((t :: ts).take (n + 1)) ↔
      closed (ts.take n) = t.depthAfter depth + opened (ts.take n) := by
    rw [List.take_succ_cons, opened_cons, closed_cons]
    omega
  unfold EndsCaptureAt
  rw [hdepth]
  simp

/-- **Leftovers end at the first place where they can.** -/
theorem isLeast_captureLength (stop : TagSet) (lineSensitive : Bool) (depth : Nat) (begun : Bool)
    (ts : List Terminal) :
    IsLeast {n | EndsCaptureAt stop lineSensitive depth begun ts n}
      (captureLength stop lineSensitive depth begun ts) := by
  induction ts generalizing depth begun with
  | nil => exact ⟨.inl rfl, fun n _ => Nat.zero_le n⟩
  | cons t ts ih =>
    rw [captureLength]
    by_cases hends : endsCapture stop lineSensitive depth begun t = true
    · rw [if_pos hends]
      exact ⟨endsCaptureAt_zero.mpr hends, fun n _ => Nat.zero_le n⟩
    · rw [if_neg hends]
      have htakes := Bool.eq_false_iff.mpr hends
      refine isLeast_shift ?_ (fun n => endsCaptureAt_succ htakes) (ih _ true)
      intro n hn
      apply Nat.pos_of_ne_zero
      rintro rfl
      exact hends (endsCaptureAt_zero.mp hn)

end Leftovers

/-! ## 2. Where a search resumes -/

section Search

variable {resume : TagSet} {depth n : Nat} {t : Terminal} {ts : List Terminal}

/-- No search passes the terminal outside of brackets. -/
def Terminal.endsSearch (t : Terminal) : Bool := t.beginsStatement || t.kind == .fixed .rbrace

/-- A search can resume at the `n`th terminal, behind so many open brackets: the terminal is in the
set and at depth 0, and no terminal in front of it ends the search. -/
structure ResumesAt (resume : TagSet) (depth : Nat) (ts : List Terminal) (n : Nat) : Prop where
  found : ∃ t, ts[n]? = some t ∧ resume.contains t.kind = true
  outside : depthBehind depth (ts.take n) = 0
  passes : ∀ m t, m < n → ts[m]? = some t → depthBehind depth (ts.take m) = 0 →
    t.endsSearch = false

theorem resumesAt_zero :
    ResumesAt resume depth (t :: ts) 0 ↔ depth = 0 ∧ resume.contains t.kind = true := by
  constructor
  · rintro ⟨⟨u, hu, hin⟩, hdepth, -⟩
    obtain rfl := Option.some.inj hu
    exact ⟨hdepth, hin⟩
  · rintro ⟨hdepth, hin⟩
    exact ⟨⟨t, rfl, hin⟩, hdepth, fun m _ hm => absurd hm (Nat.not_lt_zero m)⟩

/-- Behind a terminal that the search passes, it resumes where it does among the others. -/
theorem resumesAt_succ :
    ResumesAt resume depth (t :: ts) (n + 1) ↔
      (depth = 0 → t.endsSearch = false) ∧ ResumesAt resume (t.depthAfter depth) ts n := by
  constructor
  · rintro ⟨hfound, hdepth, hpasses⟩
    refine ⟨hpasses 0 t (Nat.succ_pos n) rfl, hfound, hdepth, ?_⟩
    intro m u hm hu
    exact hpasses (m + 1) u (Nat.succ_lt_succ hm) hu
  · rintro ⟨hfirst, hfound, hdepth, hpasses⟩
    refine ⟨hfound, hdepth, ?_⟩
    intro m u hm hu hzero
    cases m with
    | zero =>
      obtain rfl := Option.some.inj hu
      exact hfirst hzero
    | succ m => exact hpasses m u (Nat.lt_of_succ_lt_succ hm) hu hzero

/-- **A search that succeeds resumes at the first place where it can.** -/
theorem isLeast_probeLength? (h : probeLength? resume depth ts = some n) :
    IsLeast {m | ResumesAt resume depth ts m} n := by
  induction ts generalizing depth n with
  | nil => simp [probeLength?] at h
  | cons t ts ih =>
    rw [probeLength?] at h
    split at h
    · rename_i hfound
      obtain rfl := Option.some.inj h
      obtain ⟨hdepth, hin⟩ := Bool.and_eq_true_iff.mp hfound
      exact ⟨resumesAt_zero.mpr ⟨beq_iff_eq.mp hdepth, hin⟩, fun m _ => Nat.zero_le m⟩
    · rename_i hnot
      split at h
      · simp at h
      · rename_i hgoes
        obtain ⟨k, hk, rfl⟩ := Option.map_eq_some_iff.mp h
        have hfirst : depth = 0 → t.endsSearch = false := by
          rintro rfl
          exact Bool.eq_false_iff.mpr hgoes
        refine isLeast_shift ?_ (fun m => resumesAt_succ.trans (and_iff_right hfirst)) (ih hk)
        intro m hm
        apply Nat.pos_of_ne_zero
        rintro rfl
        obtain ⟨rfl, hin⟩ := resumesAt_zero.mp hm
        exact hnot hin

/-- **A search that fails can resume nowhere.** -/
theorem not_resumesAt_of_probeLength? (h : probeLength? resume depth ts = none) :
    ¬ ResumesAt resume depth ts n := by
  induction ts generalizing depth n with
  | nil =>
    rintro ⟨⟨t, ht, -⟩, -, -⟩
    simp at ht
  | cons t ts ih =>
    intro hn
    rw [probeLength?] at h
    split at h
    · simp at h
    · rename_i hnot
      cases n with
      | zero =>
        obtain ⟨rfl, hin⟩ := resumesAt_zero.mp hn
        exact hnot hin
      | succ n =>
        obtain ⟨hfirst, hrest⟩ := resumesAt_succ.mp hn
        split at h
        · rename_i hbars
          obtain ⟨hdepth, hbars⟩ := Bool.and_eq_true_iff.mp hbars
          exact Bool.eq_false_iff.mp (hfirst (beq_iff_eq.mp hdepth)) hbars
        · exact ih (Option.map_eq_none_iff.mp h) hrest

end Search

/-! ## 3. Outside of all brackets -/

/-- **Depth 0 by counting.**  What is open in front is closed again, and no stretch up to the last
terminal opens more brackets than it closes. -/
theorem depthBehind_eq_zero_iff {depth : Nat} {ts : List Terminal} :
    depthBehind depth ts = 0 ↔
      depth + opened ts ≤ closed ts ∧ ∀ n, opened (ts.drop n) ≤ closed (ts.drop n) := by
  induction ts generalizing depth with
  | nil => simp [depthBehind, opened, closed]
  | cons t ts ih =>
    have hbehind : depthBehind depth (t :: ts) = depthBehind (t.depthAfter depth) ts := rfl
    have hopened := opened_cons t ts
    have hclosed := closed_cons t ts
    rw [hbehind, ih, depthAfter_eq]
    constructor
    · rintro ⟨hdepth, hrest⟩
      refine ⟨by omega, fun n => ?_⟩
      cases n with
      | zero =>
        rw [List.drop_zero]
        omega
      | succ n => exact hrest n
    · rintro ⟨hdepth, hrest⟩
      have htail : opened ts ≤ closed ts := hrest 1
      exact ⟨by omega, fun n => hrest (n + 1)⟩

end PlatformGate
