/-
# Which braces the scans cross

Both scans count brackets without telling them apart.  A `}` in front of which nothing of the run is
open ends the run (`captureLength_spares_closers`, `probeLength?_spares_blockEnd`).  But in broken
code a `}` may be taken for the partner of a `(` or `[` that the run has left open, and then the `}`
of an enclosing block is crossed.  `scans_keep_braces` says that it comes about in no other way: a
run closes no more braces than it opens, apart from those that close a bracket of another kind.
-/
import PlatformGate.Proofs.Query.Passing

namespace PlatformGate

/-! ## 1. Brackets left open -/

namespace Terminal

/-- The brackets that are open behind a terminal, the last one first.  A closing bracket closes the
last one, of whatever kind it is, as it does for the scans. -/
def openAfter (left : List (Kind String)) (t : Terminal) : List (Kind String) :=
  if t.kind.isOpener then t.kind :: left
  else if t.kind.isCloser then left.tail
  else left

/-- A `}` that closes a bracket of another kind. -/
def isMispaired (left : List (Kind String)) (t : Terminal) : Bool :=
  t.kind == .fixed .rbrace && left.head?.any (· != .fixed .lbrace)

/-- How many `}` close a bracket of another kind. -/
def mispaired (left : List (Kind String)) : List Terminal → Nat
  | [] => 0
  | t :: ts => (t.isMispaired left).toNat + mispaired (t.openAfter left) ts

/-- How many terminals are the given token. -/
def count (f : Fixed) (ts : List Terminal) : Nat := ts.countP fun t => t.kind == .fixed f

variable {left : List (Kind String)} {t : Terminal} {ts us : List Terminal} {f : Fixed}

theorem count_cons : count f (t :: ts) = count f ts + (t.kind == .fixed f).toNat := by
  unfold count
  rw [List.countP_cons]
  cases t.kind == .fixed f <;> rfl

/-- The depth of the scans is the number of open brackets. -/
theorem length_openAfter : (t.openAfter left).length = t.depthAfter left.length := by
  unfold openAfter depthAfter
  split
  · rfl
  · split
    · exact List.length_tail
    · rfl

end Terminal

open Terminal

/-- The token that ends a block. -/
def TagSet.blockEnd : TagSet := ofFixed [.rbrace]

theorem TagSet.blockEnd_contains {k : Kind String} :
    blockEnd.contains k = true ↔ k = .fixed .rbrace := by
  cases k with
  | fixed f => cases f <;> decide
  | _ => exact ⟨nofun, nofun⟩

variable {set stop resume : TagSet} {ts : List Terminal}

/-! ## 2. A closing brace stands inside the run -/

/-- **Leftovers pass over no closing bracket at depth 0.** -/
theorem captureLength_spares_closers
    (hset : ∀ k : Kind String, set.contains k = true → k.isCloser = true)
    (lineSensitive begun : Bool) (depth : Nat) (ts : List Terminal) :
    Spared set depth (ts.take (captureLength stop lineSensitive depth begun ts)) := by
  induction ts generalizing depth begun with
  | nil => exact trivial
  | cons t ts ih =>
    rw [captureLength]
    split
    · exact trivial
    · rename_i hgoes
      refine ⟨fun hdepth => ?_, ih true (t.depthAfter depth)⟩
      rw [← Bool.not_eq_true]
      intro hin
      exact hgoes (by simp [endsCapture, hdepth, hset _ hin])

/-- **A search that succeeds has passed over no `}` at depth 0.** -/
theorem probeLength?_spares_blockEnd {depth n : Nat} (h : probeLength? resume depth ts = some n) :
    Spared TagSet.blockEnd depth (ts.take n) := by
  induction ts generalizing depth n with
  | nil => simp [probeLength?] at h
  | cons t ts ih =>
    rw [probeLength?] at h
    split at h
    · obtain rfl : 0 = n := by simpa using h
      exact trivial
    · split at h
      · simp at h
      · rename_i hgoes
        obtain ⟨m, hm, rfl⟩ := Option.map_eq_some_iff.mp h
        refine ⟨fun hdepth => ?_, ih hm⟩
        rw [← Bool.not_eq_true]
        intro hin
        exact hgoes (by simp [hdepth, TagSet.blockEnd_contains.mp hin])

/-! ## 3. Braces in pairs -/

namespace Terminal

variable {left : List (Kind String)} {t : Terminal}

/-- A closing bracket takes one bracket off.  A `}` takes off a `{`, or it is mispaired. -/
theorem count_tail (hleft : t.kind = .fixed .rbrace → left ≠ []) :
    (t.kind == .fixed .rbrace).toNat + left.tail.count (.fixed .lbrace) ≤
      left.count (.fixed .lbrace) + (t.isMispaired left).toNat := by
  by_cases hbrace : t.kind = .fixed .rbrace
  · obtain ⟨k, left, rfl⟩ := List.exists_cons_of_ne_nil (hleft hbrace)
    by_cases hk : k = .fixed .lbrace
    · simp [hbrace, hk, Nat.add_comm]
    · have hother : (k != .fixed .lbrace) = true := bne_iff_ne.mpr hk
      simp [isMispaired, hbrace, hk, hother, Nat.add_comm]
  · have htail := (List.tail_sublist left).count_le (.fixed .lbrace)
    rw [beq_false_of_ne hbrace, Bool.toNat_false]
    omega

/-- **One terminal.**  Braces closed and braces open grow by no more than the braces opened, but for
a `}` that closes a bracket of another kind. -/
theorem count_openAfter (hleft : t.kind = .fixed .rbrace → left ≠ []) :
    (t.kind == .fixed .rbrace).toNat + (t.openAfter left).count (.fixed .lbrace) ≤
      (t.kind == .fixed .lbrace).toNat + left.count (.fixed .lbrace) +
        (t.isMispaired left).toNat := by
  by_cases hopen : t.kind.isOpener = true
  · have hbrace : t.kind ≠ .fixed .rbrace := fun h => by rw [h] at hopen; exact absurd hopen nofun
    rw [openAfter, if_pos hopen, List.count_cons, beq_false_of_ne hbrace, Bool.toNat_false]
    cases t.kind == .fixed .lbrace with
    | false => simp
    | true =>
      simp only [Bool.toNat_true, ↓reduceIte]
      omega
  · by_cases hclose : t.kind.isCloser = true
    · rw [openAfter, if_neg hopen, if_pos hclose]
      have := count_tail hleft
      omega
    · have hbrace : t.kind ≠ .fixed .rbrace := fun h => hclose (by rw [h]; rfl)
      rw [openAfter, if_neg hopen, if_neg hclose, beq_false_of_ne hbrace, Bool.toNat_false]
      omega

/-- **Any number of terminals.**  The induction is on the terminals; what is open in front of them
carries it. -/
theorem count_le_of_spared (left : List (Kind String)) (h : Spared TagSet.blockEnd left.length ts) :
    count .rbrace ts ≤ count .lbrace ts + left.count (.fixed .lbrace) + mispaired left ts := by
  induction ts generalizing left with
  | nil => exact Nat.zero_le _
  | cons t ts ih =>
    obtain ⟨hfirst, hrest⟩ := h
    have hleft : t.kind = .fixed .rbrace → left ≠ [] := by
      rintro hbrace rfl
      exact absurd (hfirst rfl) (by rw [hbrace]; decide)
    have hone := count_openAfter hleft
    rw [← length_openAfter] at hrest
    have hmore := ih _ hrest
    rw [count_cons, count_cons, mispaired]
    omega

end Terminal

/-- The first terminals of a spared run are spared. -/
theorem Terminal.Spared.take {depth : Nat} (h : Spared set depth ts) (n : Nat) :
    Spared set depth (ts.take n) := by
  rw [← List.take_append_drop n ts] at h
  exact (spared_append.mp h).1

/-- The run that leftovers take. -/
def captured (stop : TagSet) (lineSensitive : Bool) (ts : List Terminal) : List Terminal :=
  ts.take (captureLength stop lineSensitive 0 false ts)

/-- The run that a search passes over.  A search that fails passes over nothing. -/
def passedOver (resume : TagSet) (ts : List Terminal) : List Terminal :=
  ts.take ((probeLength? resume 0 ts).getD 0)

theorem captured_spared (stop : TagSet) (lineSensitive : Bool) (ts : List Terminal) :
    Spared TagSet.blockEnd 0 (captured stop lineSensitive ts) := by
  refine captureLength_spares_closers (fun k hk => ?_) lineSensitive false 0 ts
  rw [TagSet.blockEnd_contains.mp hk]
  rfl

theorem passedOver_spared (resume : TagSet) (ts : List Terminal) :
    Spared TagSet.blockEnd 0 (passedOver resume ts) := by
  unfold passedOver
  cases h : probeLength? resume 0 ts with
  | none => exact trivial
  | some n => exact probeLength?_spares_blockEnd h

/-- **No scan closes a brace that was open in front of it,** unless it takes the `}` for the partner
of another bracket.  In whatever a scan has passed, at most as many braces close as open, apart from
those that close a bracket of another kind. -/
theorem scans_keep_braces (stop resume : TagSet) (lineSensitive : Bool) (ts : List Terminal)
    (n : Nat) :
    (let run := (captured stop lineSensitive ts).take n
     count .rbrace run ≤ count .lbrace run + mispaired [] run) ∧
    (let run := (passedOver resume ts).take n
     count .rbrace run ≤ count .lbrace run + mispaired [] run) := by
  constructor
  · exact count_le_of_spared [] ((captured_spared stop lineSensitive ts).take n)
  · exact count_le_of_spared [] ((passedOver_spared resume ts).take n)

/-- Behind `[` both scans cross a `}` that they have not opened. -/
theorem scans_cross_brace :
    let ts := [.lbracket, .rbrace, .lbrace].map fun f => Terminal.mk (.fixed f) false false
    captured TagSet.bodyStart false ts = ts.take 2 ∧ passedOver TagSet.bodyStart ts = ts.take 2 ∧
      count .lbrace (ts.take 2) < count .rbrace (ts.take 2) := by
  decide

end PlatformGate
