/-
# What the scans pass over

Leftovers and the search for a token to go on at both count brackets, and both stop at a token of a
set only at depth 0.  `Terminal.Spared` says of some terminals that none of the set stands among them
at depth 0, counted from where they begin; so it says what a scan has not passed over.  Stretches read
one behind the other are put together by `Input.Spares.trans`, since each ends at depth 0 or with the
source.
-/
import PlatformGate.Proofs.Parse.Motion

namespace PlatformGate

/-! ## 1. Depth -/

namespace Terminal

variable {set stop : TagSet} {t : Terminal} {ts us : List Terminal} {depth : Nat}

/-- The depth behind some terminals. -/
def depthBehind (depth : Nat) (ts : List Terminal) : Nat := ts.foldl depthAfter depth

/-- No terminal of the set stands at depth 0. -/
def Spared (set : TagSet) (depth : Nat) : List Terminal → Prop
  | [] => True
  | t :: ts => (depth = 0 → set.contains t.kind = false) ∧ Spared set (t.depthAfter depth) ts

theorem depthBehind_append (depth : Nat) (ts us : List Terminal) :
    depthBehind depth (ts ++ us) = depthBehind (depthBehind depth ts) us :=
  List.foldl_append

theorem spared_append :
    Spared set depth (ts ++ us) ↔ Spared set depth ts ∧ Spared set (depthBehind depth ts) us := by
  induction ts generalizing depth with
  | nil => exact ⟨fun h => ⟨trivial, h⟩, And.right⟩
  | cons t ts ih =>
    rw [List.cons_append, Spared, Spared, ih, and_assoc]
    rfl

/-- Spared terminals, one by one. -/
theorem Spared.getElem (h : Spared set depth ts) {n : Nat} (hn : ts[n]? = some t)
    (hdepth : depthBehind depth (ts.take n) = 0) : set.contains t.kind = false := by
  induction ts generalizing depth n with
  | nil => simp at hn
  | cons u us ih =>
    obtain ⟨hfirst, hrest⟩ := h
    cases n with
    | zero =>
      obtain rfl : u = t := by simpa using hn
      exact hfirst hdepth
    | succ n => exact ih hrest (by simpa using hn) hdepth

/-- Only an opening bracket leads away from depth 0. -/
theorem depthAfter_zero (hopen : t.kind.isOpener = false) : t.depthAfter 0 = 0 := by
  simp [depthAfter, hopen]

end Terminal

open Terminal

variable {set stop : TagSet} {depth : Nat} {ts : List Terminal}

/-- **Leftovers pass over no stop token.**  They end at depth 0 or with the source. -/
theorem captureLength_spares
    (hstop : ∀ k : Kind String, set.contains k = true → stop.contains k = true)
    (lineSensitive begun : Bool) (depth : Nat) (ts : List Terminal) :
    let n := captureLength stop lineSensitive depth begun ts
    Spared set depth (ts.take n) ∧ (depthBehind depth (ts.take n) = 0 ∨ ts.drop n = []) := by
  induction ts generalizing depth begun with
  | nil => exact ⟨trivial, .inr rfl⟩
  | cons t ts ih =>
    rw [captureLength]
    split
    · rename_i hends
      have hdepth : depth = 0 := by
        simp only [endsCapture, Bool.and_eq_true, beq_iff_eq] at hends
        exact hends.1
      exact ⟨trivial, .inl hdepth⟩
    · rename_i hgoes
      obtain ⟨hspared, hend⟩ := ih true (t.depthAfter depth)
      refine ⟨⟨fun hdepth => ?_, hspared⟩, hend⟩
      rw [← Bool.not_eq_true]
      intro hin
      apply hgoes
      simp [endsCapture, hdepth, hstop _ hin]

/-- **The search passes over no token of its set,** and stops at depth 0 at the first. -/
theorem probeLength?_spares {n : Nat} (h : probeLength? set depth ts = some n) :
    Spared set depth (ts.take n) ∧ depthBehind depth (ts.take n) = 0 ∧
      ∃ t, ts[n]? = some t ∧ set.contains t.kind = true := by
  induction ts generalizing depth n with
  | nil => simp [probeLength?] at h
  | cons t ts ih =>
    rw [probeLength?] at h
    split at h
    · rename_i hfound
      obtain rfl : 0 = n := by simpa using h
      obtain ⟨hdepth, hin⟩ := Bool.and_eq_true_iff.mp hfound
      exact ⟨trivial, beq_iff_eq.mp hdepth, t, rfl, hin⟩
    · rename_i hgoes
      split at h
      · simp at h
      · obtain ⟨m, hm, rfl⟩ := Option.map_eq_some_iff.mp h
        obtain ⟨hspared, hend, hfound⟩ := ih hm
        refine ⟨⟨fun hdepth => ?_, hspared⟩, hend, by simpa using hfound⟩
        rw [← Bool.not_eq_true]
        intro hin
        exact hgoes (by simp [hdepth, hin])

/-! ## 2. Stretches of the input -/

namespace Input

variable {i j k : Input}

/-- Between `i` and `j` no token of the set was read at depth 0.  Reading stopped at depth 0 or with
the source. -/
def Spares (set : TagSet) (i j : Input) : Prop :=
  ∃ us, i.rest = us ++ j.rest ∧ j.position = i.position + us.length ∧ Spared set 0 us ∧
    (depthBehind 0 us = 0 ∨ j.rest = [])

theorem Spares.refl (i : Input) : Spares set i i := ⟨[], rfl, rfl, trivial, .inl rfl⟩

theorem Spares.ahead (h : Spares set i j) : i.Ahead j := by
  obtain ⟨us, hus, hposition, -⟩ := h
  exact ⟨us, hus, hposition⟩

theorem Spares.trans (h : Spares set i j) (h' : Spares set j k) : Spares set i k := by
  obtain ⟨us, hus, hposition, hspared, hend⟩ := h
  obtain ⟨vs, hvs, hposition', hspared', hend'⟩ := h'
  rcases hend with hdepth | hnil
  · refine ⟨us ++ vs, ?_, ?_, ?_, ?_⟩
    · rw [hus, hvs, List.append_assoc]
    · rw [hposition', hposition, List.length_append, Nat.add_assoc]
    · rw [spared_append, hdepth]
      exact ⟨hspared, hspared'⟩
    · rwa [depthBehind_append, hdepth]
  · -- behind the end nothing is read
    rw [hnil] at hvs
    obtain ⟨rfl, hk⟩ := List.append_eq_nil_iff.mp hvs.symm
    refine ⟨us, ?_, hposition'.trans hposition, hspared, .inr hk⟩
    rw [hus, hnil, hk]

/-- A token that opens nothing and is none of the set. -/
theorem spares_next (hne : i.rest ≠ []) (hset : set.contains i.kind = false)
    (hopen : i.kind.isOpener = false) : Spares set i i.next := by
  obtain ⟨t, ts, hts⟩ := List.exists_cons_of_ne_nil hne
  rw [kind_eq_head hts] at hset hopen
  rw [next_eq_of_rest hts]
  exact ⟨[t], hts, rfl, ⟨fun _ => hset, trivial⟩, .inl (depthAfter_zero hopen)⟩

/-- Leftovers that stop at every token of the set. -/
theorem spares_capture
    (hstop : ∀ k : Kind String, set.contains k = true → stop.contains k = true)
    (lineSensitive : Bool) :
    Spares set i (i.skip (captureLength stop lineSensitive 0 false i.rest)) := by
  obtain ⟨hspared, hend⟩ := captureLength_spares hstop lineSensitive false 0 i.rest
  have hle := captureLength_le stop lineSensitive 0 false i.rest
  refine ⟨_, (List.take_append_drop _ i.rest).symm, ?_, hspared, hend⟩
  rw [List.length_take, Nat.min_eq_left hle]
  rfl

/-- The search for a token of the set, whether it succeeds or not. -/
theorem spares_probe (set : TagSet) (i : Input) :
    Spares set i (i.skip ((probeLength? set 0 i.rest).getD 0)) := by
  cases h : probeLength? set 0 i.rest with
  | none => exact .refl i
  | some n =>
    obtain ⟨hspared, hdepth, -⟩ := probeLength?_spares h
    refine ⟨_, (List.take_append_drop n i.rest).symm, ?_, hspared, .inl hdepth⟩
    rw [List.length_take, Nat.min_eq_left (Nat.le_of_lt (probeLength?_lt h))]
    rfl

end Input

end PlatformGate
