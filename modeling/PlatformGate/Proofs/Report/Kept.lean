/-
# What a sink keeps

Errors and warnings come in any order, and they share the storage but not the count.  The sink
decides from two counters, before it changes either of them, whether one more error is kept; what it
means to decide is which errors are the first.  The invariant that joins the two says of each error
how many came before it (`Emission.keptBehind`), so the warnings between them do not matter, and
neither do the errors that were held back: the errors kept and the errors held back add up to the
errors that came (`Emission.countP_kept`), and there are never more kept than the limit.
-/
import Mathlib.Data.List.Induction
import PlatformGate.Report.Sink

namespace PlatformGate

/-! ## 1. What comes, and what of it is to be kept -/

/-- One thing that a sink is told. -/
inductive Emission
  | error (d : Diagnostic)
  | warning (d : Diagnostic)
  deriving DecidableEq, Repr

namespace Emission

def isError : Emission → Bool
  | error _ => true
  | warning _ => false

def diagnostic : Emission → Diagnostic
  | error d => d
  | warning d => d

/-- A warning is always kept, an error if fewer errors than the limit came before it. -/
def keptBehind (limit : Nat) (before : List Emission) (e : Emission) : Bool :=
  !e.isError || limit == 0 || decide (before.countP isError < limit)

/-- The emissions, in order, that pass a test of what came before each. -/
def picked (test : List Emission → Emission → Bool) (es : List Emission) : List Emission :=
  (es.zipIdx.filter fun p => test (es.take p.2) p.1).map Prod.fst

/-- What is to be kept of what came. -/
def kept (limit : Nat) (es : List Emission) : List Emission := picked (keptBehind limit) es

/-- What is to be held back of what came. -/
def heldBack (limit : Nat) (es : List Emission) : List Emission :=
  picked (fun before e => !keptBehind limit before e) es

variable {limit : Nat} {es : List Emission} {e : Emission}

theorem picked_concat (test : List Emission → Emission → Bool) (es : List Emission) (e : Emission) :
    picked test (es ++ [e]) = picked test es ++ if test es e then [e] else [] := by
  -- the test of an emission sees what came before it and nothing of what comes later
  have hfront : es.zipIdx.filter (fun p => test ((es ++ [e]).take p.2) p.1) =
      es.zipIdx.filter fun p => test (es.take p.2) p.1 := by
    refine List.filter_congr fun p hp => ?_
    have hle : p.2 ≤ es.length := Nat.le_of_lt (List.snd_lt_of_mem_zipIdx hp)
    rw [List.take_append_of_le_length hle]
  have hlast : (es ++ [e]).take es.length = es := List.take_left
  rw [picked, picked, List.zipIdx_append, List.filter_append, hfront, List.map_append,
    List.zipIdx_singleton, Nat.zero_add, List.filter_cons, hlast]
  cases test es e <;> rfl

theorem kept_concat (limit : Nat) (es : List Emission) (e : Emission) :
    kept limit (es ++ [e]) = kept limit es ++ if keptBehind limit es e then [e] else [] :=
  picked_concat _ es e

theorem heldBack_concat (limit : Nat) (es : List Emission) (e : Emission) :
    heldBack limit (es ++ [e]) =
      heldBack limit es ++ if !keptBehind limit es e then [e] else [] :=
  picked_concat _ es e

@[simp] theorem keptBehind_warning (limit : Nat) (before : List Emission) (d : Diagnostic) :
    keptBehind limit before (.warning d) = true := rfl

/-- An error is kept if the limit leaves room behind the errors before it. -/
theorem keptBehind_error (limit : Nat) (before : List Emission) (d : Diagnostic) :
    keptBehind limit before (.error d) = true ↔ limit = 0 ∨ before.countP isError < limit := by
  simp [keptBehind, isError]

/-- **Every warning is kept.** -/
theorem warnings_kept (limit : Nat) (es : List Emission) :
    (kept limit es).filter (fun e => !e.isError) = es.filter fun e => !e.isError := by
  induction es using List.reverseRecOn with
  | nil => rfl
  | append_singleton es e ih =>
    rw [kept_concat, List.filter_append, List.filter_append, ih]
    cases e with
    | error d => split <;> rfl
    | warning d => rfl

/-- **The first errors are kept,** as many as the limit allows. -/
theorem errors_kept (limit : Nat) (es : List Emission) :
    (kept limit es).filter isError =
      if limit = 0 then es.filter isError else (es.filter isError).take limit := by
  induction es using List.reverseRecOn with
  | nil => simp [kept, picked]
  | append_singleton es e ih =>
    rw [kept_concat, List.filter_append, List.filter_append, ih]
    cases e with
    | warning d =>
      have hlast : [Emission.warning d].filter isError = [] := rfl
      rw [keptBehind_warning, if_pos rfl, hlast, List.append_nil, List.append_nil]
    | error d =>
      have hlast : [Emission.error d].filter isError = [.error d] := rfl
      have hkept := keptBehind_error limit es d
      rw [List.countP_eq_length_filter] at hkept
      rw [hlast]
      by_cases hzero : limit = 0
      · rw [if_pos hzero, if_pos hzero, if_pos (hkept.mpr (.inl hzero)), hlast]
      by_cases hroom : (es.filter isError).length < limit
      · have htake : (es.filter isError ++ [error d]).length ≤ limit := by
          rw [List.length_append]
          exact hroom
        rw [if_neg hzero, if_neg hzero, if_pos (hkept.mpr (.inr hroom)), hlast,
          List.take_of_length_le htake, List.take_of_length_le (Nat.le_of_lt hroom)]
      · have hfull := mt hkept.mp (not_or.mpr ⟨hzero, hroom⟩)
        rw [if_neg hzero, if_neg hzero, if_neg hfull, List.filter_nil, List.append_nil,
          List.take_append_of_le_length (Nat.le_of_not_lt hroom)]

/-- The errors kept and the errors held back are all the errors. -/
theorem countP_heldBack (limit : Nat) (es : List Emission) :
    (kept limit es).countP isError + (heldBack limit es).countP isError = es.countP isError := by
  induction es using List.reverseRecOn with
  | nil => rfl
  | append_singleton es e ih =>
    rw [kept_concat, heldBack_concat, List.countP_append, List.countP_append, List.countP_append]
    cases keptBehind limit es e <;> simp <;> omega

/-- There is room for one more error as long as fewer than the limit are kept. -/
theorem countP_kept_lt_iff (hlimit : limit ≠ 0) (es : List Emission) :
    (kept limit es).countP isError < limit ↔ es.countP isError < limit := by
  have hkept := congrArg List.length (errors_kept limit es)
  rw [if_neg hlimit, List.length_take, ← List.countP_eq_length_filter,
    ← List.countP_eq_length_filter] at hkept
  omega

/-- Never more errors are kept than the limit says. -/
theorem countP_kept_le (hlimit : limit ≠ 0) (es : List Emission) :
    (kept limit es).countP isError ≤ limit := by
  rw [List.countP_eq_length_filter, errors_kept, if_neg hlimit, List.length_take]
  exact Nat.min_le_left _ _

end Emission

/-! ## 2. The sink -/

namespace Sink

/-- The sink is told one thing. -/
def tell (s : Sink) : Emission → Sink
  | .error d => s.emit d
  | .warning d => s.emitWarning d

/-- The sink is told one thing after the other. -/
def tellAll (s : Sink) (es : List Emission) : Sink := es.foldl tell s

/-- The state of a sink that was told these things and nothing else. -/
structure Told (limit : Nat) (es : List Emission) (s : Sink) : Prop where
  limit_eq : s.limit = limit
  stored : s.stored = (Emission.kept limit es).map Emission.diagnostic
  counted : s.errorCount = es.countP Emission.isError
  suppressed : s.suppressed = (Emission.heldBack limit es).countP Emission.isError

variable {limit : Nat} {es : List Emission} {s : Sink}

theorem told_withLimit (limit : Nat) : Told limit [] (withLimit limit) := ⟨rfl, rfl, rfl, rfl⟩

/-- What the two counters differ by is the number of errors kept. -/
theorem Told.limitReached_iff (h : Told limit es s) :
    s.limitReached = true ↔
      0 < limit ∧ (Emission.kept limit es).countP Emission.isError = limit := by
  have hsum := Emission.countP_heldBack limit es
  have hle := fun h : limit ≠ 0 => Emission.countP_kept_le h es
  rw [limitReached, h.limit_eq, h.counted, h.suppressed]
  simp only [Bool.and_eq_true, decide_eq_true_eq]
  omega

/-- The sink keeps an error exactly if the errors that came before it leave room. -/
theorem Told.limitReached_eq (h : Told limit es s) (d : Diagnostic) :
    s.limitReached = !Emission.keptBehind limit es (.error d) := by
  have hreached := h.limitReached_iff
  have hkept := Emission.keptBehind_error limit es d
  have hroom := fun h : limit ≠ 0 => Emission.countP_kept_lt_iff h es
  have hle := fun h : limit ≠ 0 => Emission.countP_kept_le h es
  rw [← Bool.not_eq_eq_eq_not, Bool.eq_iff_iff, hkept, Bool.not_eq_true', ← Bool.not_eq_true,
    hreached]
  omega

/-- **One thing more.** -/
theorem Told.tell (h : Told limit es s) (e : Emission) : Told limit (es ++ [e]) (s.tell e) := by
  have hkept := Emission.kept_concat limit es e
  have hheld := Emission.heldBack_concat limit es e
  cases e with
  | warning d =>
    rw [Emission.keptBehind_warning, if_pos rfl] at hkept
    rw [Emission.keptBehind_warning, if_neg (by decide), List.append_nil] at hheld
    refine ⟨h.limit_eq, ?_, ?_, ?_⟩
    · rw [hkept, List.map_append, ← h.stored]
      rfl
    · rw [List.countP_append, ← h.counted]
      rfl
    · rw [hheld, ← h.suppressed]
      rfl
  | error d =>
    have hreached := h.limitReached_eq d
    rw [Sink.tell, emit]
    cases hroom : Emission.keptBehind limit es (.error d) with
    | true =>
      rw [hroom, if_pos rfl] at hkept
      rw [hroom, Bool.not_true, if_neg (by decide), List.append_nil] at hheld
      rw [hreached, hroom, if_neg (by decide)]
      refine ⟨h.limit_eq, ?_, ?_, ?_⟩
      · rw [hkept, List.map_append, ← h.stored]
        rfl
      · rw [List.countP_append, ← h.counted]
        rfl
      · rw [hheld, ← h.suppressed]
    | false =>
      rw [hroom, if_neg (by decide), List.append_nil] at hkept
      rw [hroom, Bool.not_false, if_pos rfl] at hheld
      rw [hreached, hroom, if_pos (by decide)]
      refine ⟨h.limit_eq, ?_, ?_, ?_⟩
      · rw [hkept, ← h.stored]
      · rw [List.countP_append, ← h.counted]
        rfl
      · rw [hheld, List.countP_append, ← h.suppressed]
        rfl

theorem Told.tellAll (h : Told limit es s) (es' : List Emission) :
    Told limit (es ++ es') (s.tellAll es') := by
  induction es' generalizing es s with
  | nil => rwa [List.append_nil]
  | cons e es' ih =>
    rw [List.append_cons]
    exact ih (h.tell e)

/-- Errors came if one was told. -/
theorem Told.hasErrors_iff (h : Told limit es s) :
    s.hasErrors = true ↔ ∃ d, Emission.error d ∈ es := by
  rw [hasErrors, decide_eq_true_eq, h.counted, List.countP_pos_iff]
  constructor
  · rintro ⟨e, he, hisError⟩
    cases e with
    | error d => exact ⟨d, he⟩
    | warning d => cases hisError
  · rintro ⟨d, hd⟩
    exact ⟨.error d, hd, rfl⟩

/-- The evidence that an error came is there exactly if one did. -/
theorem guarantee?_isSome (s : Sink) : s.guarantee?.isSome = s.hasErrors := by
  rw [guarantee?, ErrorGuarantee.ofCount?, hasErrors]
  split <;> simp [*]

/-- **A sink keeps the right records,** whatever the limit and in whatever order errors and warnings
come: all the warnings and the first errors, in the order in which they came and each as it was
told.  It counts every error, and of the counted errors those that it does not keep. -/
theorem keeps_told (limit : Nat) (es : List Emission) :
    ((withLimit limit).tellAll es).stored = (Emission.kept limit es).map Emission.diagnostic ∧
      (Emission.kept limit es).filter (fun e => !e.isError) = es.filter (fun e => !e.isError) ∧
      (Emission.kept limit es).filter Emission.isError =
        (if limit = 0 then es.filter Emission.isError
          else (es.filter Emission.isError).take limit) ∧
      ((withLimit limit).tellAll es).errorCount = es.countP Emission.isError ∧
      ((withLimit limit).tellAll es).suppressed =
        (Emission.heldBack limit es).countP Emission.isError ∧
      ((withLimit limit).tellAll es).suppressed ≤ ((withLimit limit).tellAll es).errorCount ∧
      (((withLimit limit).tellAll es).limitReached = true ↔
        0 < limit ∧ (Emission.kept limit es).countP Emission.isError = limit) ∧
      (((withLimit limit).tellAll es).hasErrors = true ↔ ∃ d, Emission.error d ∈ es) ∧
      (((withLimit limit).tellAll es).guarantee?.isSome = true ↔ ∃ d, Emission.error d ∈ es) := by
  have htold : Told limit es ((withLimit limit).tellAll es) := (told_withLimit limit).tellAll es
  have hsum := Emission.countP_heldBack limit es
  have hle : (Emission.heldBack limit es).countP Emission.isError ≤ es.countP Emission.isError := by
    omega
  refine ⟨htold.stored, Emission.warnings_kept limit es, Emission.errors_kept limit es,
    htold.counted, htold.suppressed, ?_, htold.limitReached_iff, htold.hasErrors_iff, ?_⟩
  · rw [htold.suppressed, htold.counted]
    exact hle
  · rw [guarantee?_isSome]
    exact htold.hasErrors_iff

/-- The third error finds no room, the warnings take none. -/
example (a b c v w : Diagnostic) :
    ((withLimit 2).tellAll [.error a, .warning v, .error b, .error c, .warning w]).stored =
      [a, v, b, w] := rfl

end Sink

end PlatformGate
