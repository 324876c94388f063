/-
# What a parser ensures

`p.Ensures i Q` says that reading `i` with `p` comes out as `Q` demands: of the value, of what was
reported and of what is left.  A parser is a chain of smaller ones, and `ensures_bind` takes the
chain apart; so one statement about each parser is enough for the parsers built from it, and no
proof looks inside a parser twice.

The only loop is `collect`.  It carries a number of rounds, and `collect_eq` says that this number
does not matter for an item that takes a terminal whenever it gives something: the loop is the
unbounded one.
-/
import PlatformGate.Parse.Statement

namespace PlatformGate

namespace Input

/-- Whether the next terminal is the first on its line. -/
def atLineStart (i : Input) : Bool := i.rest.head?.any Terminal.lineStart

/-- Whether a newline stands in front of the next terminal. -/
def afterNewline (i : Input) : Bool := i.rest.head?.any Terminal.newline

end Input

namespace Parser

variable {α β : Type} {i : Input}

/-- Reading `i` gives a value, reports and an input left over that are as `Q` demands. -/
def Ensures (p : Parser α) (i : Input) (Q : α → List (Report Run) → Input → Prop) : Prop :=
  Q (p i).value (p i).reports (p i).next

/-! ## 1. One rule for each step -/

section Rules

variable {Q : α → List (Report Run) → Input → Prop}

theorem Ensures.mono {Q' : α → List (Report Run) → Input → Prop} {p : Parser α}
    (h : p.Ensures i Q) (hQ : ∀ a rs j, Q a rs j → Q' a rs j) : p.Ensures i Q' :=
  hQ _ _ _ h

theorem Ensures.and {Q' : α → List (Report Run) → Input → Prop} {p : Parser α}
    (h : p.Ensures i Q) (h' : p.Ensures i Q') :
    p.Ensures i fun a rs j => Q a rs j ∧ Q' a rs j := ⟨h, h'⟩

/-- All that is asked about is what comes out. -/
theorem Ensures.of_eq {p q : Parser α} (h : q.Ensures i Q) (heq : p i = q i) : p.Ensures i Q := by
  unfold Ensures
  rw [heq]
  exact h

theorem ensures_pure {a : α} : (pure a : Parser α).Ensures i Q ↔ Q a [] i := Iff.rfl

theorem ensures_bind {Q : β → List (Report Run) → Input → Prop} {p : Parser α}
    {f : α → Parser β} :
    (p >>= f).Ensures i Q ↔
      p.Ensures i fun a rs j => (f a).Ensures j fun b rs' k => Q b (rs ++ rs') k := Iff.rfl

theorem ensures_quietly {Q : α × Bool → List (Report Run) → Input → Prop} {p : Parser α} :
    (quietly p).Ensures i Q ↔ p.Ensures i fun a rs j => Q (a, rs.isEmpty) rs j := Iff.rfl

end Rules

section Moving

variable {Q : Unit → List (Report Run) → Input → Prop}

theorem ensures_next : next.Ensures i Q ↔ Q () [] i.next := Iff.rfl

theorem ensures_skip {n : Nat} : (skip n).Ensures i Q ↔ Q () [] (i.skip n) := Iff.rfl

theorem ensures_report {cause : Cause Run} {place : Run} :
    (report cause place).Ensures i Q ↔ Q () [⟨cause, place⟩] i := Iff.rfl

theorem ensures_reportHere {cause : Cause Run} :
    (reportHere cause).Ensures i Q ↔ Q () [⟨cause, Run.token i.position⟩] i := Iff.rfl

end Moving

theorem ensures_position {Q : Nat → List (Report Run) → Input → Prop} :
    position.Ensures i Q ↔ Q i.position [] i := Iff.rfl

theorem ensures_kind {Q : Kind String → List (Report Run) → Input → Prop} :
    kind.Ensures i Q ↔ Q i.kind [] i := Iff.rfl

theorem ensures_rest {Q : List Terminal → List (Report Run) → Input → Prop} :
    rest.Ensures i Q ↔ Q i.rest [] i := Iff.rfl

theorem ensures_runFrom {Q : Run → List (Report Run) → Input → Prop} {start : Nat} :
    (runFrom start).Ensures i Q ↔ Q ⟨start, i.position⟩ [] i := Iff.rfl

theorem ensures_invalidToken {Q : Run → List (Report Run) → Input → Prop} :
    invalidToken.Ensures i Q ↔
      Q (Run.token i.position) [⟨.invalidToken, Run.token i.position⟩] i.next := Iff.rfl

section Asking

variable {Q : Bool → List (Report Run) → Input → Prop}

theorem ensures_atLineStart : atLineStart.Ensures i Q ↔ Q i.atLineStart [] i := Iff.rfl

theorem ensures_afterNewline : afterNewline.Ensures i Q ↔ Q i.afterNewline [] i := Iff.rfl

theorem ensures_atEnd :
    atEnd.Ensures i Q ↔ (i.rest = [] → Q true [] i) ∧ (i.rest ≠ [] → Q false [] i) := by
  have h : atEnd.Ensures i Q ↔ Q i.rest.isEmpty [] i := Iff.rfl
  rw [h]
  cases i.rest <;> simp

theorem ensures_check {f : Fixed} :
    (check f).Ensures i Q ↔
      (i.kind = .fixed f → Q true [] i) ∧ (i.kind ≠ .fixed f → Q false [] i) := by
  have h : (check f).Ensures i Q ↔ Q (i.kind == .fixed f) [] i := Iff.rfl
  rw [h]
  by_cases hf : i.kind = .fixed f
  · simp [hf]
  · simp [hf, beq_false_of_ne hf]

theorem ensures_eat {f : Fixed} :
    (eat f).Ensures i Q ↔
      (i.kind = .fixed f → Q true [] i.next) ∧ (i.kind ≠ .fixed f → Q false [] i) := by
  by_cases hf : i.kind = .fixed f <;> simp [Ensures, eat, hf]

end Asking

/-! ## 2. The loop

A statement is read by recursion, and inside it the same statements are only known of what is left
behind its first terminal.  So the rules ask for nothing about inputs longer than the one at
hand. -/

section Loop

variable {item : Parser (Option α)} {m : Nat}

/-- With at most `m` terminals left, an item that gives something has taken a terminal. -/
def AdvancesUpTo (m : Nat) (item : Parser (Option α)) : Prop :=
  ∀ i, i.rest.length ≤ m →
    item.Ensures i fun a? _ j => a?.isSome → j.rest.length < i.rest.length

/-- One round of a loop, with `again` for the rounds that follow. -/
def round (item : Parser (Option α)) (again : Parser (List α)) : Parser (List α) := do
  match ← item with
  | none => return []
  | some a => return a :: (← again)

theorem collectWithin_succ (n : Nat) :
    collectWithin item (n + 1) = round item (collectWithin item n) := rfl

/-- A round looks at the rounds that follow only where its item has stopped. -/
theorem round_congr {i : Input} {p q : Parser (List α)}
    (h : (item i).value.isSome → p (item i).next = q (item i).next) :
    round item p i = round item q i := by
  simp only [round, bind_apply]
  cases ha : (item i).value with
  | none => rfl
  | some a => simp only [bind_apply, h (by simp [ha])]

/-- **More rounds than terminals are never used up.**  Any two such numbers give the same. -/
theorem collectWithin_congr (h : AdvancesUpTo m item) :
    ∀ (n k : Nat) (i : Input), i.rest.length ≤ m → i.rest.length < n → i.rest.length < k →
      collectWithin item n i = collectWithin item k i
  | 0, _, _, _, hn, _ => absurd hn (Nat.not_lt_zero _)
  | _ + 1, 0, _, _, _, hk => absurd hk (Nat.not_lt_zero _)
  | n + 1, k + 1, i, hm, hn, hk => by
    rw [collectWithin_succ, collectWithin_succ]
    refine round_congr fun hsome => ?_
    have hlt : (item i).next.rest.length < i.rest.length := h i hm hsome
    exact collectWithin_congr h n k _ (by omega) (by omega) (by omega)

/-- **The loop is unbounded.**  It reads an item, and if that gave something it starts over. -/
theorem collect_eq {i : Input} (h : AdvancesUpTo i.rest.length item) :
    collect item i = round item (collect item) i := by
  have hunfold : collect item i = collectWithin item (i.rest.length + 1) i := rfl
  rw [hunfold, collectWithin_succ]
  refine round_congr fun hsome => ?_
  have hlt : (item i).next.rest.length < i.rest.length := h i (Nat.le_refl _) hsome
  exact collectWithin_congr h _ _ _ (by omega) hlt (Nat.lt_succ_self _)

/-- **The rule of the loop.**  `R` relates an input to what the loop gives from there.  It holds
where the item gives nothing, and passes from the rounds that follow to a round in front. -/
theorem ensures_collect_upTo {R : Input → List α → List (Report Run) → Input → Prop}
    (h : ∀ i, i.rest.length ≤ m → item.Ensures i fun a? rs j =>
      match a? with
      | none => R i [] rs j
      | some a => j.rest.length < i.rest.length ∧
          ∀ as rs' k, R j as rs' k → R i (a :: as) (rs ++ rs') k) :
    ∀ i, i.rest.length ≤ m → (collect item).Ensures i (R i) := by
  have hadv : AdvancesUpTo m item := by
    intro i hi
    refine (h i hi).mono fun a? rs j hj hsome => ?_
    cases a? with
    | none => exact absurd hsome (by simp)
    | some a => exact hj.1
  suffices H : ∀ (n : Nat) (i : Input), i.rest.length < n → i.rest.length ≤ m →
      (collect item).Ensures i (R i) from fun i => H _ i (Nat.lt_succ_self _)
  intro n
  induction n with
  | zero => exact fun i hi => absurd hi (Nat.not_lt_zero _)
  | succ n ih =>
    intro i hi him
    refine Ensures.of_eq ?_ (collect_eq fun j hj => hadv j (Nat.le_trans hj him))
    rw [round, ensures_bind]
    refine (h i him).mono fun a? rs j hj => ?_
    cases a? with
    | none => simpa only [ensures_pure, List.append_nil] using hj
    | some a =>
      obtain ⟨hlt, hstep⟩ := hj
      rw [ensures_bind]
      refine (ih j (by omega) (by omega)).mono fun as rs' k hk => ?_
      simpa only [ensures_pure, List.append_nil] using hstep as rs' k hk

/-- The rule of the loop for an item that is known of every input. -/
theorem ensures_collect {R : Input → List α → List (Report Run) → Input → Prop}
    (h : ∀ i, item.Ensures i fun a? rs j =>
      match a? with
      | none => R i [] rs j
      | some a => j.rest.length < i.rest.length ∧
          ∀ as rs' k, R j as rs' k → R i (a :: as) (rs ++ rs') k)
    (i : Input) : (collect item).Ensures i (R i) :=
  ensures_collect_upTo (fun j _ => h j) i (Nat.le_refl _)

/-- A loop ends at once where its item gives nothing. -/
theorem ensures_collect_stop {Q : List α → List (Report Run) → Input → Prop}
    (h : item.Ensures i fun a? rs j => a? = none ∧ Q [] rs j) : (collect item).Ensures i Q := by
  have hround : (round item (collectWithin item i.rest.length)).Ensures i Q := by
    rw [round, ensures_bind]
    refine h.mono fun a? rs j hj => ?_
    obtain ⟨rfl, hj⟩ := hj
    rw [ensures_pure, List.append_nil]
    exact hj
  exact hround

/-- A loop whose item gives something goes on behind it. -/
theorem ensures_collect_more {Q : List α → List (Report Run) → Input → Prop}
    (hadv : AdvancesUpTo i.rest.length item)
    (h : item.Ensures i fun a? rs j => ∃ a, a? = some a ∧
      (collect item).Ensures j fun as rs' k => Q (a :: as) (rs ++ rs') k) :
    (collect item).Ensures i Q := by
  refine Ensures.of_eq ?_ (collect_eq hadv)
  rw [round, ensures_bind]
  refine h.mono fun a? rs j hj => ?_
  obtain ⟨a, rfl, hj⟩ := hj
  rw [ensures_bind]
  refine hj.mono fun as rs' k hk => ?_
  rw [ensures_pure, List.append_nil]
  exact hk

end Loop

end Parser

end PlatformGate
