/-
# Climbing by precedence

A chain of operands can be grouped while it is read: a loop goes on as long as operators come that
bind at least as tightly as a given power, and the right operand of an operator is read by the same
loop for tighter operators only.  `climb` is that reading, and `climb_eq` says that it gives what
the operands give that are read in one row and grouped afterwards, with the same reports.

Two facts carry the argument.  The row of links above one power is the row of links above a tighter
one with the rest behind it (`collect_split`).  And links that bind more tightly than an operator
are grafted onto its right operand, as if the right operand were grouped alone
(`Expr.ofChain_binary`).  The invariant of the loop is that the next operator binds no more tightly
than what the expression so far ends with (`Expr.level`), so it is put on top of all of it.
-/
import PlatformGate.Proofs.Grouping.Trees
import PlatformGate.Proofs.Parse.Unbounded

namespace PlatformGate

/-! ## 1. Grafting -/

namespace Expr

/-- An operator that binds no more tightly than an expression is put on top of it. -/
theorem graft_of_le_level {op : BinaryOperator} {right e : Expr Run} (h : 1 + op.power ≤ e.level) :
    graft op right e = .binary op e right (e.place.through right.place) := by
  cases e with
  | binary o l r p =>
    have hpower : op.power ≤ o.power := Nat.le_of_add_le_add_left h
    rw [graft, if_neg (Nat.not_lt.mpr hpower)]
    rfl
  | _ => rfl

/-- **Tighter links belong to the right operand.** -/
theorem ofChain_binary {op : BinaryOperator} {l : Expr Run} {start : Nat}
    {links : List (BinaryOperator × Expr Run)} (h : ∀ link ∈ links, op.power < link.1.power)
    (r : Expr Run) :
    ofChain (.binary op l r ⟨start, r.place.past⟩) links =
      .binary op l (ofChain r links) ⟨start, (ofChain r links).place.past⟩ := by
  induction links generalizing r with
  | nil => rfl
  | cons link links ih =>
    obtain ⟨hlink, hlinks⟩ := List.forall_mem_cons.mp h
    have hgraft : graft link.1 link.2 (.binary op l r ⟨start, r.place.past⟩) =
        .binary op l (graft link.1 link.2 r) ⟨start, (graft link.1 link.2 r).place.past⟩ := by
      rw [graft, if_pos hlink, place_graft]
      rfl
    exact (congrArg (ofChain · links) hgraft).trans (ih hlinks _)

theorem ofChain_cons (first : Expr Run) (link : BinaryOperator × Expr Run)
    (links : List (BinaryOperator × Expr Run)) :
    ofChain first (link :: links) = ofChain (graft link.1 link.2 first) links := rfl

theorem ofChain_append (first : Expr Run) (links more : List (BinaryOperator × Expr Run)) :
    ofChain first (links ++ more) = ofChain (ofChain first links) more := List.foldl_append

end Expr

namespace Parser

variable {α : Type}

/-! ## 2. A loop in two parts -/

/-- **A loop is a loop of fewer rounds with the rest behind it.**  The item of the first part gives
what the other gives, or nothing at all. -/
theorem collect_split {item part : Parser (Option α)} {m : Nat} (hadv : AdvancesUpTo m item)
    (h : ∀ i, part i = item i ∧ (item i).value.isSome ∨ part i = ⟨none, [], i⟩) :
    ∀ i, i.rest.length ≤ m → collect item i = (do
      let as ← collect part
      let bs ← collect item
      return as ++ bs : Parser (List α)) i := by
  have hpart : AdvancesUpTo m part := by
    intro i hi
    rcases h i with ⟨heq, -⟩ | heq
    · exact (hadv i hi).of_eq heq
    · unfold Ensures
      rw [heq]
      exact fun hsome => absurd hsome Bool.false_ne_true
  have hrest : ∀ {p : Parser (Option α)}, AdvancesUpTo m p → ∀ i, i.rest.length ≤ m →
      collect p i = round p (collect p) i :=
    fun hp i hi => collect_eq fun j hj => hp j (Nat.le_trans hj hi)
  intro i
  induction hn : i.rest.length using Nat.strongRecOn generalizing i with
  | ind n ih =>
    intro him
    rw [← hn] at him
    rw [bind_apply, hrest hpart i him]
    rcases h i with ⟨heq, hsome⟩ | heq
    · -- both loops take the same round
      obtain ⟨a, ha⟩ := Option.isSome_iff_exists.mp hsome
      have hlt : (item i).next.rest.length < i.rest.length := hadv i him hsome
      rw [hrest hadv i him]
      simp only [round, bind_apply, heq, ha]
      rw [ih _ (by omega) _ rfl (by omega)]
      simp only [bind_apply, pure_apply, List.append_nil, List.cons_append, List.append_assoc]
    · -- the first loop has ended
      simp only [round, bind_apply, heq, pure_apply, List.nil_append, List.append_nil]

/-! ## 3. Links above a power -/

section Links

variable (inner : ValuePosition → Parser (Expr Run))

/-- A binary operator that binds at least as tightly as the power, and its right operand. -/
def linkAbove? (least : Nat) : Parser (Option (BinaryOperator × Expr Run)) := do
  match BinaryOperator.ofKind? (← kind) with
  | some op =>
    if op.power < least then return none
    else
      next
      let right ← operand inner .infixOperand
      return some (op, right)
  | none => return none

/-- The operands between which operators stand that bind at least as tightly as the power. -/
def chainAbove (least : Nat) (pos : ValuePosition) : Parser (Expr Run) := do
  let first ← operand inner pos
  let links ← collect (linkAbove? inner least)
  return Expr.ofChain first links

theorem chainAbove_zero : chainAbove inner 0 = chain inner := rfl

variable {inner} {least : Nat} {i : Input}

/-- Either no operator comes that binds tightly enough, or one does. -/
theorem stops_or_links (least : Nat) (i : Input) :
    (∀ op, BinaryOperator.ofKind? i.kind = some op → op.power < least) ∨
      ∃ op, BinaryOperator.ofKind? i.kind = some op ∧ least ≤ op.power := by
  cases hop : BinaryOperator.ofKind? i.kind with
  | none => exact .inl nofun
  | some op =>
    rcases Nat.lt_or_ge op.power least with hlt | hle
    · exact .inl fun op' h => Option.some.inj h ▸ hlt
    · exact .inr ⟨op, rfl, hle⟩

/-- No link begins where no operator comes that binds tightly enough. -/
theorem linkAbove?_stop (h : ∀ op, BinaryOperator.ofKind? i.kind = some op → op.power < least) :
    linkAbove? inner least i = ⟨none, [], i⟩ := by
  simp only [linkAbove?, bind_apply, kind]
  cases hop : BinaryOperator.ofKind? i.kind with
  | none => rfl
  | some op =>
    simp only [if_pos (h op hop)]
    rfl

theorem collect_linkAbove?_stop
    (h : ∀ op, BinaryOperator.ofKind? i.kind = some op → op.power < least) :
    collect (linkAbove? inner least) i = ⟨[], [], i⟩ := by
  rw [collect, collectWithin_succ, round, bind_apply, linkAbove?_stop h]
  rfl

/-- A link begins with its operator. -/
theorem linkAbove?_link {op : BinaryOperator} (hop : BinaryOperator.ofKind? i.kind = some op)
    (hle : least ≤ op.power) : linkAbove? inner least i = (do
      next
      let right ← operand inner .infixOperand
      return some (op, right) : Parser (Option (BinaryOperator × Expr Run))) i := by
  rw [linkAbove?, bind_apply]
  simp only [kind, hop, if_neg (Nat.not_lt.mpr hle)]
  rfl

variable (hinner : ∀ pos i, (inner pos).Ensures i (ReadsExpr i))

include hinner

/-- A link stands behind its operator, and without a link nothing is read. -/
theorem linkAbove?_reads (least : Nat) (i : Input) :
    (linkAbove? inner least).Ensures i fun link? rs j =>
      match link? with
      | none => rs = [] ∧ j = i ∧
          ∀ op, BinaryOperator.ofKind? i.kind = some op → op.power < least
      | some link => least ≤ link.1.power ∧ Moves Cause.Inner i rs j ∧ i.position < j.position ∧
          link.2.Spans (i.position + 1) j.position := by
  rcases stops_or_links least i with hstop | ⟨op, hop, hle⟩
  · unfold Ensures
    rw [linkAbove?_stop hstop]
    exact ⟨rfl, rfl, hstop⟩
  · have hnext := Input.position_next (Input.rest_ne_nil_of_binary hop)
    refine Ensures.of_eq ?_ (linkAbove?_link hop hle)
    simp only [ensures_bind, ensures_next, ensures_pure, List.nil_append, List.append_nil]
    refine (operand_reads hinner _ i.next).mono fun right rs j hright => ?_
    have hspans := hright.1.spans
    rw [hnext] at hspans
    exact ⟨hle, .after_ahead i.ahead_next hright.1.moves, hspans.le, hspans⟩

theorem linkAbove?_advances (least m : Nat) : AdvancesUpTo m (linkAbove? inner least) := by
  intro i _
  refine (linkAbove?_reads hinner least i).mono fun link? rs j h hsome => ?_
  cases link? with
  | none => exact absurd hsome Bool.false_ne_true
  | some link => exact h.2.1.ahead.length_lt h.2.2.1

/-- **Links above a power** are those above a tighter one with the rest behind them. -/
theorem collect_linkAbove?_split {least tight : Nat} (hle : least ≤ tight) (i : Input) :
    collect (linkAbove? inner least) i = (do
      let links ← collect (linkAbove? inner tight)
      let more ← collect (linkAbove? inner least)
      return links ++ more : Parser (List (BinaryOperator × Expr Run))) i := by
  refine collect_split (linkAbove?_advances hinner least _) (fun j => ?_) i (Nat.le_refl _)
  rcases stops_or_links tight j with hstop | ⟨op, hop, htight⟩
  · exact .inr (linkAbove?_stop hstop)
  · have hlink : linkAbove? inner least j = _ := linkAbove?_link hop (Nat.le_trans hle htight)
    refine .inl ⟨(linkAbove?_link hop htight).trans hlink.symm, ?_⟩
    rw [hlink]
    rfl

/-- Behind the links above a power no operator comes that binds tightly enough. -/
theorem collect_linkAbove?_reads (least : Nat) :
    ∀ i, (collect (linkAbove? inner least)).Ensures i fun links rs j =>
      Moves Cause.Inner i rs j ∧
      (∀ lo first, first.Spans lo i.position → (Expr.ofChain first links).Spans lo j.position) ∧
      (∀ link ∈ links, least ≤ link.1.power) ∧
      ∀ op, BinaryOperator.ofKind? j.kind = some op → op.power < least := by
  refine ensures_collect fun i => (linkAbove?_reads hinner least i).mono fun link? rs j h => ?_
  cases link? with
  | none =>
    obtain ⟨rfl, rfl, hstop⟩ := h
    exact ⟨.refl _, fun _ _ hfirst => hfirst, nofun, hstop⟩
  | some link =>
    obtain ⟨hle, hmoves, hlt, hlink⟩ := h
    refine ⟨hmoves.ahead.length_lt hlt, fun links rs' k h => ?_⟩
    obtain ⟨hmore, hspans, hlinks, hstop⟩ := h
    refine ⟨hmoves.trans hmore, fun lo first hfirst => hspans lo _ ?_,
      List.forall_mem_cons.mpr ⟨hle, hlinks⟩, hstop⟩
    exact hfirst.graft (Nat.le_succ _) hlink

end Links

/-! ## 4. The climb -/

section Climbing

variable (inner : ValuePosition → Parser (Expr Run))

/-- The operators behind `left` that bind at least as tightly as the power, in at most so many
rounds.  `tighter` reads the right operand of an operator, from the power on that it is given. -/
def climbWithin (tighter : Nat → Parser (Expr Run)) (start least : Nat) :
    Nat → Expr Run → Parser (Expr Run)
  | 0, left => return left
  | rounds + 1, left => do
    match BinaryOperator.ofKind? (← kind) with
    | some op =>
      if op.power < least then return left
      else
        next
        let right ← tighter (op.power + 1)
        climbWithin tighter start least rounds (.binary op left right (← runFrom start))
    | none => return left

/-- An operand and the operators behind it that bind at least as tightly as the power, grouped while
they are read.  Right operands are read on one level less. -/
def climb : Nat → Nat → ValuePosition → Parser (Expr Run)
  | 0, _, pos => operand inner pos
  | levels + 1, least, pos => do
    let start ← position
    let left ← operand inner pos
    let rounds := (← rest).length + 1
    climbWithin (fun power => climb levels power .infixOperand) start least rounds left

variable {inner} {i : Input}

section Rounds

variable {tighter : Nat → Parser (Expr Run)} {start least rounds : Nat} {left : Expr Run}

theorem climbWithin_stop
    (h : ∀ op, BinaryOperator.ofKind? i.kind = some op → op.power < least) :
    climbWithin tighter start least (rounds + 1) left i = ⟨left, [], i⟩ := by
  simp only [climbWithin, bind_apply, kind]
  cases hop : BinaryOperator.ofKind? i.kind with
  | none => rfl
  | some op =>
    simp only [if_pos (h op hop)]
    rfl

theorem climbWithin_link {op : BinaryOperator} (hop : BinaryOperator.ofKind? i.kind = some op)
    (hle : least ≤ op.power) : climbWithin tighter start least (rounds + 1) left i = (do
      next
      let right ← tighter (op.power + 1)
      climbWithin tighter start least rounds (.binary op left right (← runFrom start)) :
        Parser (Expr Run)) i := by
  rw [climbWithin, bind_apply]
  simp only [kind, hop, if_neg (Nat.not_lt.mpr hle)]
  rfl

end Rounds

variable (hinner : ∀ pos i, (inner pos).Ensures i (ReadsExpr i))

include hinner

/-- **The rounds of a climb** put on top of an expression what the links behind it put there, if the
right operands are read as chains. -/
theorem climbWithin_eq {tighter : Nat → Parser (Expr Run)} {start least : Nat}
    (htighter : ∀ power, least < power → tighter power = chainAbove inner power .infixOperand)
    (rounds : Nat) {left : Expr Run} (hrounds : i.rest.length < rounds)
    (hleft : left.place = ⟨start, i.position⟩)
    (hlevel : ∀ op, BinaryOperator.ofKind? i.kind = some op → 1 + op.power ≤ left.level) :
    climbWithin tighter start least rounds left i = (do
      let links ← collect (linkAbove? inner least)
      return Expr.ofChain left links : Parser (Expr Run)) i := by
  induction rounds generalizing i left with
  | zero => exact absurd hrounds (Nat.not_lt_zero _)
  | succ rounds ih =>
    rcases stops_or_links least i with hstop | ⟨op, hop, hle⟩
    · rw [climbWithin_stop hstop, bind_apply, collect_linkAbove?_stop hstop]
      rfl
    · have hne := Input.rest_ne_nil_of_binary hop
      have hnext := Input.position_next hne
      have hshorter := Input.length_next_lt hne
      have hlink : collect (linkAbove? inner least) i = (do
          next
          let right ← operand inner .infixOperand
          let more ← collect (linkAbove? inner least)
          return (op, right) :: more : Parser (List (BinaryOperator × Expr Run))) i := by
        rw [collect_eq (linkAbove?_advances hinner least _), round, bind_congr_left (linkAbove?_link hop hle)]
        simp only [bind_assoc, pure_bind]
      rw [climbWithin_link hop hle, htighter _ (Nat.lt_succ_of_le hle), bind_congr_left hlink]
      simp only [chainAbove, bind_assoc, pure_bind]
      refine bind_congr_right (bind_congr_right ?_)
      refine (operand_reads hinner _ i.next).mono fun right rs j hright => ?_
      obtain ⟨⟨hahead, hright⟩, -⟩ := hright
      -- the links behind the right operand that are its own come first
      rw [bind_congr_left (collect_linkAbove?_split hinner (Nat.le_succ_of_le hle) j)]
      simp only [bind_assoc, pure_bind]
      refine bind_congr_right ((collect_linkAbove?_reads hinner _ j).mono fun links rs' k h => ?_)
      obtain ⟨hmoves, hspans, hlinks, hstop⟩ := h
      have hgrown := hspans _ _ hright
      have hchain : ∀ more, Expr.ofChain left ((op, right) :: (links ++ more)) =
          Expr.ofChain (.binary op left (Expr.ofChain right links) ⟨start, k.position⟩) more := by
        intro more
        have htop : Expr.graft op right left =
            .binary op left right (left.place.through right.place) :=
          Expr.graft_of_le_level (hlevel op hop)
        rw [Expr.ofChain_cons, htop, hleft, Run.through, Expr.ofChain_append,
          Expr.ofChain_binary fun link hlink => hlinks link hlink, hgrown.place]
      simp only [hchain]
      refine ih (i := k) ?_ rfl fun op' hop' => ?_
      · have hjk := hmoves.ahead.length_le
        have hij := hahead.ahead.length_le
        omega
      · exact Nat.add_le_add_left (Nat.le_of_lt_succ (hstop op' hop')) 1

/-- **Climbing gives what a chain gives,** if there is a level left for every power above. -/
theorem climb_eq (hgrouped : ∀ pos, (inner pos).Gives Expr.Grouped) (levels : Nat) {least : Nat}
    (h : 6 ≤ least + levels) (pos : ValuePosition) :
    climb inner levels least pos = chainAbove inner least pos := by
  induction levels generalizing least pos with
  | zero =>
    refine Parser.ext fun i => ?_
    rw [climb, ← bind_pure (operand inner pos)]
    refine bind_congr_right ((operand_reads hinner pos i).mono fun first _ j _ => ?_)
    have hstop : ∀ op, BinaryOperator.ofKind? j.kind = some op → op.power < least :=
      fun op _ => Nat.lt_of_lt_of_le (Nat.lt_succ_of_le op.power_le) h
    rw [bind_apply, collect_linkAbove?_stop hstop]
    rfl
  | succ levels ih =>
    refine Parser.ext fun i => ?_
    have htighter : ∀ power, least < power →
        climb inner levels power .infixOperand = chainAbove inner power .infixOperand :=
      fun power hlt => ih (by omega) .infixOperand
    have hlevel := (gives_operand hgrouped pos i).1
    have hplace := (operand_reads hinner pos i).1.spans.place
    have hunfold : climb inner (levels + 1) least pos i = (do
        let left ← operand inner pos
        let rounds := (← rest).length + 1
        climbWithin (fun power => climb inner levels power .infixOperand) i.position least rounds
          left : Parser (Expr Run)) i := rfl
    rw [hunfold]
    refine bind_congr_right (climbWithin_eq hinner htighter _ (Nat.lt_succ_self _) hplace ?_)
    exact fun op _ => Nat.le_trans (Nat.add_le_add_left op.power_le 1) (by omega)

/-- **A chain can be read by climbing** from the least power on. -/
theorem chain_eq_climb (hgrouped : ∀ pos, (inner pos).Gives Expr.Grouped) :
    chain inner = climb inner 6 0 := by
  funext pos
  rw [climb_eq hinner hgrouped 6 (Nat.le_refl 6), chainAbove_zero]

end Climbing

end Parser

end PlatformGate
