/-
# What reading costs

A parser makes nodes and reports without taking terminals: a value, a branch or a body is missing,
and when brackets are left open several constructs report at one and the same terminal.  So neither
can be bounded by a look at one parser, and the terminals that are taken have to pay.

A `Tariff` puts a price on each report and on each node.  Every terminal brings in two reports,
three expressions, a statement and a clause (`Tariff.token`), and what it brings in must be enough
for all that was made since the terminal before.  `Pays` is the account of one parser: what it made
is paid by the terminals it took, but for a credit that the one who called it answers for.  Accounts
add up along a chain of parsers (`Pays.trans`), and a terminal that is taken settles the credit of
what is read behind it (`Pays.next`).
-/
import PlatformGate.Proofs.Parse.Unbounded

namespace PlatformGate

variable {ρ σ : Type}

/-- Prices of a report and of a node of each sort. -/
structure Tariff where
  report : Nat
  expr : Nat
  stmt : Nat
  clause : Nat

/-- What a terminal brings in. -/
def Tariff.token (t : Tariff) : Nat := 2 * t.report + 3 * t.expr + t.stmt + t.clause

/-! ## 1. Trees -/

namespace Expr

mutual

/-- The price of all nodes of an expression. -/
def cost (t : Tariff) : Expr ρ → Nat
  | int .. | bool .. | ident .. | discard .. | error .. => t.expr
  | paren e _ | unary _ e _ => cost t e + t.expr
  | tuple es _ => costAll t es + t.expr
  | call e es _ => cost t e + costAll t es + t.expr
  | binary _ l r _ | assign l r _ => cost t l + cost t r + t.expr
  | ternary c l r _ => cost t c + cost t l + cost t r + t.expr

/-- `cost` of each expression of a list. -/
def costAll (t : Tariff) : List (Expr ρ) → Nat
  | [] => 0
  | e :: es => cost t e + costAll t es

end

/-- `cost` of an expression that may be left out. -/
def costOption (t : Tariff) : Option (Expr ρ) → Nat
  | none => 0
  | some e => cost t e

end Expr

namespace Clause

/-- The price of a clause and of the expressions in it. -/
def cost (t : Tariff) : Clause ρ → Nat
  | expr e _ => e.cost t + t.clause
  | binding _ _ init _ => Expr.costOption t init + t.clause
  | matching e init _ => e.cost t + init.cost t + t.clause
  | availability _ => t.clause

/-- `cost` of each clause of a list. -/
def costAll (t : Tariff) : List (Clause ρ) → Nat
  | [] => 0
  | c :: cs => cost t c + costAll t cs

end Clause

namespace Stmt

mutual

/-- The price of a statement and of all nodes in it. -/
def cost (t : Tariff) : Stmt ρ → Nat
  | expr e _ => e.cost t + t.stmt
  | declaration _ _ init _ => Expr.costOption t init + t.stmt
  | ifStmt cs b a _ => Clause.costAll t cs + costOfBody t b + costOfAlternative t a + t.stmt
  | guardStmt cs b _ | whileStmt cs b _ => Clause.costAll t cs + costOfBody t b + t.stmt
  | returnStmt e _ => Expr.costOption t e + t.stmt

/-- `cost` of a body. -/
def costOfBody (t : Tariff) : Body ρ → Nat
  | .missing => 0
  | .block ss _ => costAll t ss

/-- `cost` of what follows `else`. -/
def costOfAlternative (t : Tariff) : Alternative ρ → Nat
  | .body b => costOfBody t b
  | .elseIf s => cost t s

/-- `cost` of each statement of a list. -/
def costAll (t : Tariff) : List (Stmt ρ) → Nat
  | [] => 0
  | s :: ss => cost t s + costAll t ss

end

/-- `cost` of a statement that may be left out. -/
def costOption (t : Tariff) : Option (Stmt ρ) → Nat
  | none => 0
  | some s => cost t s

/-- The statements among the items of a loop. -/
theorem costAll_filterMap_cons (t : Tariff) (s? : Option (Stmt ρ))
    (items : List (Option (Stmt ρ))) :
    costAll t ((s? :: items).filterMap id) = costOption t s? + costAll t (items.filterMap id) := by
  cases s? with
  | none => exact (Nat.zero_add _).symm
  | some s => rfl

end Stmt

/-! ## 2. Accounts -/

namespace Tariff

variable {t : Tariff} {i : Input}

/-- What reports cost. -/
def bill (t : Tariff) (rs : List (Report Run)) : Nat := t.report * rs.length

/-- What the terminals that are left will bring in. -/
def fund (t : Tariff) (i : Input) : Nat := t.token * i.rest.length

@[simp] theorem bill_nil : t.bill [] = 0 := rfl

@[simp] theorem bill_singleton {r : Report Run} : t.bill [r] = t.report := Nat.mul_one _

@[simp] theorem bill_append {rs rs' : List (Report Run)} :
    t.bill (rs ++ rs') = t.bill rs + t.bill rs' := by
  unfold bill
  rw [List.length_append, Nat.mul_add]

theorem fund_next (h : i.rest ≠ []) : t.fund i.next + t.token = t.fund i := by
  obtain ⟨u, us, hus⟩ := List.exists_cons_of_ne_nil h
  unfold fund
  rw [Input.next_eq_of_rest hus, hus, List.length_cons, Nat.mul_succ]

theorem fund_le {j : Input} (h : j.rest.length ≤ i.rest.length) : t.fund j ≤ t.fund i :=
  Nat.mul_le_mul_left _ h

/-- Terminals that are skipped bring in the price of one at least. -/
theorem fund_skip {n : Nat} (hpos : 0 < n) (hn : n ≤ i.rest.length) :
    t.fund (i.skip n) + t.token ≤ t.fund i := by
  have hrest : (i.skip n).rest.length + 1 ≤ i.rest.length := by
    have hdrop : (i.skip n).rest.length = i.rest.length - n := List.length_drop
    omega
  unfold fund
  rw [← Nat.mul_succ]
  exact Nat.mul_le_mul_left _ hrest

end Tariff

/-- What was made between `i` and `j` costs `cost` and what `rs` costs; the terminals that were
taken pay for it, and the one who called answers for no more than `credit`. -/
structure Pays (t : Tariff) (credit cost : Nat) (i : Input) (rs : List (Report Run)) (j : Input) :
    Prop where
  length_le : j.rest.length ≤ i.rest.length
  paid : cost + t.bill rs + t.fund j ≤ t.fund i + credit

namespace Pays

variable {t : Tariff} {credit credit' cost cost' : Nat} {i j k : Input}
variable {rs rs' : List (Report Run)}

theorem refl (i : Input) : Pays t 0 0 i [] i := ⟨Nat.le_refl _, by simp⟩

theorem trans (h : Pays t credit cost i rs j) (h' : Pays t credit' cost' j rs' k) :
    Pays t (credit + credit') (cost + cost') i (rs ++ rs') k := by
  refine ⟨Nat.le_trans h'.length_le h.length_le, ?_⟩
  have hfirst := h.paid
  have hsecond := h'.paid
  rw [Tariff.bill_append]
  omega

/-- Any other credit will do if the difference is made up by the cost. -/
theorem mono (h : Pays t credit cost i rs j) (hle : cost' + credit ≤ cost + credit') :
    Pays t credit' cost' i rs j := by
  refine ⟨h.length_le, ?_⟩
  have hpaid := h.paid
  omega

/-- **A terminal brings in its share** for what is read behind it. -/
theorem next (hne : i.rest ≠ []) (h : Pays t credit cost i.next rs j) :
    Pays t credit (cost + t.token) i rs j := by
  refine ⟨Nat.le_trans h.length_le (Nat.le_of_lt (Input.length_next_lt hne)), ?_⟩
  have hpaid := h.paid
  have hshare := t.fund_next hne
  omega

/-- Behind a terminal less is left than in front of it. -/
theorem length_lt (hne : i.rest ≠ []) (h : Pays t credit cost i.next rs j) :
    j.rest.length < i.rest.length := Nat.lt_of_le_of_lt h.length_le (Input.length_next_lt hne)

/-- A report at the next terminal is on credit. -/
theorem report (r : Report Run) (i : Input) : Pays t t.report 0 i [r] i := by
  refine ⟨Nat.le_refl _, ?_⟩
  rw [Tariff.bill_singleton]
  omega

/-- Nodes that are made without a terminal are on credit. -/
theorem make (cost : Nat) (i : Input) : Pays t cost cost i [] i := (refl i).mono (by omega)

/-- One report about some terminals is paid by them. -/
theorem skip {n : Nat} (hpos : 0 < n) (hn : n ≤ i.rest.length) (r : Report Run) :
    Pays t 0 0 i [r] (i.skip n) := by
  have hdrop : (i.skip n).rest.length = i.rest.length - n := List.length_drop
  refine ⟨by omega, ?_⟩
  have hshare := t.fund_skip hpos hn
  rw [Tariff.bill_singleton]
  unfold Tariff.token at hshare
  omega

/-- What is skipped in silence pays for nothing. -/
theorem then_skip (h : Pays t credit cost i rs j) (n : Nat) :
    Pays t credit cost i rs (j.skip n) := by
  have hdrop : (j.skip n).rest.length = j.rest.length - n := List.length_drop
  refine ⟨Nat.le_trans (by omega) h.length_le, ?_⟩
  have hpaid := h.paid
  have hle : t.fund (j.skip n) ≤ t.fund j := Tariff.fund_le (by omega)
  omega

/-- A terminal that pays for nothing. -/
theorem then_next (h : Pays t credit cost i rs j) : Pays t credit cost i rs j.next := by
  have hlength := j.ahead_next.length_le
  refine ⟨Nat.le_trans hlength h.length_le, ?_⟩
  have hpaid := h.paid
  have hle : t.fund j.next ≤ t.fund j := Tariff.fund_le hlength
  omega

end Pays

/-! ## 3. Going on after a problem -/

namespace Parser

variable (t : Tariff) {i : Input}

/-- Leftovers pay for their report. -/
theorem leftovers_pays (c : Construct) (stop : TagSet) (lineSensitive : Bool) (i : Input) :
    (leftovers c stop lineSensitive).Ensures i fun _ rs j => Pays t 0 0 i rs j := by
  rw [ensures_leftovers]
  refine ⟨fun _ => .refl i, ?_⟩
  rintro n rfl hn
  exact .skip (Nat.pos_of_ne_zero hn) (captureLength_le _ _ _ _ _) _

theorem junk_pays (c : Construct) (h : i.rest ≠ []) :
    (junk c).Ensures i fun _ rs j => Pays t 0 0 i rs j := by
  refine (junk_reads c h).mono fun _ rs j hj => ?_
  obtain ⟨n, hpos, hn, rfl, rfl⟩ := hj
  exact .skip hpos hn _

/-- A bracket that is left open costs a report. -/
theorem unclosed_pays (c : Construct) (opener : Nat) (resume : TagSet) (i : Input) :
    (unclosed c opener resume).Ensures i fun _ rs j => Pays t t.report 0 i rs j := by
  rw [ensures_unclosed]
  exact (Pays.report _ i).then_skip _

/-- An invalid token pays for its report. -/
theorem invalidToken_pays (hk : i.kind = .invalid) :
    invalidToken.Ensures i fun _ rs j => Pays t t.report t.token i rs j := by
  have hne : i.rest ≠ [] := Input.rest_ne_nil_of_kind (by simp [hk])
  rw [ensures_invalidToken]
  refine ((Pays.report _ i.next).next hne).mono ?_
  omega

end Parser

end PlatformGate
