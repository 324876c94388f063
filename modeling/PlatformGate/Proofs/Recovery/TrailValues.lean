/-
# Expressions leave at most one thing to be settled

Between two tokens of an expression nothing is owed.  An expression that needs a value in front of
an availability keyword stops there: all that it looks for next is another token, so it gives the
keyword back to whoever asked for the expression.  A list in parentheses settles what its last value
owes.
-/
import PlatformGate.Proofs.Recovery.Trail

namespace PlatformGate

open Input

namespace Parser

variable {w : List Terminal}

/-! ## 1. Lists -/

theorem open_owing : ∀ s i, Open w s i → Owing w s i := fun _ _ h => h.owing

theorem clear_owing : ∀ s i, Clear w s i → Owing w s i := fun _ _ h => h.owing

theorem clear_open : ∀ s i, Clear w s i → Open w s i := fun _ _ h => h.open

theorem tracks_valueBehindComma? {value : Parser (Expr Run)}
    (hvalue : Tracks w (Clear w) value (Open w)) :
    Tracks w (Open w) (valueBehindComma? value) (Open w) := by
  refine tracks_eat open_owing rfl ?_ tracks_pure
  exact hvalue.bind fun e => tracks_pure

/-- No list ends at an availability keyword. -/
theorem rparen_not_availability (k : Kind String) (h : k.isAvailability = true) :
    (TagSet.ofFixed [.rparen]).contains k = false := by
  cases k with
  | fixed f => cases f <;> first | rfl | exact absurd h nofun
  | _ => exact absurd h nofun

/-- **A list in parentheses settles what it owes.** -/
theorem tracks_values {value : Parser (Expr Run)} (hvalue : Tracks w (Clear w) value (Open w))
    {c : Construct} (hc : c = .tuple ∨ c = .call) (opener : Nat) :
    Tracks w (Clear w) (values value c opener) (Clear w) := by
  have hne : c ≠ .availability := by rcases hc with rfl | rfl <;> nofun
  refine tracks_eat clear_owing rfl tracks_pure ?_
  refine hvalue.bind fun first => ?_
  refine (tracks_collect (tracks_valueBehindComma? hvalue)).bind fun others => ?_
  refine (tracks_leftovers open_owing hne (fun _ _ _ _ => hc) rparen_not_availability false).bind
    fun _ => ?_
  refine tracks_eat clear_owing rfl tracks_pure ?_
  exact tracks_unclosed.bind fun _ => tracks_pure

/-! ## 2. Operands -/

theorem tracks_primary {item : Parser (Expr Run)} (hitem : Tracks w (Clear w) item (Open w))
    (pos : ValuePosition) : Tracks w (Clear w) (primary item pos) (Open w) := by
  -- a value that is one token
  have hone : ∀ {k : Kind String} {e : Expr Run},
      Tracks w (fun s i => Clear w s i ∧ i.kind = k) (do next; return e) (Open w) := by
    intro k e
    refine (tracks_next.from_of fun s i h => h.1).bind fun _ => ?_
    exact tracks_pure_of clear_open
  have hother : ∀ k, Tracks w (fun s i => Clear w s i ∧ i.kind = k) (missingValue pos) (Open w) :=
    fun k => (tracks_missingValue pos).from_of fun s i h => h.1
  refine tracks_position.bind fun start => ?_
  refine tracks_kind fun k => ?_
  cases k with
  | number v => exact hone
  | word name => exact hone
  | invalid =>
    refine (tracks_invalidToken.from_of fun s i h => h.1).bind fun place => ?_
    exact tracks_pure_of clear_open
  | fixed f =>
    cases f with
    | trueWord | falseWord | underscore => exact hone
    | lparen =>
      refine (tracks_next.from_of fun s i h => h.1).bind fun _ => ?_
      refine (tracks_values hitem (.inl rfl) start).bind fun items => ?_
      exact tracks_runFrom.bind fun place => tracks_pure_of clear_open
    | _ => exact hother _
  | _ => exact hother _

theorem tracks_arguments? {arg : Parser (Expr Run)} (harg : Tracks w (Clear w) arg (Open w)) :
    Tracks w (Open w) (arguments? arg) (Open w) := by
  refine tracks_position.bind fun opener => ?_
  refine tracks_check open_owing rfl ?_ ?_
  · refine tracks_afterNewline.bind fun newline => ?_
    refine Tracks.ite ?_ (tracks_pure_of fun s i h => h.1.open)
    refine (tracks_next.from_of fun s i h => h.1).bind fun _ => ?_
    refine (tracks_values harg (.inr rfl) opener).bind fun args => ?_
    exact tracks_position.bind fun stop => tracks_pure_of clear_open
  · refine tracks_afterNewline.bind fun newline => ?_
    rw [Bool.false_and]
    exact tracks_pure

theorem tracks_sign? : Tracks w (Clear w) sign? (Clear w) := by
  refine tracks_position.bind fun start => ?_
  refine tracks_kind fun k => ?_
  cases hop : UnaryOperator.ofKind? k with
  | none => exact tracks_pure_of fun s i h => h.1
  | some op => exact (tracks_next.from_of fun s i h => h.1).bind fun _ => tracks_pure

/-- An availability keyword is no operator. -/
theorem isAvailability_of_binary {k : Kind String} {op : BinaryOperator}
    (h : BinaryOperator.ofKind? k = some op) : k.isAvailability = false := by
  cases k with
  | fixed f => cases f <;> first | rfl | exact absurd h nofun
  | _ => rfl

section Chains

variable {inner : ValuePosition → Parser (Expr Run)}
variable (hinner : ∀ pos, Tracks w (Clear w) (inner pos) (Open w))

include hinner

theorem tracks_operand (pos : ValuePosition) :
    Tracks w (Clear w) (operand inner pos) (Open w) := by
  refine (tracks_collect tracks_sign?).bind fun signs => ?_
  refine (tracks_primary (hinner .tuple) _).bind fun callee => ?_
  exact (tracks_collect (tracks_arguments? (hinner .call))).bind fun lists => tracks_pure

theorem tracks_link? : Tracks w (Open w) (link? inner) (Open w) := by
  refine tracks_kind fun k => ?_
  cases hop : BinaryOperator.ofKind? k with
  | none => exact tracks_pure_of fun s i h => h.1
  | some op =>
    have hclear : ∀ s i, Open w s i ∧ i.kind = k → Clear w s i := by
      rintro s i ⟨h, rfl⟩
      exact h.owing.clear (isAvailability_of_binary hop)
    refine (tracks_next.from_of hclear).bind fun _ => ?_
    exact (tracks_operand hinner .infixOperand).bind fun right => tracks_pure

theorem tracks_chain (pos : ValuePosition) : Tracks w (Clear w) (chain inner pos) (Open w) := by
  refine (tracks_operand hinner pos).bind fun first => ?_
  exact (tracks_collect (tracks_link? hinner)).bind fun links => tracks_pure

end Chains

/-! ## 3. Whole expressions -/

/-- A parser that reported nothing owes nothing. -/
theorem tracks_quietly {α β : Type} {p : Parser α} {f : α × Bool → Parser β}
    {Q : Debt → Input → Prop} (hp : Tracks w (Clear w) p (Open w))
    (hquiet : ∀ a, Tracks w (Clear w) (f (a, true)) Q)
    (hloud : ∀ a, Tracks w (Open w) (f (a, false)) Q) :
    Tracks w (Clear w) (quietly p >>= f) Q := by
  intro s i hi
  obtain ⟨s', hrs, hj⟩ := hp s i hi
  have hbind : (f ((p i).value, (p i).reports.isEmpty)).Ensures (p i).next fun _ rs j =>
      ∃ s'', Trail w s' rs s'' ∧ Q s'' j := by
    cases hempty : (p i).reports.isEmpty with
    | true =>
      rw [List.isEmpty_iff.mp hempty, trail_nil_iff] at hrs
      exact hquiet _ s' _ ⟨hj.1, hrs ▸ hi.2⟩
    | false => exact hloud _ s' _ hj
  obtain ⟨s'', hrs', hk⟩ := hbind
  exact ⟨s'', hrs.append hrs', hk⟩

theorem tracks_otherwise_loud {branch : Parser (Expr Run)}
    (hbranch : Tracks w (Clear w) branch (Open w)) :
    Tracks w (Open w) (otherwise branch false) (Open w) :=
  tracks_eat open_owing rfl hbranch tracks_errorHere

theorem tracks_otherwise_quiet {branch : Parser (Expr Run)}
    (hbranch : Tracks w (Clear w) branch (Open w)) :
    Tracks w (Clear w) (otherwise branch true) (Open w) := by
  refine tracks_eat clear_owing rfl hbranch ?_
  refine (tracks_reportHere .missingColon nofun nofun).bind fun _ => ?_
  exact tracks_errorHere.to_of clear_open

section Whole

variable {inner : Reach → ValuePosition → Parser (Expr Run)}
variable (hinner : ∀ reach pos, Tracks w (Clear w) (inner reach pos) (Open w))

include hinner

theorem tracks_ternary (pos : ValuePosition) :
    Tracks w (Clear w) (ternary inner pos) (Open w) := by
  refine tracks_position.bind fun start => ?_
  refine (tracks_chain (hinner .full) pos).bind fun cond => ?_
  refine tracks_eat open_owing rfl ?_ tracks_pure
  have hbranch := hinner .ternary .ternary
  refine tracks_quietly hbranch (fun whenTrue => ?_) fun whenTrue => ?_
  · refine (tracks_otherwise_quiet hbranch).bind fun whenFalse => ?_
    exact tracks_runFrom.bind fun place => tracks_pure
  · refine (tracks_otherwise_loud hbranch).bind fun whenFalse => ?_
    exact tracks_runFrom.bind fun place => tracks_pure

theorem tracks_assignment (pos : ValuePosition) :
    Tracks w (Clear w) (assignment inner pos) (Open w) := by
  refine tracks_position.bind fun start => ?_
  refine (tracks_ternary hinner pos).bind fun target => ?_
  refine tracks_eat open_owing rfl ?_ tracks_pure
  refine (hinner .full .assignment).bind fun value => ?_
  exact tracks_runFrom.bind fun place => tracks_pure

end Whole

theorem tracks_exprWithin (n : Nat) (reach : Reach) (pos : ValuePosition) :
    Tracks w (Clear w) (exprWithin n reach pos) (Open w) := by
  induction n generalizing reach pos with
  | zero => exact tracks_missingValue pos
  | succ n ih =>
    cases reach with
    | full => exact tracks_assignment ih pos
    | ternary => exact tracks_ternary ih pos

/-- **An expression owes at most the keyword in front of which it stops.** -/
theorem tracks_expr (reach : Reach) (pos : ValuePosition) :
    Tracks w (Clear w) (expr reach pos) (Open w) :=
  fun s i h => tracks_exprWithin (i.rest.length + 1) reach pos s i h

end Parser

end PlatformGate
