/-
# Expressions end in front of the line

Nested terminals stand in front of a line that begins with a keyword (`Anchored`).  Each parser of a
value is followed from where brackets are still to be closed (`Input.Before`) to where it stops.
The statements are triples: `Leads P p Q` says that `p` leads from where `P` holds to where `Q`
holds, whatever it reads and reports on the way.

An expression closes the parentheses it has opened, or gives one up and goes on as if the `)` were
still to come.  So it stops with at least the `)` that were to come before, and with the same `}`.
-/
import PlatformGate.Proofs.Joining.Nested

namespace PlatformGate

namespace Parser

variable {α β : Type}

/-! ## 1. One rule for each step -/

/-- From wherever `P` holds, the parser leads to where `Q` holds. -/
def Leads (P : Input → Prop) (p : Parser α) (Q : Input → Prop) : Prop :=
  ∀ i, P i → p.Ensures i fun _ _ j => Q j

section Rules

variable {P Q R : Input → Prop} {p : Parser α}

theorem leads_pure {a : α} : Leads P (pure a) P := fun _ h => h

theorem leads_pure_of {a : α} (h : ∀ i, P i → Q i) : Leads P (pure a) Q := h

theorem Leads.bind {f : α → Parser β} (h : Leads P p Q) (hf : ∀ a, Leads Q (f a) R) :
    Leads P (p >>= f) R := fun i hi => hf _ _ (h i hi)

theorem Leads.from_of {P' : Input → Prop} (h : Leads P p Q) (hP : ∀ i, P' i → P i) :
    Leads P' p Q := fun i hi => h i (hP i hi)

theorem Leads.ite {c : Prop} [Decidable c] {p' : Parser α} (h : Leads P p Q)
    (h' : Leads P p' Q) : Leads P (if c then p else p') Q := by
  split
  · exact h
  · exact h'

theorem Leads.quietly (h : Leads P p Q) : Leads P (quietly p) Q := h

/-- Every round leads back. -/
theorem leads_collect {item : Parser (Option α)} (h : Leads P item P) :
    Leads P (collect item) P := by
  have hwithin : ∀ n, Leads P (collectWithin item n) P := by
    intro n
    induction n with
    | zero => exact leads_pure
    | succ n ih =>
      apply h.bind
      intro a?
      cases a? with
      | none => exact leads_pure
      | some a =>
        apply ih.bind
        intro as
        exact leads_pure
  exact fun i hi => hwithin _ i hi

/-- What is looked at is known behind the look. -/
theorem leads_kind {f : Kind String → Parser α}
    (h : ∀ a, Leads (fun i => P i ∧ i.kind = a) (f a) Q) : Leads P (kind >>= f) Q :=
  fun i hi => h i.kind i ⟨hi, rfl⟩

theorem leads_check {f : Fixed} {g : Bool → Parser α}
    (hyes : Leads (fun i => P i ∧ i.kind = .fixed f) (g true) Q) (hno : Leads P (g false) Q) :
    Leads P (check f >>= g) Q := by
  intro i hi
  rw [ensures_bind, ensures_check]
  exact ⟨fun hkind => hyes i ⟨hi, hkind⟩, fun _ => hno i hi⟩

theorem leads_eat {f : Fixed} {g : Bool → Parser α} {P' : Input → Prop}
    (hnext : ∀ i, P i → i.kind = .fixed f → P' i.next) (hyes : Leads P' (g true) Q)
    (hno : Leads P (g false) Q) : Leads P (eat f >>= g) Q := by
  intro i hi
  rw [ensures_bind, ensures_eat]
  exact ⟨fun hkind => hyes i.next (hnext i hi hkind), fun _ => hno i hi⟩

theorem leads_next (h : ∀ i, P i → Q i.next) : Leads P next Q := h

end Rules

section Silent

variable {P : Input → Prop}

theorem leads_position : Leads P position P := fun _ h => h

theorem leads_atEnd : Leads P atEnd P := fun _ h => h

theorem leads_atLineStart : Leads P atLineStart P := fun _ h => h

theorem leads_afterNewline : Leads P afterNewline P := fun _ h => h

theorem leads_runFrom {start : Nat} : Leads P (runFrom start) P := fun _ h => h

/-- What was read is written down with its place. -/
theorem leads_placed {b : Run → α} {start : Nat} :
    Leads P (do return b (← runFrom start)) P := fun _ h => h

theorem leads_reportHere {cause : Cause Run} : Leads P (reportHere cause) P := fun _ h => h

end Silent

/-! ## 2. In front of the line -/

section Before

variable {line : List Terminal} (hline : Anchored line) {m a b : Nat}

include hline

theorem before_next {i : Input} (h : i.Before line m a b) (hplain : i.kind.isPlain = true) :
    i.next.Before line m a b := by
  obtain ⟨hopener, hcloser, hanchor⟩ := Kind.isPlain_iff.mp hplain
  exact (h.next_pass (hline.rest_ne hanchor) hopener hcloser).mono (Nat.sub_le m 1) (Nat.le_refl a)

theorem before_take {k : Kind String} (hplain : k.isPlain = true) :
    Leads (fun i => i.Before line m a b ∧ i.kind = k) next (Input.Before line m a b) := by
  rintro i ⟨h, rfl⟩
  exact before_next hline h hplain

theorem before_lparen {i : Input} (h : i.Before line m a b) (hkind : i.kind = .fixed .lparen) :
    i.next.Before line m (a + 1) b := by
  have hrest : i.rest ≠ line := hline.rest_ne (by rw [hkind]; rfl)
  exact (h.next_open hrest hkind rfl).mono (Nat.sub_le m 1) (Nat.le_refl (a + 1))

theorem before_lbrace {i : Input} (h : i.Before line m a b) (hkind : i.kind = .fixed .lbrace) :
    i.next.Before line m a (b + 1) := by
  have hrest : i.rest ≠ line := hline.rest_ne (by rw [hkind]; rfl)
  exact (h.next_open hrest hkind rfl).mono (Nat.sub_le m 1) (Nat.le_refl a)

theorem before_rparen {i : Input} (h : i.Before line m (a + 1) b)
    (hkind : i.kind = .fixed .rparen) : i.next.Before line m a b := by
  have hrest : i.rest ≠ line := hline.rest_ne (by rw [hkind]; rfl)
  exact (h.next_close hrest hkind rfl).2.mono (Nat.sub_le m 1) (Nat.le_refl a)

theorem before_eat {f : Fixed} (hplain : Kind.isPlain (.fixed f) = true) :
    Leads (Input.Before line m a b) (eat f) (Input.Before line m a b) := by
  intro i h
  rw [ensures_eat]
  refine ⟨fun hkind => ?_, fun _ => h⟩
  apply before_next hline h
  rw [hkind]
  exact hplain

theorem before_leftovers (c : Construct) (stop : TagSet) (lineSensitive : Bool) :
    Leads (fun i => i.Before line m a b ∧ i.rest ≠ line) (leftovers c stop lineSensitive)
      (Input.Before line m a b) := by
  rintro i ⟨h, hrest⟩
  rw [ensures_leftovers]
  refine ⟨fun _ => h, ?_⟩
  rintro n rfl -
  exact h.capture hline hrest stop lineSensitive

omit hline in
theorem before_unclosed_empty (c : Construct) (opener : Nat) :
    Leads (Input.Before line m a b) (unclosed c opener TagSet.empty) (Input.Before line m a b) := by
  intro i h
  rw [ensures_unclosed, probeLength?_empty]
  exact h

theorem before_unclosed (c : Construct) (opener : Nat) {resume : TagSet}
    (hresume : ∀ k : Kind String, k.isFixed Fixed.isAnchor = true → resume.contains k = false) :
    Leads (Input.Before line m a b) (unclosed c opener resume) (Input.Before line m 0 b) := by
  intro i h
  rw [ensures_unclosed]
  exact h.probe hline hresume

end Before

/-! ## 3. Expressions -/

section Expressions

variable {line : List Terminal} (hline : Anchored line) {m b : Nat}

theorem before_missingValue (pos : ValuePosition) {a : Nat} :
    Leads (Input.Before line m a b) (missingValue pos) (Input.Before line m a b) :=
  fun _ h => h

theorem before_errorHere {a : Nat} :
    Leads (Input.Before line m a b) errorHere (Input.Before line m a b) := fun _ h => h

include hline

theorem before_valueBehindComma? {value : Parser (Expr Run)} {a : Nat}
    (hvalue : Leads (Input.Before line m a b) value (Input.Before line m a b)) :
    Leads (Input.Before line m a b) (valueBehindComma? value) (Input.Before line m a b) := by
  apply (before_eat hline (f := .comma) rfl).bind
  intro comma
  apply Leads.ite
  · apply hvalue.bind
    intro e
    exact leads_pure
  · exact leads_pure

/-- A list in parentheses takes its `)`, or leaves one more to come. -/
theorem before_values {value : Parser (Expr Run)} {a : Nat}
    (hvalue : Leads (Input.Before line m (a + 1) b) value (Input.Before line m (a + 1) b))
    (c : Construct) (opener : Nat) :
    Leads (Input.Before line m (a + 1) b) (values value c opener) (Input.Before line m a b) := by
  have hclose : ∀ i : Input, i.Before line m (a + 1) b → i.kind = .fixed .rparen →
      i.next.Before line m a b := fun _ h hkind => before_rparen hline h hkind
  -- a `)` is still to come, so leftovers do not begin on the line
  have hleftovers : Leads (Input.Before line m (a + 1) b)
      (leftovers c (TagSet.ofFixed [.rparen]) false) (Input.Before line m (a + 1) b) :=
    (before_leftovers hline c _ false).from_of fun i h => ⟨h, h.rest_ne (.inl (Nat.succ_pos a))⟩
  apply leads_eat hclose
  · exact leads_pure
  · apply hvalue.bind
    intro first
    apply (leads_collect (before_valueBehindComma? hline hvalue)).bind
    intro others
    apply hleftovers.bind
    intro _
    apply leads_eat hclose
    · exact leads_pure
    · apply (before_unclosed_empty c opener).bind
      intro _
      exact leads_pure_of fun i h => h.mono (Nat.le_refl m) (Nat.le_succ a)

theorem before_primary {value : Parser (Expr Run)}
    (hvalue : ∀ a, Leads (Input.Before line m a b) value (Input.Before line m a b))
    (pos : ValuePosition) (a : Nat) :
    Leads (Input.Before line m a b) (primary value pos) (Input.Before line m a b) := by
  -- a value that is one token
  have hone : ∀ {k : Kind String} {e : Expr Run}, k.isPlain = true →
      Leads (fun i => i.Before line m a b ∧ i.kind = k) (do next; return e)
        (Input.Before line m a b) := by
    intro k e hplain
    apply (before_take hline hplain).bind
    intro _
    exact leads_pure
  have hother : ∀ k, Leads (fun i => i.Before line m a b ∧ i.kind = k) (missingValue pos)
      (Input.Before line m a b) :=
    fun k => (before_missingValue pos).from_of fun i h => h.1
  apply leads_position.bind
  intro start
  apply leads_kind
  intro k
  cases k with
  | number v => exact hone rfl
  | word name => exact hone rfl
  | invalid =>
    rintro i ⟨h, hkind⟩
    rw [ensures_bind, ensures_invalidToken]
    apply before_next hline h
    rw [hkind]
    rfl
  | fixed f =>
    cases f with
    | trueWord | falseWord | underscore => exact hone rfl
    | lparen =>
      apply (leads_next fun i h => before_lparen hline h.1 h.2).bind
      intro _
      apply (before_values hline (hvalue (a + 1)) .tuple start).bind
      intro items
      exact leads_placed
    | _ => exact hother _
  | _ => exact hother _

theorem before_arguments? {arg : Parser (Expr Run)}
    (harg : ∀ a, Leads (Input.Before line m a b) arg (Input.Before line m a b)) (a : Nat) :
    Leads (Input.Before line m a b) (arguments? arg) (Input.Before line m a b) := by
  apply leads_position.bind
  intro opener
  apply leads_check
  · apply leads_afterNewline.bind
    intro newline
    apply Leads.ite
    · apply (leads_next fun i h => before_lparen hline h.1 h.2).bind
      intro _
      apply (before_values hline (harg (a + 1)) .call opener).bind
      intro args
      apply leads_position.bind
      intro stop
      exact leads_pure
    · exact leads_pure_of fun i h => h.1
  · apply leads_afterNewline.bind
    intro newline
    rw [Bool.false_and]
    exact leads_pure

omit hline in
theorem isPlain_of_unary {k : Kind String} {op : UnaryOperator}
    (h : UnaryOperator.ofKind? k = some op) : k.isPlain = true := by
  cases k with
  | fixed f =>
    cases f with
    | bang | minus => rfl
    | _ => exact absurd h nofun
  | _ => rfl

omit hline in
theorem isPlain_of_binary {k : Kind String} {op : BinaryOperator}
    (h : BinaryOperator.ofKind? k = some op) : k.isPlain = true := by
  cases k with
  | fixed f =>
    cases f with
    | lparen | rparen | lbrace | rbrace | lbracket | rbracket => exact absurd h nofun
    | guardWord | whileWord | returnWord => exact absurd h nofun
    | _ => rfl
  | _ => rfl

theorem before_sign? {a : Nat} :
    Leads (Input.Before line m a b) sign? (Input.Before line m a b) := by
  apply leads_position.bind
  intro start
  apply leads_kind
  intro k
  cases hop : UnaryOperator.ofKind? k with
  | none => exact leads_pure_of fun i h => h.1
  | some op =>
    apply (before_take hline (isPlain_of_unary hop)).bind
    intro _
    exact leads_pure

section Chains

variable {inner : ValuePosition → Parser (Expr Run)}
variable (hinner : ∀ pos a, Leads (Input.Before line m a b) (inner pos) (Input.Before line m a b))

include hinner

theorem before_operand (pos : ValuePosition) (a : Nat) :
    Leads (Input.Before line m a b) (operand inner pos) (Input.Before line m a b) := by
  apply (leads_collect (before_sign? hline)).bind
  intro signs
  apply (before_primary hline (hinner _) _ a).bind
  intro callee
  apply (leads_collect (before_arguments? hline (hinner _) a)).bind
  intro lists
  exact leads_pure

theorem before_link? (a : Nat) :
    Leads (Input.Before line m a b) (link? inner) (Input.Before line m a b) := by
  apply leads_kind
  intro k
  cases hop : BinaryOperator.ofKind? k with
  | none => exact leads_pure_of fun i h => h.1
  | some op =>
    apply (before_take hline (isPlain_of_binary hop)).bind
    intro _
    apply (before_operand hline hinner _ a).bind
    intro right
    exact leads_pure

theorem before_chain (pos : ValuePosition) (a : Nat) :
    Leads (Input.Before line m a b) (chain inner pos) (Input.Before line m a b) := by
  apply (before_operand hline hinner pos a).bind
  intro first
  apply (leads_collect (before_link? hline hinner a)).bind
  intro links
  exact leads_pure

end Chains

theorem before_otherwise {branch : Parser (Expr Run)} {a : Nat}
    (hbranch : Leads (Input.Before line m a b) branch (Input.Before line m a b)) (quiet : Bool) :
    Leads (Input.Before line m a b) (otherwise branch quiet) (Input.Before line m a b) := by
  apply (before_eat hline (f := .colon) rfl).bind
  intro colon
  apply Leads.ite
  · exact hbranch
  · apply Leads.ite
    · apply leads_reportHere.bind
      intro _
      exact before_errorHere
    · exact before_errorHere

section Whole

variable {inner : Reach → ValuePosition → Parser (Expr Run)}
variable (hinner : ∀ reach pos a,
  Leads (Input.Before line m a b) (inner reach pos) (Input.Before line m a b))

include hinner

theorem before_ternary (pos : ValuePosition) (a : Nat) :
    Leads (Input.Before line m a b) (ternary inner pos) (Input.Before line m a b) := by
  apply leads_position.bind
  intro start
  apply (before_chain hline (hinner .full) pos a).bind
  intro cond
  apply (before_eat hline (f := .question) rfl).bind
  intro mark
  apply Leads.ite
  · apply (hinner .ternary .ternary a).quietly.bind
    rintro ⟨whenTrue, quiet⟩
    apply (before_otherwise hline (hinner .ternary .ternary a) quiet).bind
    intro whenFalse
    exact leads_placed
  · exact leads_pure

theorem before_assignment (pos : ValuePosition) (a : Nat) :
    Leads (Input.Before line m a b) (assignment inner pos) (Input.Before line m a b) := by
  apply leads_position.bind
  intro start
  apply (before_ternary hline hinner pos a).bind
  intro target
  apply (before_eat hline (f := .eq) rfl).bind
  intro mark
  apply Leads.ite
  · apply (hinner .full .assignment a).bind
    intro value
    exact leads_placed
  · exact leads_pure

end Whole

theorem before_exprWithin (n : Nat) (reach : Reach) (pos : ValuePosition) (a : Nat) :
    Leads (Input.Before line m a b) (exprWithin n reach pos) (Input.Before line m a b) := by
  induction n generalizing reach pos a with
  | zero => exact before_missingValue pos
  | succ n ih =>
    cases reach with
    | full => exact before_assignment hline ih pos a
    | ternary => exact before_ternary hline ih pos a

/-- **An expression ends in front of the line,** and inside the brackets it began in. -/
theorem before_expr (reach : Reach) (pos : ValuePosition) (a : Nat) :
    Leads (Input.Before line m a b) (expr reach pos) (Input.Before line m a b) :=
  fun i h => before_exprWithin hline (i.rest.length + 1) reach pos a i h

end Expressions

end Parser

end PlatformGate
