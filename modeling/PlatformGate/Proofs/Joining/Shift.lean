/-
# Reading further on

A parser does not look at the index of the next terminal.  It only writes indexes into the places of
what it reads and reports; so what it reads `k` terminals further on is the same with all places
moved by `k`.  `Shifted k φ p q` says so of two parsers, where `φ` moves the places in a value.  The
two parsers may differ, since the rest of a parser may hold an index that was written down before.
-/
import PlatformGate.Parse.Statement

namespace PlatformGate

variable {α β γ δ : Type} {k : Nat}

/-! ## 1. Places further on -/

/-- The run further on by some terminals. -/
def Run.shift (k : Nat) (r : Run) : Run := ⟨r.first + k, r.past + k⟩

/-- The same terminals at a place further on. -/
def Input.shift (k : Nat) (i : Input) : Input := ⟨i.position + k, i.rest⟩

/-- A move of all places in an expression. -/
def Expr.shift (k : Nat) (e : Expr Run) : Expr Run := e.map (Run.shift k)

/-- A move of all places in a statement. -/
def Stmt.shift (k : Nat) (s : Stmt Run) : Stmt Run := s.map (Run.shift k)

namespace Expr

theorem shift_graft (op : BinaryOperator) (right : Expr Run) :
    ∀ e : Expr Run, shift k (graft op right e) = graft op (shift k right) (shift k e)
  | .binary o l r p => by
    unfold shift graft
    rw [map]
    dsimp only
    split
    · have hgraft := shift_graft op right r
      unfold shift at hgraft
      rw [map, hgraft, place_map]
      rfl
    · rw [map, map, place_map]
      rfl
  | .int .. | .bool .. | .ident .. | .discard .. | .paren .. | .tuple .. | .call .. | .unary ..
  | .ternary .. | .assign .. | .error .. => by
    simp only [shift, graft, map]
    rw [place_map]
    rfl

theorem shift_ofChain (first : Expr Run) (links : List (BinaryOperator × Expr Run)) :
    shift k (ofChain first links) =
      ofChain (shift k first) (links.map (Prod.map id (shift k))) := by
  unfold ofChain
  induction links generalizing first with
  | nil => rfl
  | cons l links ih =>
    rw [List.foldl_cons, ih, shift_graft]
    rfl

theorem shift_ofSigns (signs : List (UnaryOperator × Nat)) (operand : Expr Run) :
    shift k (ofSigns signs operand) =
      ofSigns (signs.map (Prod.map id (· + k))) (shift k operand) := by
  unfold ofSigns
  induction signs with
  | nil => rfl
  | cons s signs ih =>
    rw [List.foldr_cons, List.map_cons, List.foldr_cons, ← ih]
    unfold shift
    rw [map, place_map]
    rfl

theorem shift_ofCalls (callee : Expr Run) (lists : List (List (Expr Run) × Nat)) :
    shift k (ofCalls callee lists) =
      ofCalls (shift k callee) (lists.map (Prod.map (List.map (shift k)) (· + k))) := by
  unfold ofCalls
  induction lists generalizing callee with
  | nil => rfl
  | cons l lists ih =>
    rw [List.foldl_cons, ih, List.map_cons, List.foldl_cons]
    unfold shift
    rw [map, mapAll_eq_map, place_map]
    rfl

end Expr

/-! ## 2. One rule for each step -/

namespace Parser

/-- Further on by `k` terminals, `q` does what `p` does. -/
def Shifted (k : Nat) (φ : α → β) (p : Parser α) (q : Parser β) : Prop :=
  ∀ i, q (i.shift k) =
    ⟨φ (p i).value, (p i).reports.map (Report.map (Run.shift k)), (p i).next.shift k⟩

section Rules

variable {φ : α → β} {ψ : γ → δ} {p : Parser α} {q : Parser β}

theorem shifted_pure {a : α} {b : β} (h : φ a = b) : Shifted k φ (pure a) (pure b) := by
  rintro i
  rw [← h]
  rfl

theorem Shifted.bind {f : α → Parser γ} {g : β → Parser δ} (h : Shifted k φ p q)
    (hf : ∀ a, Shifted k ψ (f a) (g (φ a))) : Shifted k ψ (p >>= f) (q >>= g) := by
  intro i
  rw [bind_apply, bind_apply, h i]
  dsimp only
  rw [hf, List.map_append]

/-- Where no value depends on the place. -/
theorem Shifted.bind_same {p q : Parser α} {f : α → Parser γ} {g : α → Parser δ}
    (h : Shifted k (fun a => a) p q) (hf : ∀ a, Shifted k ψ (f a) (g a)) :
    Shifted k ψ (p >>= f) (q >>= g) :=
  h.bind hf

theorem Shifted.ite {c : Prop} [Decidable c] {p' : Parser α} {q' : Parser β} (h : Shifted k φ p q)
    (h' : Shifted k φ p' q') :
    Shifted k φ (if c then p else p') (if c then q else q') := by
  split
  · exact h
  · exact h'

theorem Shifted.quietly (h : Shifted k φ p q) :
    Shifted k (Prod.map φ id) (quietly p) (quietly q) := by
  intro i
  unfold Parser.quietly
  rw [h i]
  simp

end Rules

theorem shifted_position : Shifted k (· + k) position position := fun _ => rfl

theorem shifted_kind : Shifted k (fun a => a) kind kind := fun _ => rfl

theorem shifted_atLineStart : Shifted k (fun a => a) atLineStart atLineStart := fun _ => rfl

theorem shifted_afterNewline : Shifted k (fun a => a) afterNewline afterNewline := fun _ => rfl

theorem shifted_atEnd : Shifted k (fun a => a) atEnd atEnd := fun _ => rfl

theorem shifted_rest : Shifted k (fun a => a) rest rest := fun _ => rfl

theorem shifted_check (f : Fixed) : Shifted k (fun a => a) (check f) (check f) := fun _ => rfl

theorem shifted_next : Shifted k (fun a => a) next next := by
  rintro ⟨position, rest⟩
  cases rest with
  | nil => rfl
  | cons t ts =>
    have hposition : position + k + 1 = position + 1 + k := by omega
    simp only [next, Input.next, Input.shift, hposition]
    rfl

theorem shifted_skip (n : Nat) : Shifted k (fun a => a) (skip n) (skip n) := by
  intro i
  have hposition : i.position + k + n = i.position + n + k := by omega
  simp only [skip, Input.skip, Input.shift, hposition]
  rfl

theorem shifted_eat (f : Fixed) : Shifted k (fun a => a) (eat f) (eat f) := by
  intro i
  have hkind : (i.shift k).kind = i.kind := rfl
  have hnext : (i.shift k).next = i.next.shift k := congrArg Step.next (shifted_next i)
  simp only [eat, hkind, hnext]
  split <;> rfl

theorem shifted_runFrom (start : Nat) :
    Shifted k (Run.shift k) (runFrom start) (runFrom (start + k)) := fun _ => rfl

/-- What was read is written down with its place. -/
theorem shifted_placed {φ : α → β} {b : Run → α} {b' : Run → β} (start : Nat)
    (h : ∀ place, φ (b place) = b' (place.shift k)) :
    Shifted k φ (do return b (← runFrom start)) (do return b' (← runFrom (start + k))) :=
  (shifted_runFrom start).bind fun place => shifted_pure (h place)

theorem shifted_report (cause : Cause Run) (place : Run) :
    Shifted k (fun a => a) (report cause place)
      (report (cause.map (Run.shift k)) (place.shift k)) := fun _ => rfl

theorem token_shift (i : Nat) : Run.token (i + k) = (Run.token i).shift k := by
  unfold Run.token Run.shift
  rw [Nat.add_right_comm]

theorem shifted_reportHere (cause : Cause Run) :
    Shifted k (fun a => a) (reportHere cause) (reportHere (cause.map (Run.shift k))) := by
  intro i
  have htoken : Run.token (i.shift k).position = (Run.token i.position).shift k := token_shift _
  unfold reportHere
  rw [htoken]
  rfl

theorem shifted_invalidToken : Shifted k (Run.shift k) invalidToken invalidToken := by
  apply shifted_position.bind
  intro start
  apply shifted_next.bind_same
  intro _
  rw [token_shift]
  apply (shifted_report .invalidToken (Run.token start)).bind_same
  intro _
  exact shifted_pure rfl

theorem shifted_collect {φ : α → β} {item : Parser (Option α)} {item' : Parser (Option β)}
    (h : Shifted k (Option.map φ) item item') :
    Shifted k (List.map φ) (collect item) (collect item') := by
  have hwithin : ∀ n, Shifted k (List.map φ) (collectWithin item n) (collectWithin item' n) := by
    intro n
    induction n with
    | zero => exact shifted_pure rfl
    | succ n ih =>
      apply h.bind
      intro a?
      cases a? with
      | none => exact shifted_pure rfl
      | some a =>
        apply ih.bind
        intro as
        exact shifted_pure rfl
  exact fun i => hwithin (i.rest.length + 1) i

/-! ## 3. Going on after a problem -/

theorem shifted_leftovers (c : Construct) (stop : TagSet) (lineSensitive : Bool) :
    Shifted k (fun a => a) (leftovers c stop lineSensitive) (leftovers c stop lineSensitive) := by
  apply shifted_position.bind
  intro start
  apply shifted_rest.bind_same
  intro ts
  apply Shifted.ite
  · exact shifted_pure rfl
  · apply (shifted_skip _).bind_same
    intro _
    apply (shifted_runFrom start).bind
    intro place
    exact shifted_report (.leftover c) place

theorem shifted_strayCloser (c : Construct) :
    Shifted k (fun a => a) (strayCloser c) (strayCloser c) := by
  apply shifted_position.bind
  intro start
  apply shifted_next.bind_same
  intro _
  rw [token_shift]
  exact shifted_report (.leftover c) (Run.token start)

theorem shifted_unclosed (c : Construct) (opener : Nat) (resume : TagSet) :
    Shifted k (fun a => a) (unclosed c opener resume) (unclosed c (opener + k) resume) := by
  unfold unclosed
  rw [token_shift]
  apply (shifted_reportHere (.unclosed c (Run.token opener))).bind_same
  intro _
  apply shifted_rest.bind_same
  intro ts
  cases probeLength? resume 0 ts with
  | some n => exact shifted_skip n
  | none => exact shifted_pure rfl

/-! ## 4. Expressions -/

theorem shifted_errorHere : Shifted k (Expr.shift k) errorHere errorHere := by
  apply shifted_position.bind
  intro start
  exact shifted_pure rfl

theorem shifted_missingValue (pos : ValuePosition) :
    Shifted k (Expr.shift k) (missingValue pos) (missingValue pos) := by
  apply shifted_position.bind
  intro start
  apply (shifted_report (.missingValue pos) (Run.point start)).bind_same
  intro _
  exact shifted_errorHere

section Values

variable {value value' : Parser (Expr Run)}
variable (hvalue : Shifted k (Expr.shift k) value value')

include hvalue

theorem shifted_valueBehindComma? :
    Shifted k (Option.map (Expr.shift k)) (valueBehindComma? value) (valueBehindComma? value') := by
  apply (shifted_eat .comma).bind_same
  intro comma
  apply Shifted.ite
  · apply hvalue.bind
    intro e
    exact shifted_pure rfl
  · exact shifted_pure rfl

theorem shifted_values (c : Construct) (opener : Nat) :
    Shifted k (List.map (Expr.shift k)) (values value c opener) (values value' c (opener + k)) := by
  apply (shifted_eat .rparen).bind_same
  intro empty
  apply Shifted.ite
  · exact shifted_pure rfl
  · apply hvalue.bind
    intro first
    apply (shifted_collect (shifted_valueBehindComma? hvalue)).bind
    intro others
    apply (shifted_leftovers c _ false).bind_same
    intro _
    apply (shifted_eat .rparen).bind_same
    intro closed
    apply Shifted.ite
    · exact shifted_pure rfl
    · apply (shifted_unclosed c opener TagSet.empty).bind_same
      intro _
      exact shifted_pure rfl

omit hvalue in
theorem shift_grouped (place : Run) (es : List (Expr Run)) :
    Expr.shift k (grouped place es) = grouped (place.shift k) (es.map (Expr.shift k)) := by
  match es with
  | [] => rfl
  | [e] => rfl
  | e :: e' :: es =>
    unfold grouped Expr.shift
    rw [Expr.map, Expr.mapAll_eq_map]
    rfl

theorem shifted_primary (pos : ValuePosition) :
    Shifted k (Expr.shift k) (primary value pos) (primary value' pos) := by
  have hone : ∀ {e : Run → Expr Run} {start : Nat},
      (∀ place, Expr.shift k (e place) = e (place.shift k)) →
      Shifted k (Expr.shift k) (do next; return e (Run.token start) : Parser (Expr Run))
        (do next; return e (Run.token (start + k)) : Parser (Expr Run)) := by
    intro e start he
    apply shifted_next.bind_same
    intro _
    rw [token_shift]
    exact shifted_pure (he _)
  have hother := shifted_missingValue (k := k) pos
  apply shifted_position.bind
  intro start
  apply shifted_kind.bind_same
  intro a
  cases a with
  | number v => exact hone fun _ => rfl
  | word name => exact hone fun _ => rfl
  | invalid =>
    apply shifted_invalidToken.bind
    intro place
    exact shifted_pure rfl
  | fixed f =>
    cases f with
    | trueWord | falseWord => exact hone fun _ => rfl
    | underscore => exact hone fun _ => rfl
    | lparen =>
      apply shifted_next.bind_same
      intro _
      apply (shifted_values hvalue .tuple start).bind
      intro items
      exact shifted_placed start fun place => shift_grouped place items
    | _ => exact hother
  | _ => exact hother

theorem shifted_arguments? :
    Shifted k (Option.map (Prod.map (List.map (Expr.shift k)) (· + k))) (arguments? value)
      (arguments? value') := by
  apply shifted_position.bind
  intro opener
  apply (shifted_check .lparen).bind_same
  intro opens
  apply shifted_afterNewline.bind_same
  intro newline
  apply Shifted.ite
  · apply shifted_next.bind_same
    intro _
    apply (shifted_values hvalue .call opener).bind
    intro args
    apply shifted_position.bind
    intro stop
    exact shifted_pure rfl
  · exact shifted_pure rfl

end Values

theorem shifted_sign? :
    Shifted k (Option.map (Prod.map id (· + k))) sign? sign? := by
  apply shifted_position.bind
  intro start
  apply shifted_kind.bind_same
  intro a
  cases UnaryOperator.ofKind? a with
  | none => exact shifted_pure rfl
  | some op =>
    apply shifted_next.bind_same
    intro _
    exact shifted_pure rfl

section Chains

variable {inner inner' : ValuePosition → Parser (Expr Run)}
variable (hinner : ∀ pos, Shifted k (Expr.shift k) (inner pos) (inner' pos))

include hinner

theorem shifted_operand (pos : ValuePosition) :
    Shifted k (Expr.shift k) (operand inner pos) (operand inner' pos) := by
  apply (shifted_collect shifted_sign?).bind
  intro signs
  rw [List.isEmpty_map]
  apply (shifted_primary (hinner _) _).bind
  intro callee
  apply (shifted_collect (shifted_arguments? (hinner _))).bind
  intro lists
  apply shifted_pure
  rw [Expr.shift_ofSigns, Expr.shift_ofCalls]

theorem shifted_link? :
    Shifted k (Option.map (Prod.map id (Expr.shift k))) (link? inner) (link? inner') := by
  apply shifted_kind.bind_same
  intro a
  cases BinaryOperator.ofKind? a with
  | none => exact shifted_pure rfl
  | some op =>
    apply shifted_next.bind_same
    intro _
    apply (shifted_operand hinner _).bind
    intro right
    exact shifted_pure rfl

theorem shifted_chain (pos : ValuePosition) :
    Shifted k (Expr.shift k) (chain inner pos) (chain inner' pos) := by
  apply (shifted_operand hinner pos).bind
  intro first
  apply (shifted_collect (shifted_link? hinner)).bind
  intro links
  exact shifted_pure (Expr.shift_ofChain first links)

end Chains

theorem shifted_otherwise {branch branch' : Parser (Expr Run)}
    (hbranch : Shifted k (Expr.shift k) branch branch') (quiet : Bool) :
    Shifted k (Expr.shift k) (otherwise branch quiet) (otherwise branch' quiet) := by
  apply (shifted_eat .colon).bind_same
  intro colon
  apply Shifted.ite
  · exact hbranch
  · apply Shifted.ite
    · apply (shifted_reportHere .missingColon).bind_same
      intro _
      exact shifted_errorHere
    · exact shifted_errorHere

section Expressions

variable {inner inner' : Reach → ValuePosition → Parser (Expr Run)}
variable (hinner : ∀ reach pos, Shifted k (Expr.shift k) (inner reach pos) (inner' reach pos))

include hinner

theorem shifted_ternary (pos : ValuePosition) :
    Shifted k (Expr.shift k) (ternary inner pos) (ternary inner' pos) := by
  apply shifted_position.bind
  intro start
  apply (shifted_chain (hinner .full) pos).bind
  intro cond
  apply (shifted_eat .question).bind_same
  intro mark
  apply Shifted.ite
  · apply (hinner .ternary .ternary).quietly.bind
    rintro ⟨whenTrue, quiet⟩
    apply (shifted_otherwise (hinner .ternary .ternary) quiet).bind
    intro whenFalse
    exact shifted_placed start fun _ => rfl
  · exact shifted_pure rfl

theorem shifted_assignment (pos : ValuePosition) :
    Shifted k (Expr.shift k) (assignment inner pos) (assignment inner' pos) := by
  apply shifted_position.bind
  intro start
  apply (shifted_ternary hinner pos).bind
  intro target
  apply (shifted_eat .eq).bind_same
  intro mark
  apply Shifted.ite
  · apply (hinner .full .assignment).bind
    intro value
    exact shifted_placed start fun _ => rfl
  · exact shifted_pure rfl

end Expressions

theorem shifted_exprWithin (n : Nat) (reach : Reach) (pos : ValuePosition) :
    Shifted k (Expr.shift k) (exprWithin n reach pos) (exprWithin n reach pos) := by
  induction n generalizing reach pos with
  | zero => exact shifted_missingValue pos
  | succ n ih =>
    cases reach with
    | full => exact shifted_assignment ih pos
    | ternary => exact shifted_ternary ih pos

/-- **An expression further on** is the same expression further on. -/
theorem shifted_expr (reach : Reach) (pos : ValuePosition) :
    Shifted k (Expr.shift k) (expr reach pos) (expr reach pos) :=
  fun i => shifted_exprWithin (i.rest.length + 1) reach pos i

end Parser

end PlatformGate
