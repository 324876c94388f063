/-
# Reading lines further on

Queries, clauses, statements and what goes on between them: one fact about each parser, as for
expressions, and in the order in which they are built from each other.  Statements are met inside
statements, so there the fact about the inner ones is a hypothesis until the recursion closes it.
-/
import PlatformGate.Proofs.Joining.Shift

namespace PlatformGate

variable {k : Nat}

namespace Parser

/-! ## 1. Queries -/

/-- What has no place is the same further on. -/
theorem Shifted.map_same {α : Type} {p : Parser (Option α)} (h : Shifted k (fun a => a) p p) :
    Shifted k (Option.map fun a => a) p p := by
  intro i
  rw [h i, Option.map_id']

theorem shifted_component? : Shifted k (fun a => a) component? component? := by
  have hother : Shifted k (fun a : Option Nat => a)
      (do reportHere .missingVersion; return none)
      (do reportHere .missingVersion; return none) := by
    apply (shifted_reportHere .missingVersion).bind_same
    intro _
    exact shifted_pure rfl
  apply (shifted_eat .dot).bind_same
  intro dot
  apply Shifted.ite
  · apply shifted_kind.bind_same
    intro a
    cases a with
    | number v =>
      apply shifted_next.bind_same
      intro _
      exact shifted_pure rfl
    | invalid =>
      apply shifted_invalidToken.bind
      intro _
      exact shifted_pure rfl
    | _ => exact hother
  · exact shifted_pure rfl

theorem shifted_version? : Shifted k (fun a => a) version? version? := by
  apply shifted_kind.bind_same
  intro a
  cases a with
  | number major =>
    apply shifted_next.bind_same
    intro _
    apply shifted_component?.bind_same
    intro minor?
    cases minor? with
    | none => exact shifted_pure rfl
    | some minor =>
      apply shifted_component?.bind_same
      intro patch?
      cases patch? <;> exact shifted_pure rfl
  | invalid =>
    apply shifted_invalidToken.bind
    intro _
    exact shifted_pure rfl
  | _ => exact shifted_pure rfl

theorem shifted_illegalOperator (resume : TagSet) :
    Shifted k (fun a => a) (illegalOperator resume) (illegalOperator resume) := by
  apply shifted_kind.bind_same
  intro a
  apply Shifted.ite
  · apply (shifted_leftovers .availability _ false).bind_same
    intro _
    exact shifted_pure rfl
  · exact shifted_pure rfl

theorem shifted_entryHere? (resume : TagSet) :
    Shifted k (Option.map (Entry.map (Run.shift k))) (entryHere? resume) (entryHere? resume) := by
  have hother : ∀ a : Kind String,
      Shifted k (Option.map (Entry.map (Run.shift k)))
        (if resume.contains a then pure none else do reportHere .missingPlatform; return none)
        (if resume.contains a then pure none else do reportHere .missingPlatform; return none) := by
    intro a
    apply Shifted.ite
    · exact shifted_pure rfl
    · apply (shifted_reportHere .missingPlatform).bind_same
      intro _
      exact shifted_pure rfl
  apply (shifted_illegalOperator resume).bind_same
  intro illegal
  apply Shifted.ite
  · exact shifted_pure rfl
  · apply shifted_position.bind
    intro start
    apply shifted_kind.bind_same
    intro a
    cases a with
    | word name =>
      apply shifted_next.bind_same
      intro _
      apply shifted_version?.bind_same
      intro version
      exact shifted_placed start fun _ => rfl
    | number v =>
      apply (shifted_reportHere .missingPlatform).bind_same
      intro _
      apply shifted_version?.bind_same
      intro version
      exact shifted_placed start fun _ => rfl
    | endOfFile => exact shifted_pure rfl
    | fixed f =>
      cases f with
      | star =>
        apply shifted_next.bind_same
        intro _
        exact shifted_placed start fun _ => rfl
      | rparen => exact shifted_pure rfl
      | _ => exact hother _
    | _ => exact hother _

theorem shifted_entryBehindComma? (resume : TagSet) :
    Shifted k (Option.map (Entry.map (Run.shift k))) ( entryBehindComma? resume)
      ( entryBehindComma? resume) := by
  apply (shifted_illegalOperator resume).bind_same
  intro illegal
  apply Shifted.ite
  · exact shifted_pure rfl
  · apply (shifted_eat .comma).bind_same
    intro comma
    apply Shifted.ite
    · exact shifted_entryHere? resume
    · exact shifted_pure rfl

theorem shifted_entries (resume : TagSet) :
    Shifted k (List.map (Entry.map (Run.shift k))) (entries resume) (entries resume) := by
  apply (shifted_check .rparen).bind_same
  intro empty
  apply Shifted.ite
  · apply (shifted_reportHere .missingPlatform).bind_same
    intro _
    exact shifted_pure rfl
  · apply (shifted_entryHere? resume).bind
    intro first?
    cases first? with
    | none => exact shifted_pure rfl
    | some first =>
      apply (shifted_collect (shifted_entryBehindComma? resume)).bind
      intro others
      exact shifted_pure rfl

theorem shifted_query (resume : TagSet) :
    Shifted k (Query.map (Run.shift k)) (query resume) (query resume) := by
  apply shifted_position.bind
  intro start
  apply shifted_kind.bind_same
  intro a
  apply shifted_next.bind_same
  intro _
  apply shifted_position.bind
  intro opener
  apply (shifted_eat .lparen).bind_same
  intro opens
  apply Shifted.ite
  · apply (shifted_entries resume).bind
    intro items
    apply (shifted_eat .rparen).bind_same
    intro closed
    apply Shifted.ite
    · exact shifted_placed start fun _ => rfl
    · apply (shifted_unclosed .availability opener resume).bind_same
      intro _
      exact shifted_placed start fun _ => rfl
  · apply (shifted_reportHere .missingQueryOpener).bind_same
    intro _
    exact shifted_placed start fun _ => rfl

/-! ## 2. Clauses -/

theorem shifted_pattern (pos : PatternPosition) :
    Shifted k (Pattern.map (Run.shift k)) (pattern pos) (pattern pos) := by
  have hother : ∀ start, Shifted k (Pattern.map (Run.shift k))
      (do reportHere (.missingPattern pos); return .missing (Run.point start))
      (do reportHere (.missingPattern pos); return .missing (Run.point (start + k))) := by
    intro start
    apply (shifted_reportHere (.missingPattern pos)).bind_same
    intro _
    exact shifted_pure rfl
  apply shifted_position.bind
  intro start
  apply shifted_kind.bind_same
  intro a
  cases a with
  | word name =>
    apply shifted_next.bind_same
    intro _
    rw [token_shift]
    exact shifted_pure rfl
  | fixed f =>
    cases f with
    | underscore =>
      apply shifted_next.bind_same
      intro _
      rw [token_shift]
      exact shifted_pure rfl
    | _ => exact hother start
  | _ => exact hother start

theorem shifted_initializer? :
    Shifted k (Option.map (Expr.shift k)) initializer? initializer? := by
  apply (shifted_eat .eq).bind_same
  intro mark
  apply Shifted.ite
  · apply (shifted_expr .full .declared).bind
    intro e
    exact shifted_pure rfl
  · exact shifted_pure rfl

theorem shifted_caseValue (quiet : Bool) :
    Shifted k (Expr.shift k) (caseValue quiet) (caseValue quiet) := by
  apply (shifted_eat .eq).bind_same
  intro mark
  apply Shifted.ite
  · exact shifted_expr .full .declared
  · apply Shifted.ite
    · apply (shifted_reportHere .missingCaseValue).bind_same
      intro _
      exact shifted_errorHere
    · exact shifted_errorHere

/-- A binding in a header, behind its start. -/
theorem shifted_binding (mutable : Bool) (owner : Owner) (start : Nat) :
    Shifted k (Clause.map (Run.shift k))
      (do
        next
        let p ← pattern (.header owner)
        let init ← initializer?
        return .binding mutable p init (← runFrom start))
      (do
        next
        let p ← pattern (.header owner)
        let init ← initializer?
        return .binding mutable p init (← runFrom (start + k))) := by
  apply shifted_next.bind_same
  intro _
  apply (shifted_pattern (.header owner)).bind
  intro p
  apply shifted_initializer?.bind
  intro init
  exact shifted_placed start fun _ => rfl

theorem shifted_clause (owner : Owner) :
    Shifted k (Clause.map (Run.shift k)) (clause owner) (clause owner) := by
  have hexpr : ∀ start, Shifted k (Clause.map (Run.shift k))
      (do let e ← expr .full (.header owner); return .expr e (← runFrom start))
      (do let e ← expr .full (.header owner); return .expr e (← runFrom (start + k))) := by
    intro start
    apply (shifted_expr .full (.header owner)).bind
    intro e
    exact shifted_placed start fun _ => rfl
  apply shifted_position.bind
  intro start
  apply shifted_kind.bind_same
  intro a
  cases a with
  | fixed f =>
    cases f with
    | available | unavailable =>
      apply (shifted_query (TagSet.headerEnd owner)).bind
      intro q
      exact shifted_pure rfl
    | letWord => exact shifted_binding false owner start
    | varWord => exact shifted_binding true owner start
    | caseWord =>
      apply shifted_next.bind_same
      intro _
      apply (shifted_expr .ternary .pattern).quietly.bind
      rintro ⟨p, quiet⟩
      apply (shifted_caseValue quiet).bind
      intro init
      exact shifted_placed start fun _ => rfl
    | _ => exact hexpr start
  | _ => exact hexpr start

theorem shifted_clauseBehindComma? (owner : Owner) :
    Shifted k (Option.map (Clause.map (Run.shift k))) (clauseBehindComma? owner)
      (clauseBehindComma? owner) := by
  apply (shifted_eat .comma).bind_same
  intro comma
  apply Shifted.ite
  · apply (shifted_clause owner).bind
    intro c
    exact shifted_pure rfl
  · exact shifted_pure rfl

theorem shifted_conditions (owner : Owner) :
    Shifted k (List.map (Clause.map (Run.shift k))) (conditions owner) (conditions owner) := by
  apply (shifted_clause owner).bind
  intro first
  apply (shifted_collect (shifted_clauseBehindComma? owner)).bind
  intro others
  exact shifted_pure rfl

/-! ## 3. Between statements -/

theorem shifted_junk (c : Construct) : Shifted k (fun a => a) (junk c) (junk c) := by
  apply shifted_kind.bind_same
  intro a
  apply Shifted.ite
  · exact shifted_strayCloser c
  · exact shifted_leftovers c _ true

/-- What is read only where the line goes on. -/
theorem shifted_onLine {α β : Type} {φ : α → β} {a : α} {b : β} {p : Parser α} {q : Parser β}
    (hab : φ a = b) (h : Shifted k φ p q) :
    Shifted k φ (do if ← atEnd then return a else if ← atLineStart then return a else p)
      (do if ← atEnd then return b else if ← atLineStart then return b else q) := by
  apply shifted_atEnd.bind_same
  intro ended
  apply Shifted.ite
  · exact shifted_pure hab
  · apply shifted_atLineStart.bind_same
    intro lineStart
    apply Shifted.ite
    · exact shifted_pure hab
    · exact h

theorem shifted_trailing? (c : Construct) :
    Shifted k (fun a => a) (trailing? c) (trailing? c) := by
  have hjunk : Shifted k (fun a : Option Unit => a) (do junk c; return some ())
      (do junk c; return some ()) := by
    apply (shifted_junk c).bind_same
    intro _
    exact shifted_pure rfl
  apply shifted_onLine rfl
  apply Shifted.ite
  · apply (shifted_check .rbrace).bind_same
    intro closes
    apply Shifted.ite
    · exact shifted_pure rfl
    · exact hjunk
  · exact hjunk

theorem shifted_restOfLine (c : Construct) :
    Shifted k (fun a => a) (restOfLine c) (restOfLine c) := by
  apply (shifted_collect (shifted_trailing? c).map_same).bind
  intro _
  exact shifted_pure rfl

theorem shifted_headerTail (owner : Owner) (stop : TagSet) :
    Shifted k (fun a => a) (headerTail owner stop) (headerTail owner stop) :=
  shifted_onLine rfl (shifted_leftovers _ stop true)

/-! ## 4. Statements -/

section Statements

variable {stmt : Parser (Stmt Run)}
variable (hstmt : Shifted k (Stmt.shift k) stmt stmt)

include hstmt

theorem shifted_item (c : Construct) :
    Shifted k (Option.map (Stmt.shift k)) (item stmt c) (item stmt c) := by
  apply shifted_kind.bind_same
  intro a
  apply Shifted.ite
  · apply hstmt.bind
    intro s
    apply (shifted_restOfLine c).bind_same
    intro _
    exact shifted_pure rfl
  · apply (shifted_junk c).bind_same
    intro _
    apply (shifted_restOfLine c).bind_same
    intro _
    exact shifted_pure rfl

theorem shifted_blockItem? (opener : Nat) :
    Shifted k (Option.map (Option.map (Stmt.shift k))) (blockItem? stmt opener)
      (blockItem? stmt (opener + k)) := by
  apply (shifted_eat .rbrace).bind_same
  intro closed
  apply Shifted.ite
  · exact shifted_pure rfl
  · apply shifted_atEnd.bind_same
    intro ended
    apply Shifted.ite
    · apply (shifted_unclosed .block opener TagSet.empty).bind_same
      intro _
      exact shifted_pure rfl
    · apply (shifted_item hstmt .block).bind
      intro s
      exact shifted_pure rfl

omit hstmt in
/-- Items without a statement stay so. -/
theorem map_filterMap_id {α β : Type} (f : α → β) (items : List (Option α)) :
    (items.filterMap id).map f = (items.map (Option.map f)).filterMap id := by
  rw [List.map_filterMap, List.filterMap_map]
  rfl

theorem shifted_block : Shifted k (Stmt.mapBody (Run.shift k)) (block stmt) (block stmt) := by
  apply shifted_position.bind
  intro opener
  apply shifted_next.bind_same
  intro _
  apply (shifted_collect (shifted_blockItem? hstmt opener)).bind
  intro items
  apply shifted_placed opener
  intro place
  rw [Stmt.mapBody, Stmt.mapAll_eq_map, ← map_filterMap_id]
  rfl

theorem shifted_body (owner : Owner) :
    Shifted k (Stmt.mapBody (Run.shift k)) (body stmt owner) (body stmt owner) := by
  apply (shifted_headerTail owner TagSet.bodyStart).bind_same
  intro _
  apply (shifted_check .lbrace).bind_same
  intro opens
  apply Shifted.ite
  · exact shifted_block hstmt
  · apply shifted_atEnd.bind_same
    intro ended
    apply (shifted_reportHere (.missingBody owner ended)).bind_same
    intro _
    exact shifted_pure rfl

theorem shifted_alternative :
    Shifted k (Stmt.mapAlternative (Run.shift k)) (alternative stmt) (alternative stmt) := by
  apply (shifted_check .ifWord).bind_same
  intro chained
  apply Shifted.ite
  · apply hstmt.bind
    intro s
    exact shifted_pure rfl
  · apply (shifted_body hstmt .ifStatement).bind
    intro b
    exact shifted_pure rfl

theorem shifted_ifStatement :
    Shifted k (Stmt.shift k) (ifStatement stmt) (ifStatement stmt) := by
  apply shifted_position.bind
  intro start
  apply shifted_next.bind_same
  intro _
  apply (shifted_conditions .ifStatement).bind
  intro cs
  apply (shifted_body hstmt .ifStatement).bind
  intro b
  apply (shifted_eat .elseWord).bind_same
  intro otherwise
  apply Shifted.ite
  · apply (shifted_alternative hstmt).bind
    intro a
    exact shifted_placed start fun _ => rfl
  · exact shifted_placed start fun _ => rfl

theorem shifted_guardBody :
    Shifted k (Stmt.mapBody (Run.shift k)) (guardBody stmt) (guardBody stmt) := by
  apply (shifted_eat .elseWord).bind_same
  intro otherwise
  apply Shifted.ite
  · exact shifted_body hstmt .guardStatement
  · apply (shifted_reportHere .missingElse).bind_same
    intro _
    apply (shifted_check .lbrace).bind_same
    intro opens
    apply Shifted.ite
    · exact shifted_block hstmt
    · exact shifted_pure rfl

theorem shifted_guardStatement :
    Shifted k (Stmt.shift k) (guardStatement stmt) (guardStatement stmt) := by
  apply shifted_position.bind
  intro start
  apply shifted_next.bind_same
  intro _
  apply (shifted_conditions .guardStatement).bind
  intro cs
  apply (shifted_headerTail .guardStatement _).bind_same
  intro _
  apply (shifted_guardBody hstmt).bind
  intro b
  exact shifted_placed start fun _ => rfl

theorem shifted_whileStatement :
    Shifted k (Stmt.shift k) (whileStatement stmt) (whileStatement stmt) := by
  apply shifted_position.bind
  intro start
  apply shifted_next.bind_same
  intro _
  apply (shifted_conditions .whileStatement).bind
  intro cs
  apply (shifted_body hstmt .whileStatement).bind
  intro b
  exact shifted_placed start fun _ => rfl

end Statements

theorem shifted_declaration (mutable : Bool) :
    Shifted k (Stmt.shift k) (declaration mutable) (declaration mutable) := by
  apply shifted_position.bind
  intro start
  apply shifted_next.bind_same
  intro _
  apply (shifted_pattern .declared).bind
  intro p
  apply shifted_initializer?.bind
  intro init
  exact shifted_placed start fun _ => rfl

theorem shifted_returnValue? :
    Shifted k (Option.map (Expr.shift k)) returnValue? returnValue? := by
  apply shifted_onLine rfl
  apply (shifted_check .rbrace).bind_same
  intro closes
  apply Shifted.ite
  · exact shifted_pure rfl
  · apply (shifted_expr .full .returned).bind
    intro e
    exact shifted_pure rfl

theorem shifted_returnStatement :
    Shifted k (Stmt.shift k) returnStatement returnStatement := by
  apply shifted_position.bind
  intro start
  apply shifted_next.bind_same
  intro _
  apply shifted_returnValue?.bind
  intro e
  exact shifted_placed start fun _ => rfl

theorem shifted_expressionStatement :
    Shifted k (Stmt.shift k) expressionStatement expressionStatement := by
  apply shifted_position.bind
  intro start
  apply (shifted_expr .full .statement).bind
  intro e
  exact shifted_placed start fun _ => rfl

theorem shifted_statement {stmt : Parser (Stmt Run)}
    (hstmt : Shifted k (Stmt.shift k) stmt stmt) :
    Shifted k (Stmt.shift k) (statement stmt) (statement stmt) := by
  apply shifted_kind.bind_same
  intro a
  cases a with
  | fixed f =>
    cases f with
    | ifWord => exact shifted_ifStatement hstmt
    | guardWord => exact shifted_guardStatement hstmt
    | whileWord => exact shifted_whileStatement hstmt
    | letWord => exact shifted_declaration false
    | varWord => exact shifted_declaration true
    | returnWord => exact shifted_returnStatement
    | _ => exact shifted_expressionStatement
  | _ => exact shifted_expressionStatement

theorem shifted_stmtWithin (n : Nat) :
    Shifted k (Stmt.shift k) (stmtWithin n) (stmtWithin n) := by
  induction n with
  | zero => exact shifted_expressionStatement
  | succ n ih => exact shifted_statement ih

theorem shifted_stmt : Shifted k (Stmt.shift k) stmt stmt :=
  fun i => shifted_stmtWithin (i.rest.length + 1) i

/-! ## 5. The top level -/

theorem shifted_topLevelItem? :
    Shifted k (Option.map (Option.map (Stmt.shift k))) topLevelItem? topLevelItem? := by
  apply shifted_atEnd.bind_same
  intro ended
  apply Shifted.ite
  · exact shifted_pure rfl
  · apply (shifted_item shifted_stmt .topLevel).bind
    intro s
    exact shifted_pure rfl

/-- **All that is left, further on,** is the same statements and the same reports further on. -/
theorem shifted_topLevel : Shifted k (List.map (Stmt.shift k)) topLevel topLevel := by
  apply (shifted_collect shifted_topLevelItem?).bind
  intro items
  exact shifted_pure (map_filterMap_id _ items)

end Parser

end PlatformGate
