/-
# Statements end in front of the line

Queries, clauses and statements are followed as expressions are.  A query may lose the `)` of the
lists around it, so from here on only the `}` are counted.  A block takes its own `}` and no other:
so a statement stops inside the block it began in, and at the top level in front of the line.

The statements inside a statement are only known of fewer terminals, as in the proof that reading
moves forward.
-/
import PlatformGate.Proofs.Joining.Stays
import PlatformGate.Proofs.Parse.Lines

namespace PlatformGate

namespace Parser

section Headers

variable {line : List Terminal} (hline : Anchored line) {m a b : Nat}

include hline

/-! ## 1. Queries -/

theorem before_invalidToken :
    Leads (fun i => i.Before line m a b ∧ i.kind = .invalid) invalidToken
      (Input.Before line m a b) := by
  rintro i ⟨h, hkind⟩
  rw [ensures_invalidToken]
  apply before_next hline h
  rw [hkind]
  rfl

theorem before_component? :
    Leads (Input.Before line m a b) component? (Input.Before line m a b) := by
  have hother : ∀ k, Leads (fun i => i.Before line m a b ∧ i.kind = k)
      (do reportHere .missingVersion; return (none : Option Nat)) (Input.Before line m a b) :=
    fun k i h => h.1
  apply (before_eat hline (f := .dot) rfl).bind
  intro dot
  apply Leads.ite
  · apply leads_kind
    intro k
    cases k with
    | number v =>
      apply (before_take hline rfl).bind
      intro _
      exact leads_pure
    | invalid =>
      apply (before_invalidToken hline).bind
      intro _
      exact leads_pure
    | _ => exact hother _
  · exact leads_pure

theorem before_version? :
    Leads (Input.Before line m a b) version? (Input.Before line m a b) := by
  apply leads_kind
  intro k
  cases k with
  | number major =>
    apply (before_take hline rfl).bind
    intro _
    apply (before_component? hline).bind
    intro minor?
    cases minor? with
    | none => exact leads_pure
    | some minor =>
      apply (before_component? hline).bind
      intro patch?
      cases patch? <;> exact leads_pure
  | invalid =>
    apply (before_invalidToken hline).bind
    intro _
    exact leads_pure
  | _ => exact leads_pure_of fun i h => h.1

/-- Leftovers that begin with a plain token. -/
theorem before_leftovers_plain {k : Kind String} (hplain : k.isPlain = true) (c : Construct)
    (stop : TagSet) (lineSensitive : Bool) :
    Leads (fun i => i.Before line m a b ∧ i.kind = k) (leftovers c stop lineSensitive)
      (Input.Before line m a b) := by
  apply (before_leftovers hline c stop lineSensitive).from_of
  rintro i ⟨h, rfl⟩
  exact ⟨h, hline.rest_ne (Kind.isPlain_iff.mp hplain).2.2⟩

omit hline in
theorem isPlain_of_illegalInQuery {k : Kind String}
    (h : TagSet.illegalInQuery.contains k = true) : k.isPlain = true := by
  cases k with
  | fixed f =>
    cases f with
    | gtEq | pipePipe | ampAmp => rfl
    | _ => exact absurd h nofun
  | _ => rfl

theorem before_illegalOperator (resume : TagSet) :
    Leads (Input.Before line m a b) (illegalOperator resume) (Input.Before line m a b) := by
  apply leads_kind
  intro k
  split
  · rename_i hillegal
    apply (before_leftovers_plain hline (isPlain_of_illegalInQuery hillegal) _ _ false).bind
    intro _
    exact leads_pure
  · exact leads_pure_of fun i h => h.1

theorem before_entryHere? (resume : TagSet) :
    Leads (Input.Before line m a b) (entryHere? resume) (Input.Before line m a b) := by
  have hother : ∀ k : Kind String, Leads (fun i => i.Before line m a b ∧ i.kind = k)
      (if resume.contains k then pure none
        else do reportHere .missingPlatform; return (none : Option (Entry Run)))
      (Input.Before line m a b) := by
    intro k
    apply Leads.ite
    · exact leads_pure_of fun i h => h.1
    · apply leads_reportHere.bind
      intro _
      exact leads_pure_of fun i h => h.1
  apply (before_illegalOperator hline resume).bind
  intro illegal
  apply Leads.ite
  · exact leads_pure
  · apply leads_position.bind
    intro start
    apply leads_kind
    intro k
    cases k with
    | word name =>
      apply (before_take hline rfl).bind
      intro _
      apply (before_version? hline).bind
      intro version
      exact leads_placed
    | number v =>
      apply leads_reportHere.bind
      intro _
      apply ((before_version? hline).from_of fun i h => h.1).bind
      intro version
      exact leads_placed
    | endOfFile => exact leads_pure_of fun i h => h.1
    | fixed f =>
      cases f with
      | star =>
        apply (before_take hline rfl).bind
        intro _
        exact leads_placed
      | rparen => exact leads_pure_of fun i h => h.1
      | _ => exact hother _
    | _ => exact hother _

theorem before_entryBehindComma? (resume : TagSet) :
    Leads (Input.Before line m a b) ( entryBehindComma? resume) (Input.Before line m a b) := by
  apply (before_illegalOperator hline resume).bind
  intro illegal
  apply Leads.ite
  · exact leads_pure
  · apply (before_eat hline (f := .comma) rfl).bind
    intro comma
    apply Leads.ite
    · exact before_entryHere? hline resume
    · exact leads_pure

theorem before_entries (resume : TagSet) :
    Leads (Input.Before line m a b) (entries resume) (Input.Before line m a b) := by
  apply leads_check
  · apply leads_reportHere.bind
    intro _
    exact leads_pure_of fun i h => h.1
  · apply (before_entryHere? hline resume).bind
    intro first?
    cases first? with
    | none => exact leads_pure
    | some first =>
      apply (leads_collect (before_entryBehindComma? hline resume)).bind
      intro others
      exact leads_pure

omit hline in
/-- No header ends where the line begins. -/
theorem headerEnd_not_anchor (owner : Owner) (k : Kind String)
    (h : k.isFixed Fixed.isAnchor = true) : (TagSet.headerEnd owner).contains k = false := by
  rcases anchor_cases h with rfl | rfl | rfl <;> cases owner <;> rfl

/-- A query without `)` may pass that of a list around it. -/
theorem before_query (owner : Owner) {k : Kind String} (hplain : k.isPlain = true) :
    Leads (fun i => i.Before line m 0 b ∧ i.kind = k) (query (TagSet.headerEnd owner))
      (Input.Before line m 0 b) := by
  apply leads_position.bind
  intro start
  apply leads_kind
  intro k'
  apply ((before_take hline hplain).from_of fun i h => h.1).bind
  intro _
  apply leads_position.bind
  intro opener
  apply leads_eat fun i h hkind => before_lparen hline h hkind
  · apply (before_entries hline _).bind
    intro items
    apply leads_eat fun i h hkind => before_rparen hline h hkind
    · exact leads_placed
    · apply (before_unclosed hline .availability opener (headerEnd_not_anchor owner)).bind
      intro _
      exact leads_placed
  · apply leads_reportHere.bind
    intro _
    exact leads_placed

/-! ## 2. Clauses -/

theorem before_pattern (pos : PatternPosition) :
    Leads (Input.Before line m a b) (pattern pos) (Input.Before line m a b) := by
  have hother : ∀ k start, Leads (fun i => i.Before line m a b ∧ i.kind = k)
      (do reportHere (.missingPattern pos); return Pattern.missing (Run.point start))
      (Input.Before line m a b) := fun k start i h => h.1
  apply leads_position.bind
  intro start
  apply leads_kind
  intro k
  cases k with
  | word name =>
    apply (before_take hline rfl).bind
    intro _
    exact leads_pure
  | fixed f =>
    cases f with
    | underscore =>
      apply (before_take hline rfl).bind
      intro _
      exact leads_pure
    | _ => exact hother _ start
  | _ => exact hother _ start

theorem before_initializer? :
    Leads (Input.Before line m a b) initializer? (Input.Before line m a b) := by
  apply (before_eat hline (f := .eq) rfl).bind
  intro mark
  apply Leads.ite
  · apply (before_expr hline .full .declared a).bind
    intro e
    exact leads_pure
  · exact leads_pure

theorem before_caseValue (quiet : Bool) :
    Leads (Input.Before line m a b) (caseValue quiet) (Input.Before line m a b) := by
  apply (before_eat hline (f := .eq) rfl).bind
  intro mark
  apply Leads.ite
  · exact before_expr hline .full .declared a
  · apply Leads.ite
    · apply leads_reportHere.bind
      intro _
      exact before_errorHere
    · exact before_errorHere

/-- A binding in a header, behind its start. -/
theorem before_binding {k : Kind String} (hplain : k.isPlain = true) (mutable : Bool)
    (owner : Owner) (start : Nat) :
    Leads (fun i => i.Before line m a b ∧ i.kind = k)
      (do
        next
        let p ← pattern (.header owner)
        let init ← initializer?
        return Clause.binding mutable p init (← runFrom start))
      (Input.Before line m a b) := by
  apply (before_take hline hplain).bind
  intro _
  apply (before_pattern hline _).bind
  intro p
  apply (before_initializer? hline).bind
  intro init
  exact leads_placed

theorem before_clause (owner : Owner) :
    Leads (Input.Before line m 0 b) (clause owner) (Input.Before line m 0 b) := by
  have hexpr : ∀ k start, Leads (fun i => i.Before line m 0 b ∧ i.kind = k)
      (do let e ← expr .full (.header owner); return Clause.expr e (← runFrom start))
      (Input.Before line m 0 b) := by
    intro k start
    apply ((before_expr hline .full _ 0).from_of fun i h => h.1).bind
    intro e
    exact leads_placed
  apply leads_position.bind
  intro start
  apply leads_kind
  intro k
  cases k with
  | fixed f =>
    cases f with
    | available | unavailable =>
      apply (before_query hline owner rfl).bind
      intro q
      exact leads_pure
    | letWord => exact before_binding hline rfl false owner start
    | varWord => exact before_binding hline rfl true owner start
    | caseWord =>
      apply (before_take hline rfl).bind
      intro _
      apply (before_expr hline .ternary .pattern 0).quietly.bind
      rintro ⟨p, quiet⟩
      apply (before_caseValue hline quiet).bind
      intro init
      exact leads_placed
    | _ => exact hexpr _ start
  | _ => exact hexpr _ start

theorem before_conditions (owner : Owner) :
    Leads (Input.Before line m 0 b) (conditions owner) (Input.Before line m 0 b) := by
  have hbehind : Leads (Input.Before line m 0 b) (clauseBehindComma? owner)
      (Input.Before line m 0 b) := by
    apply (before_eat hline (f := .comma) rfl).bind
    intro comma
    apply Leads.ite
    · apply (before_clause hline owner).bind
      intro c
      exact leads_pure
    · exact leads_pure
  apply (before_clause hline owner).bind
  intro first
  apply (leads_collect hbehind).bind
  intro others
  exact leads_pure

/-! ## 3. Between statements -/

/-- Leftovers between statements, of which a `}` is none. -/
theorem before_junk (c : Construct) :
    Leads (fun i => i.Before line m 0 b ∧ i.rest ≠ line ∧ i.kind ≠ .fixed .rbrace) (junk c)
      (Input.Before line m 0 b) := by
  rintro i ⟨h, hrest, hbrace⟩
  rw [junk, ensures_bind, ensures_kind]
  split
  · rename_i hcloser
    rw [ensures_strayCloser]
    have hle : m - 1 ≤ m := Nat.sub_le m 1
    rcases bracket_cases i.kind with ⟨f, c, hkind, hc⟩ | ⟨c, hkind, -⟩ | ⟨-, hnone⟩
    · rw [hkind] at hcloser
      have hopener : Kind.isOpener (.fixed f : Kind String) = true := isOpener_of_closer? hc
      rw [isCloser_of_isOpener hopener] at hcloser
      exact absurd hcloser Bool.false_ne_true
    · rw [hkind] at hcloser hbrace
      cases c with
      | rparen | rbracket => exact (h.next_close hrest hkind rfl).2.mono hle (Nat.zero_le _)
      | rbrace => exact absurd rfl hbrace
      | _ => exact absurd hcloser Bool.false_ne_true
    · rw [hnone] at hcloser
      exact absurd hcloser Bool.false_ne_true
  · exact before_leftovers hline c _ true i ⟨h, hrest⟩

omit hline in
/-- Outside of all blocks no `}` comes next. -/
theorem kind_ne_rbrace {i : Input} (h : i.Before line m a 0) (hrest : i.rest ≠ line) :
    i.kind ≠ .fixed .rbrace := by
  intro hkind
  exact absurd (h.next_close hrest hkind rfl).1 (Nat.not_succ_le_zero 0)

/-- A leftover on the line of a statement is not the `}` of the block it stands in. -/
theorem before_trailing? {c : Construct} (hc : c = .block ∨ b = 0) :
    Leads (Input.Before line m 0 b) (trailing? c) (Input.Before line m 0 b) := by
  intro i h
  simp only [trailing?, ensures_bind, ensures_atEnd, ensures_atLineStart, ↓reduceIte,
    Bool.false_eq_true, ensures_pure]
  refine ⟨fun _ => h, fun _ => ?_⟩
  split
  · exact h
  · rename_i hstart
    have hrest : i.rest ≠ line := fun hrest => hstart (hline.atLineStart hrest)
    split
    · simp only [ensures_bind, ensures_check, ↓reduceIte, Bool.false_eq_true, ensures_pure]
      exact ⟨fun _ => h, fun hbrace => before_junk hline c i ⟨h, hrest, hbrace⟩⟩
    · rename_i hblock
      obtain rfl := hc.resolve_left hblock
      exact before_junk hline c i ⟨h, hrest, kind_ne_rbrace h hrest⟩

theorem before_restOfLine {c : Construct} (hc : c = .block ∨ b = 0) :
    Leads (Input.Before line m 0 b) (restOfLine c) (Input.Before line m 0 b) := by
  apply (leads_collect (before_trailing? hline hc)).bind
  intro _
  exact leads_pure

/-- What stands between a header and its end stands on the line of the header. -/
theorem before_headerTail (owner : Owner) (stop : TagSet) :
    Leads (Input.Before line m a b) (headerTail owner stop) (Input.Before line m a b) := by
  intro i h
  simp only [headerTail, ensures_bind, ensures_atEnd, ensures_atLineStart, ↓reduceIte,
    Bool.false_eq_true, ensures_pure]
  refine ⟨fun _ => h, fun _ => ?_⟩
  split
  · exact h
  · rename_i hstart
    have hrest : i.rest ≠ line := fun hrest => hstart (hline.atLineStart hrest)
    exact before_leftovers hline _ stop true i ⟨h, hrest⟩

end Headers

/-! ## 4. Blocks -/

section Statements

variable {line : List Terminal} (hline : Anchored line) {stmt : Parser (Stmt Run)} {m b : Nat}
variable (hreads : ∀ i, i.rest.length < m + 1 → stmt.Ensures i (ReadsStmt i))
variable (hstmt : ∀ b,
  Leads (fun i => i.Before line m 0 b ∧ i.rest ≠ line) stmt (Input.Before line m 0 b))

include hline hstmt

theorem before_item {c : Construct} (hc : c = .block ∨ b = 0) :
    Leads (fun i => i.Before line m 0 b ∧ i.rest ≠ line ∧ i.kind ≠ .fixed .rbrace) (item stmt c)
      (Input.Before line m 0 b) := by
  apply leads_kind
  intro k
  apply Leads.ite
  · apply ((hstmt b).from_of fun i h => ⟨h.1.1, h.1.2.1⟩).bind
    intro s
    apply (before_restOfLine hline hc).bind
    intro _
    exact leads_pure
  · apply ((before_junk hline c).from_of fun i h => h.1).bind
    intro _
    apply (before_restOfLine hline hc).bind
    intro _
    exact leads_pure

/-- **A round of a block leads behind its `}`, or back into the block.**  While the `}` is still to
come, the source does not end. -/
theorem before_blockItem? (opener : Nat) {i : Input} (h : i.Before line m 0 (b + 1)) :
    (blockItem? stmt opener).Ensures i fun s?? _ j =>
      match s?? with
      | none => j.Before line m 0 b
      | some _ => j.Before line m 0 (b + 1) := by
  have hrest : i.rest ≠ line := h.rest_ne (.inr (Nat.succ_pos b))
  simp only [blockItem?, ensures_bind, ensures_eat, ensures_atEnd, ↓reduceIte, Bool.false_eq_true,
    ensures_pure]
  refine ⟨fun hclose => ?_, fun hbrace => ⟨fun hend => ?_, fun _ => ?_⟩⟩
  · exact (h.next_close hrest hclose rfl).2.mono (Nat.sub_le m 1) (Nat.le_refl 0)
  · exact absurd hend (h.rest_ne_nil hline)
  · exact before_item hline hstmt (.inl rfl) i ⟨h, hrest, hbrace⟩

include hreads

theorem before_block :
    Leads (fun i => i.Before line m 0 b ∧ i.kind = .fixed .lbrace) (block stmt)
      (Input.Before line m 0 b) := by
  -- every round takes a terminal, so the loop does not give up in front of the `}`
  have hloop : ∀ opener i, i.rest.length ≤ m →
      (collect (blockItem? stmt opener)).Ensures i fun _ _ j =>
        i.Before line m 0 (b + 1) → j.Before line m 0 b := by
    intro opener
    apply ensures_collect_upTo
    intro i hi
    have hadv := blockItem?_advances hreads (Nat.lt_succ_self m) opener i hi
    have hround : (blockItem? stmt opener).Ensures i fun s?? _ j => i.Before line m 0 (b + 1) →
        match s?? with
        | none => j.Before line m 0 b
        | some _ => j.Before line m 0 (b + 1) :=
      fun h => before_blockItem? hline hstmt opener h
    refine (hadv.and hround).mono fun s?? rs j h => ?_
    cases s?? with
    | none => exact h.2
    | some s? => exact ⟨h.1 rfl, fun _ _ _ hagain hi => hagain (h.2 hi)⟩
  apply leads_position.bind
  intro opener
  apply (leads_next fun i h => before_lbrace hline h.1 h.2).bind
  intro _
  have hitems : Leads (Input.Before line m 0 (b + 1)) (collect (blockItem? stmt opener))
      (Input.Before line m 0 b) := fun i h => hloop opener i h.1 h
  apply hitems.bind
  intro items
  exact leads_placed

theorem before_body (owner : Owner) :
    Leads (Input.Before line m 0 b) (body stmt owner) (Input.Before line m 0 b) := by
  apply (before_headerTail hline owner _).bind
  intro _
  apply leads_check
  · exact before_block hline hreads hstmt
  · apply leads_atEnd.bind
    intro ended
    apply leads_reportHere.bind
    intro _
    exact leads_pure

/-! ## 5. Statements -/

theorem before_alternative :
    Leads (Input.Before line m 0 b) (alternative stmt) (Input.Before line m 0 b) := by
  apply leads_check
  · apply ((hstmt b).from_of _).bind
    · intro s
      exact leads_pure
    · rintro i ⟨h, hkind⟩
      exact ⟨h, hline.rest_ne (by rw [hkind]; rfl)⟩
  · apply (before_body hline hreads hstmt .ifStatement).bind
    intro b
    exact leads_pure

theorem before_guardBody :
    Leads (Input.Before line m 0 b) (guardBody stmt) (Input.Before line m 0 b) := by
  apply leads_eat fun i h hkind => before_next hline h (by rw [hkind]; rfl)
  · exact before_body hline hreads hstmt .guardStatement
  · apply leads_reportHere.bind
    intro _
    apply leads_check
    · exact before_block hline hreads hstmt
    · exact leads_pure

omit hline hreads hstmt in
/-- Behind the keyword of a statement fewer terminals are left. -/
theorem before_keyword {f : Fixed} (hopener : f.isOpener = false) (hcloser : f.isCloser = false) :
    Leads (fun i => (i.Before line (m + 1) 0 b ∧ i.rest ≠ line) ∧ i.kind = .fixed f) next
      (Input.Before line m 0 b) := by
  rintro i ⟨⟨h, hrest⟩, hkind⟩
  apply h.next_pass hrest
  all_goals rw [hkind]; assumption

theorem before_ifStatement :
    Leads (fun i => (i.Before line (m + 1) 0 b ∧ i.rest ≠ line) ∧ i.kind = .fixed .ifWord)
      (ifStatement stmt) (Input.Before line m 0 b) := by
  apply leads_position.bind
  intro start
  apply (before_keyword rfl rfl).bind
  intro _
  apply (before_conditions hline .ifStatement).bind
  intro cs
  apply (before_body hline hreads hstmt .ifStatement).bind
  intro b
  apply leads_eat fun i h hkind => before_next hline h (by rw [hkind]; rfl)
  · apply (before_alternative hline hreads hstmt).bind
    intro a
    exact leads_placed
  · exact leads_placed

theorem before_guardStatement :
    Leads (fun i => (i.Before line (m + 1) 0 b ∧ i.rest ≠ line) ∧ i.kind = .fixed .guardWord)
      (guardStatement stmt) (Input.Before line m 0 b) := by
  apply leads_position.bind
  intro start
  apply (before_keyword rfl rfl).bind
  intro _
  apply (before_conditions hline .guardStatement).bind
  intro cs
  apply (before_headerTail hline .guardStatement _).bind
  intro _
  apply (before_guardBody hline hreads hstmt).bind
  intro b
  exact leads_placed

theorem before_whileStatement :
    Leads (fun i => (i.Before line (m + 1) 0 b ∧ i.rest ≠ line) ∧ i.kind = .fixed .whileWord)
      (whileStatement stmt) (Input.Before line m 0 b) := by
  apply leads_position.bind
  intro start
  apply (before_keyword rfl rfl).bind
  intro _
  apply (before_conditions hline .whileStatement).bind
  intro cs
  apply (before_body hline hreads hstmt .whileStatement).bind
  intro b
  exact leads_placed

omit hreads hstmt in
theorem before_declaration {f : Fixed} (hplain : Kind.isPlain (.fixed f) = true) (mutable : Bool) :
    Leads (fun i => i.Before line m 0 b ∧ i.kind = .fixed f) (declaration mutable)
      (Input.Before line m 0 b) := by
  apply leads_position.bind
  intro start
  apply (before_take hline hplain).bind
  intro _
  apply (before_pattern hline .declared).bind
  intro p
  apply (before_initializer? hline).bind
  intro init
  exact leads_placed

omit hreads hstmt in
theorem before_returnStatement :
    Leads (fun i => (i.Before line (m + 1) 0 b ∧ i.rest ≠ line) ∧ i.kind = .fixed .returnWord)
      returnStatement (Input.Before line m 0 b) := by
  have hvalue : Leads (Input.Before line m 0 b) returnValue? (Input.Before line m 0 b) := by
    apply leads_atEnd.bind
    intro ended
    apply Leads.ite
    · exact leads_pure
    · apply leads_atLineStart.bind
      intro lineStart
      apply Leads.ite
      · exact leads_pure
      · apply leads_check
        · exact leads_pure_of fun i h => h.1
        · apply (before_expr hline .full .returned 0).bind
          intro e
          exact leads_pure
  apply leads_position.bind
  intro start
  apply (before_keyword rfl rfl).bind
  intro _
  apply hvalue.bind
  intro e
  exact leads_placed

omit hreads hstmt in
theorem before_expressionStatement :
    Leads (Input.Before line m 0 b) expressionStatement (Input.Before line m 0 b) := by
  apply leads_position.bind
  intro start
  apply (before_expr hline .full .statement 0).bind
  intro e
  exact leads_placed

theorem before_statement :
    Leads (fun i => i.Before line (m + 1) 0 b ∧ i.rest ≠ line) (statement stmt)
      (Input.Before line (m + 1) 0 b) := by
  have hle : ∀ i : Input, i.Before line m 0 b → i.Before line (m + 1) 0 b :=
    fun i h => h.mono (Nat.le_succ m) (Nat.le_refl 0)
  have hother : ∀ k, Leads (fun i => (i.Before line (m + 1) 0 b ∧ i.rest ≠ line) ∧ i.kind = k)
      expressionStatement (Input.Before line (m + 1) 0 b) :=
    fun k => (before_expressionStatement hline).from_of fun i h => h.1.1
  apply leads_kind
  intro k
  cases k with
  | fixed f =>
    cases f with
    | ifWord => exact fun i h => hle _ (before_ifStatement hline hreads hstmt i h)
    | guardWord => exact fun i h => hle _ (before_guardStatement hline hreads hstmt i h)
    | whileWord => exact fun i h => hle _ (before_whileStatement hline hreads hstmt i h)
    | letWord =>
      exact (before_declaration hline (f := .letWord) rfl false).from_of fun i h => ⟨h.1.1, h.2⟩
    | varWord =>
      exact (before_declaration hline (f := .varWord) rfl true).from_of fun i h => ⟨h.1.1, h.2⟩
    | returnWord => exact fun i h => hle _ (before_returnStatement hline i h)
    | _ => exact hother _
  | _ => exact hother _

end Statements

section TopLevel

variable {line : List Terminal} (hline : Anchored line)

include hline

/-- With more levels than terminals, a statement ends inside the block it began in. -/
theorem before_stmtWithin (n : Nat) : ∀ {m : Nat}, m < n → ∀ b,
    Leads (fun i => i.Before line m 0 b ∧ i.rest ≠ line) (stmtWithin n)
      (Input.Before line m 0 b) := by
  induction n with
  | zero => exact fun h => absurd h (Nat.not_lt_zero _)
  | succ n ih =>
    intro m hm b
    cases m with
    | zero =>
      rintro i ⟨h, -⟩
      have hnil := List.length_eq_zero_iff.mp (Nat.le_zero.mp h.1)
      exact absurd hnil (h.rest_ne_nil hline)
    | succ m =>
      have hmn : m < n := Nat.lt_of_succ_lt_succ hm
      have hreads : ∀ i, i.rest.length < m + 1 → (stmtWithin n).Ensures i (ReadsStmt i) :=
        fun i hi => stmtWithin_reads n i (Nat.lt_of_lt_of_le hi hmn)
      exact before_statement hline hreads (ih hmn)

/-- **A statement ends in front of the line,** inside the block it began in. -/
theorem before_stmt (m b : Nat) :
    Leads (fun i => i.Before line m 0 b ∧ i.rest ≠ line) stmt (Input.Before line m 0 b) := by
  rintro i ⟨h, hrest⟩
  have hfew : i.Before line i.rest.length 0 b := ⟨Nat.le_refl _, h.2⟩
  have hstmt := before_stmtWithin hline (i.rest.length + 1) (Nat.lt_succ_self _) b i ⟨hfew, hrest⟩
  exact (hstmt.mono fun _ _ j hj => hj.mono h.1 (Nat.le_refl 0)).of_eq rfl

/-- **A round of the top level ends in front of the line.** -/
theorem before_topLevelItem? (m : Nat) :
    Leads (fun i => i.Before line m 0 0 ∧ i.rest ≠ line) topLevelItem?
      (Input.Before line m 0 0) := by
  apply leads_atEnd.bind
  intro ended
  apply Leads.ite
  · exact leads_pure_of fun i h => h.1
  · apply ((before_item hline (before_stmt hline m) (.inr rfl)).from_of _).bind
    · intro s
      exact leads_pure
    · exact fun i h => ⟨h.1, h.2, kind_ne_rbrace h.1 h.2⟩

end TopLevel

end Parser

end PlatformGate
