/-
# Derived modules are read in silence

The converse for statements and modules.  Between statements the parser may read on where a
derivation stops: behind an expression it takes a `-` at the start of the next line for a binary
operator.  `stmt_complete` therefore says that a statement is followed to its end, or that it can
take over the expression behind it; and `lines_complete` joins statements in that case until the
parser and the derivation agree.

Nothing else goes on across lines.  A `(` at the start of a line opens no argument list because a
newline stands in front of it, as it does in front of the first token of every line but the first
(`Lined`).
-/
import PlatformGate.Proofs.Grammar.CompleteHeaders
import PlatformGate.Proofs.Grammar.SoundLines

namespace PlatformGate

namespace Grammar

variable {ts us : List Terminal}

/-! ## 1. What comes behind a statement -/

/-- A newline stands in front of the first terminal of each line. -/
def Lined (ts : List Terminal) : Prop := ∀ t ∈ ts, t.lineStart = true → t.newline = true

/-- What has been left of a lined source is lined. -/
theorem Lined.of_suffix (h : Lined ts.tail) (hs : us <:+ ts) (hlt : us.length < ts.length) :
    Lined us := by
  cases ts with
  | nil => exact absurd hlt (Nat.not_lt_zero _)
  | cons t ts =>
    rcases List.suffix_cons_iff.mp hs with rfl | hs
    · exact absurd hlt (Nat.lt_irrefl _)
    · exact fun t ht => h t (hs.subset ht)

theorem Lined.tail (h : Lined ts) : Lined ts.tail := fun t ht => h t (List.mem_of_mem_tail ht)

/-- Wherever reading a lined source has come to, the line flags behind the next terminal agree. -/
theorem Lined.behind (h : Lined ts.tail) (hs : us <:+ ts) : Lined us.tail := by
  by_cases hlt : us.length < ts.length
  · exact (h.of_suffix hs hlt).tail
  · rw [hs.eq_of_length_le (Nat.le_of_not_lt hlt)]
    exact h

/-- Behind a statement the source ends, its block closes, or a line begins with a statement. -/
def EndsStmt (us : List Terminal) : Prop :=
  us = [] ∨ headKind us = .fixed .rbrace ∨
    onSameLine us = false ∧ TagSet.statementStart.contains (headKind us) = true

/-- Of what comes behind a statement only a `-` could go on with it. -/
theorem EndsStmt.endsExpr (h : EndsStmt us) (hminus : headKind us ≠ .fixed .minus) :
    EndsExpr us := by
  rcases h with rfl | hclose | ⟨hline, hstart⟩
  · exact ⟨⟨⟨fun _ => nofun, rfl⟩, nofun⟩, nofun⟩
  · exact endsExpr_of_token hclose (by decide) rfl
  · have hoperand : EndsOperand us := fun hsame => absurd (hline ▸ hsame) Bool.false_ne_true
    cases hk : headKind us with
    | fixed f =>
      rw [hk] at hstart hminus
      refine ⟨⟨⟨hoperand, ?_⟩, ?_⟩, ?_⟩ <;> rw [hk] <;>
        cases f <;> first
          | exact absurd hstart (by decide) | exact absurd rfl hminus | decide
    | _ => exact ⟨⟨⟨hoperand, by rw [hk]; rfl⟩, by rw [hk]; nofun⟩, by rw [hk]; nofun⟩

theorem EndsStmt.ne_of_not_start (h : EndsStmt us) {f : Fixed} (hf : f ≠ .rbrace)
    (hstart : TagSet.statementStart.contains (.fixed f : Kind String) = false) :
    headKind us ≠ .fixed f := by
  intro hk
  rcases h with rfl | hclose | ⟨-, h⟩
  · exact absurd hk nofun
  · rw [hk] at hclose
    cases hclose
    exact hf rfl
  · rw [hk, hstart] at h
    exact absurd h Bool.false_ne_true

/-- Statements on lines of their own begin in front of what ends a statement. -/
theorem endsStmt_of_lines {os : List Terminal}
    (h : Derives (.many (.seq [.before startsLine, .ref .stmt])) us os) (hlined : Lined us)
    (hos : os = [] ∨ headKind os = .fixed .rbrace) : EndsStmt us := by
  cases h with
  | done => exact hos.imp_right .inl
  | more h _ =>
    obtain ⟨hline, h⟩ := derives_line.mp h
    refine .inr (.inr ⟨?_, (stmt_begins h).1⟩)
    cases us with
    | nil => exact absurd hline Bool.false_ne_true
    | cons t us =>
      have hnewline := hlined t List.mem_cons_self hline
      simp [onSameLine, hnewline]

end Grammar

open Grammar

namespace Parser

variable {i : Input} {m : Nat} {us : List Terminal}

/-! ## 2. Lines -/

/-- Nothing is cleared where a line ends. -/
theorem restOfLine_complete {c : Construct} (h : EndsLine c i) :
    Accepts (restOfLine c) i i.rest := by
  simp only [Accepts, restOfLine, ensures_bind, ensures_pure, List.append_nil]
  refine Ensures.of_eq ?_ (collect_eq (trailing?_advances c _))
  rw [round, ensures_bind]
  have hnone : (trailing? c).Ensures i fun u? rs j => u? = none ∧ rs = [] ∧ j = i := by
    simp only [trailing?, ensures_bind, ensures_atEnd, ensures_atLineStart, ↓reduceIte,
      Bool.false_eq_true, List.nil_append]
    refine ⟨fun _ => ⟨rfl, rfl, rfl⟩, fun hne => ?_⟩
    rcases h with hnil | hline | ⟨rfl, hclose⟩
    · exact absurd hnil hne
    · rw [if_pos hline]
      exact ⟨rfl, rfl, rfl⟩
    · split
      · exact ⟨rfl, rfl, rfl⟩
      · simp only [ensures_bind, ensures_check, ↓reduceIte, Bool.false_eq_true, List.nil_append]
        exact ⟨fun _ => ⟨rfl, rfl, rfl⟩, fun hne => absurd hclose hne⟩
  refine hnone.mono fun u? rs j h => ?_
  obtain ⟨rfl, rfl, rfl⟩ := h
  exact ⟨rfl, rfl⟩

theorem item_complete {c : Construct} (hstart : TagSet.statementStart.contains i.kind = true)
    (h : Accepts stmt i us) (hend : ∀ j : Input, j.rest = us → EndsLine c j) :
    Accepts (item stmt c) i us := by
  simp only [Accepts, item, ensures_bind, ensures_kind, hstart, ↓reduceIte, List.nil_append, ensures_pure,
    List.append_nil]
  refine h.mono fun s rs j h => ?_
  obtain ⟨rfl, hj⟩ := h
  refine (restOfLine_complete (hend j hj)).mono fun _ rs k h => ?_
  obtain ⟨rfl, hk⟩ := h
  exact ⟨rfl, hk.trans hj⟩

/-- What is left of a line in front of the end of a header is nothing. -/
theorem headerTail_complete (owner : Owner) {stop : TagSet} (h : stop.contains i.kind = true)
    (hne : i.rest ≠ []) : (headerTail owner stop).Ensures i fun _ rs j => rs = [] ∧ j = i := by
  simp only [headerTail, ensures_bind, ensures_atEnd, ensures_atLineStart, ↓reduceIte,
    Bool.false_eq_true, List.nil_append, ensures_pure]
  refine ⟨fun hnil => absurd hnil hne, fun _ => ?_⟩
  split
  · exact ⟨rfl, rfl⟩
  · exact leftovers_quiet h hne

/-- A statement is followed to its end, or takes over the expression that a `-` begins there. -/
def Follows (i : Input) (us : List Terminal) : Prop :=
  Accepts stmt i us ∨ headKind us = .fixed .minus ∧
    ∀ vs, Derives (.ref .expr) us vs → Derives (.ref .stmt) i.rest vs

/-- The conditions of a header, and what is left behind them. -/
theorem header_complete (owner : Owner) {ms : List Terminal} (hlined : Lined i.rest.tail)
    (h : Derives (.ref .conditions) i.rest.tail ms)
    (hms : headKind ms = .fixed .lbrace ∨ headKind ms = .fixed .elseWord) :
    (conditions owner).Ensures i.next fun _ rs j => rs = [] ∧ j.rest = ms ∧ Lined j.rest.tail ∧
      j.rest.length ≤ i.next.rest.length := by
  rw [← Input.rest_next] at h hlined
  have hbehind := hlined.tail.behind h.suffix
  refine (conditions_complete owner h hms).mono fun cs rs j hj => ?_
  obtain ⟨rfl, rfl⟩ := hj
  exact ⟨rfl, rfl, hbehind, h.length_le⟩

section Lines

variable (hstmt : ∀ i us, i.rest.length < m → Derives (.ref .stmt) i.rest us → EndsStmt us →
  Lined i.rest.tail → Follows i us)

include hstmt

/-- **Statements on lines of their own are read in silence,** by any loop that reads a statement in
each round and stops in front of `os`.  The induction is on what is left behind the first statement,
which gets less with every statement that is read or taken over. -/
theorem lines_complete {item : Parser (Option (Option (Stmt Run)))} {os ws : List Terminal}
    (hadv : AdvancesUpTo m item)
    (hstop : ∀ k : Input, k.rest = os →
      item.Ensures k fun s? rs j => s? = none ∧ rs = [] ∧ j.rest = ws)
    (hitem : ∀ k ms, TagSet.statementStart.contains (headKind k.rest) = true → Accepts stmt k ms →
      startsLine ms = true ∨ ms = os →
        item.Ensures k fun s? rs j => s?.isSome ∧ rs = [] ∧ j.rest = ms)
    (hos : os = [] ∨ headKind os = .fixed .rbrace) (hi : i.rest.length < m)
    (hlined : Lined i.rest.tail) (h : Derives (.ref .stmts) i.rest os) :
    Accepts (collect item) i ws := by
  have hend : ∀ k : Input, k.rest.length ≤ m → k.rest = os → Accepts (collect item) k ws := by
    intro k hk hkos
    refine Ensures.of_eq ?_ (collect_eq fun j hj => hadv j (Nat.le_trans hj hk))
    rw [round, ensures_bind]
    refine (hstop k hkos).mono fun s? rs j h => ?_
    obtain ⟨rfl, rfl, hj⟩ := h
    exact ⟨rfl, hj⟩
  suffices H : ∀ (n : Nat) (k : Input) (ms : List Terminal), ms.length < n → k.rest.length < m →
      Lined k.rest.tail → Derives (.ref .stmt) k.rest ms →
        Derives (.many (.seq [.before startsLine, .ref .stmt])) ms os →
          Accepts (collect item) k ws by
    rcases derives_stmts.mp h with h | ⟨ms, hfirst, hlines⟩
    · exact hend i (Nat.le_of_lt hi) h
    · exact H _ i ms (Nat.lt_succ_self _) hi hlined hfirst hlines
  intro n
  induction n with
  | zero => exact fun _ _ hn => absurd hn (Nat.not_lt_zero _)
  | succ n ih =>
    intro k ms hn hk hlined hfirst hlines
    have hshort := (stmt_begins hfirst).2
    have hlined' := hlined.of_suffix hfirst.suffix hshort
    have hms := endsStmt_of_lines hlines hlined' hos
    rcases hstmt k ms hk hfirst hms hlined with hread | ⟨hminus, hjoin⟩
    · have hline : startsLine ms = true ∨ ms = os := by
        cases hlines with
        | done => exact .inr rfl
        | more h _ => exact .inl (derives_line.mp h).1
      refine Ensures.of_eq ?_ (collect_eq fun j hj => hadv j (Nat.le_trans hj (Nat.le_of_lt hk)))
      rw [round, ensures_bind]
      refine (hitem k ms (stmt_begins hfirst).1 hread hline).mono fun s? rs j h => ?_
      obtain ⟨hsome, rfl, rfl⟩ := h
      obtain ⟨s, rfl⟩ := Option.isSome_iff_exists.mp hsome
      simp only [ensures_bind, ensures_pure, List.nil_append, List.append_nil]
      cases hlines with
      | done => exact hend j (by omega) rfl
      | more h hs =>
        obtain ⟨-, h⟩ := derives_line.mp h
        have hlt := (stmt_begins h).2
        exact ih j _ (by omega) (by omega) hlined'.tail h hs
    · cases hlines with
      | done =>
        rcases hos with rfl | hclose
        · exact absurd hminus (by decide)
        · exact absurd (hclose.symm.trans hminus) (by decide)
      | more h hs =>
        -- the next statement begins with `-` and is taken over
        obtain ⟨-, h⟩ := derives_line.mp h
        have hlt := (stmt_begins h).2
        exact ih k _ (by omega) hk hlined (hjoin _ (expr_of_minus hminus h)) hs

theorem block_complete (hi : i.rest.length ≤ m) (hlined : Lined i.rest.tail)
    (h : Derives (.ref .block) i.rest us) : Accepts (block stmt) i us := by
  obtain ⟨hopen, os, hstmts, hclose, rfl⟩ := derives_block.mp h
  have hlt := Input.length_next_lt (Input.rest_ne_nil (i := i) hopen)
  simp only [Accepts, block, ensures_bind, ensures_position, ensures_next, ensures_runFrom,
    ensures_pure, List.nil_append, List.append_nil]
  rw [← Input.rest_next] at hstmts hlined
  refine lines_complete (m := i.rest.length) (fun k us hk => hstmt k us (by omega))
    ?_ ?_ ?_ (.inr hclose) hlt hlined.tail hstmts
  · exact blockItem?_advances (fun i _ => stmt_reads i) (Nat.lt_succ_self _) _
  · intro k hk
    have hkind : k.kind = .fixed .rbrace := by rw [← Input.headKind_rest, hk, hclose]
    simp only [blockItem?, ensures_bind, ensures_eat, ↓reduceIte, Bool.false_eq_true]
    exact ⟨fun _ => ⟨rfl, rfl, by rw [← hk]; exact k.rest_next⟩, fun hne => absurd hkind hne⟩
  · intro k ms hstart hread hline
    rw [Input.headKind_rest] at hstart
    have hend : ∀ j : Input, j.rest = ms → EndsLine .block j := by
      rintro j rfl
      rcases hline with hline | hstop
      · exact .inr (.inl hline)
      · rw [← hstop] at hclose
        exact .inr (.inr ⟨rfl, hclose⟩)
    simp only [blockItem?, ensures_bind, ensures_eat, ensures_atEnd, ↓reduceIte,
      Bool.false_eq_true, List.nil_append, ensures_pure, List.append_nil]
    refine ⟨fun hk => ?_, fun _ => ⟨fun hnil => ?_, fun _ => ?_⟩⟩
    · rw [hk] at hstart
      exact absurd hstart Bool.false_ne_true
    · have hk : k.kind = .endOfFile := by rw [← Input.headKind_rest, hnil]; rfl
      rw [hk] at hstart
      exact absurd hstart Bool.false_ne_true
    · exact (item_complete hstart hread hend).mono fun _ _ _ h => ⟨rfl, h⟩

theorem body_complete (owner : Owner) (hi : i.rest.length ≤ m) (hlined : Lined i.rest.tail)
    (h : Derives (.ref .block) i.rest us) : Accepts (body stmt owner) i us := by
  have hopen : i.kind = .fixed .lbrace := (derives_block.mp h).1
  simp only [Accepts, body, ensures_bind, ensures_check, ↓reduceIte, Bool.false_eq_true,
    List.nil_append]
  refine (headerTail_complete owner (hopen ▸ rfl) (Input.rest_ne_nil hopen)).mono fun _ rs j h' => ?_
  obtain ⟨rfl, rfl⟩ := h'
  exact ⟨fun _ => block_complete hstmt hi hlined h, fun hne => absurd hopen hne⟩

/-! ## 3. Statements -/

theorem ifStatement_complete
    (hif : ∀ i us, i.rest.length < m → Derives (.ref .ifStmt) i.rest us →
      headKind us ≠ .fixed .elseWord → Lined i.rest.tail → Accepts stmt i us)
    (hi : i.rest.length ≤ m) (hlined : Lined i.rest.tail) (h : Derives (.ref .ifStmt) i.rest us)
    (hus : headKind us ≠ .fixed .elseWord) : Accepts (ifStatement stmt) i us := by
  obtain ⟨hword, ms, hconditions, ns, hblock, htail⟩ := derives_ifStmt.mp h
  have hlt := Input.length_next_lt (Input.rest_ne_nil (i := i) hword)
  simp only [Accepts, ifStatement, ensures_bind, ensures_position, ensures_next, ensures_eat,
    ↓reduceIte, Bool.false_eq_true, List.nil_append, ensures_runFrom, ensures_pure,
    List.append_nil]
  refine (header_complete .ifStatement hlined hconditions
    (.inl (derives_block.mp hblock).1)).mono fun cs rs j hj => ?_
  obtain ⟨rfl, rfl, hlined, hij⟩ := hj
  refine (body_complete hstmt _ (by omega) hlined hblock).mono fun b rs k hk => ?_
  obtain ⟨rfl, rfl⟩ := hk
  rcases htail with rfl | ⟨helse, htail⟩
  · exact ⟨fun helse => absurd helse hus, fun _ => ⟨rfl, rfl⟩⟩
  refine ⟨fun hk => ?_, fun hne => absurd helse hne⟩
  have hjk := hblock.length_le
  have hlt' := Input.length_next_lt (Input.rest_ne_nil hk)
  have hlined' : Lined k.next.rest.tail := by
    rw [Input.rest_next]
    exact (hlined.behind hblock.suffix).tail
  rw [← Input.rest_next] at htail
  simp only [alternative, ensures_bind, ensures_check, ↓reduceIte, Bool.false_eq_true,
    List.nil_append, ensures_pure, List.append_nil]
  rcases htail with htail | htail
  · exact ⟨fun _ => hif k.next us (by omega) htail hus hlined',
      fun hne => absurd (derives_ifStmt.mp htail).1 hne⟩
  · refine ⟨fun hk => ?_, fun _ => body_complete hstmt _ (by omega) hlined' htail⟩
    exact absurd (hk.symm.trans (derives_block.mp htail).1) (by decide)

theorem guardStatement_complete (hi : i.rest.length ≤ m) (hlined : Lined i.rest.tail)
    (h : Derives (.ref .guardStmt) i.rest us) : Accepts (guardStatement stmt) i us := by
  obtain ⟨hword, ms, hconditions, helse, hblock⟩ := derives_guardStmt.mp h
  have hlt := Input.length_next_lt (Input.rest_ne_nil (i := i) hword)
  simp only [Accepts, guardStatement, ensures_bind, ensures_position, ensures_next,
    List.nil_append, ensures_runFrom, ensures_pure, List.append_nil]
  refine (header_complete .guardStatement hlined hconditions (.inr helse)).mono
    fun cs rs j hj => ?_
  obtain ⟨rfl, rfl, hlined, hij⟩ := hj
  have hk : j.kind = .fixed .elseWord := helse
  refine (headerTail_complete .guardStatement (hk ▸ rfl) (Input.rest_ne_nil hk)).mono
    fun _ rs k h => ?_
  obtain ⟨rfl, rfl⟩ := h
  have hle := k.ahead_next.length_le
  rw [← Input.rest_next] at hblock hlined
  simp only [guardBody, ensures_bind, ensures_eat, ↓reduceIte, Bool.false_eq_true,
    List.nil_append]
  exact ⟨fun _ => body_complete hstmt _ (by omega) hlined.tail hblock, fun hne => absurd hk hne⟩

theorem whileStatement_complete (hi : i.rest.length ≤ m) (hlined : Lined i.rest.tail)
    (h : Derives (.ref .whileStmt) i.rest us) : Accepts (whileStatement stmt) i us := by
  obtain ⟨hword, ms, hconditions, hblock⟩ := derives_whileStmt.mp h
  have hlt := Input.length_next_lt (Input.rest_ne_nil (i := i) hword)
  simp only [Accepts, whileStatement, ensures_bind, ensures_position, ensures_next,
    List.nil_append, ensures_runFrom, ensures_pure, List.append_nil]
  refine (header_complete .whileStatement hlined hconditions
    (.inl (derives_block.mp hblock).1)).mono fun cs rs j hj => ?_
  obtain ⟨rfl, rfl, hlined, hij⟩ := hj
  exact body_complete hstmt _ (by omega) hlined hblock

end Lines

theorem declaration_complete (mutable : Bool) (h : isPattern (headKind i.rest.tail) = true)
    (htail : i.rest.tail.tail = us ∧ headKind us ≠ .fixed .eq ∨
      headKind i.rest.tail.tail = .fixed .eq ∧ Derives (.ref .expr) i.rest.tail.tail.tail us ∧
        EndsExpr us) : Accepts (declaration mutable) i us := by
  simp only [Accepts, declaration, ensures_bind, ensures_position, ensures_next, List.nil_append,
    ensures_runFrom, ensures_pure, List.append_nil]
  exact binding_complete .declared h htail

theorem returnStatement_complete (h : endsReturn i.rest.tail = true ∧ i.rest.tail = us ∨
      endsReturn i.rest.tail = false ∧ Derives (.ref .expr) i.rest.tail us ∧ EndsExpr us) :
    Accepts returnStatement i us := by
  rw [← Input.rest_next] at h
  simp only [Accepts, returnStatement, ensures_bind, ensures_position, ensures_next,
    List.nil_append, ensures_runFrom, ensures_pure, List.append_nil, returnValue?, ensures_atEnd,
    ensures_atLineStart, ↓reduceIte, Bool.false_eq_true]
  have hunfold : endsReturn i.next.rest =
      (i.next.rest.isEmpty || i.next.atLineStart || i.next.kind == .fixed .rbrace) := by
    rw [endsReturn, Input.headKind_rest]
    rfl
  rw [hunfold] at h
  rcases h with ⟨hend, rfl⟩ | ⟨hend, hvalue, hus⟩
  · refine ⟨fun _ => ⟨trivial, rfl⟩, fun hne => ?_⟩
    split
    · exact ⟨rfl, rfl⟩
    · rename_i hline
      simp only [ensures_bind, ensures_check, ↓reduceIte, Bool.false_eq_true, List.nil_append,
        ensures_pure, List.append_nil]
      refine ⟨fun _ => ⟨trivial, trivial⟩, fun hopen => ?_⟩
      simp [hne, hline, hopen] at hend
  · simp only [Bool.or_eq_false_iff, List.isEmpty_eq_false_iff, beq_eq_false_iff_ne] at hend
    obtain ⟨⟨hne, hline⟩, hopen⟩ := hend
    refine ⟨fun hnil => absurd hnil hne, fun _ => ?_⟩
    simp only [hline, Bool.false_eq_true, ↓reduceIte, ensures_bind, ensures_check, ensures_pure,
      List.nil_append, List.append_nil]
    exact ⟨fun hk => absurd hk hopen, fun _ => expr_complete .full .returned i.next us hvalue hus⟩

/-- A statement is read as its first terminal says. -/
theorem accepts_stmt {k : Kind String} (hk : i.kind = k)
    (h : Accepts (match k with
      | .fixed .ifWord => ifStatement stmt
      | .fixed .guardWord => guardStatement stmt
      | .fixed .whileWord => whileStatement stmt
      | .fixed .letWord => declaration false
      | .fixed .varWord => declaration true
      | .fixed .returnWord => returnStatement
      | _ => expressionStatement) i us) : Accepts stmt i us := by
  subst hk
  rw [stmt_eq]
  exact h

/-- Without a value nothing but `=` goes on with a binding, and with one the value may. -/
theorem binding_follows (h : Derives (.ref .binding) i.rest us) (hus : EndsStmt us) :
    Follows i us := by
  obtain ⟨hword, hpattern, htail⟩ := derives_binding.mp h
  have hread : ∀ {us : List Terminal}, (i.rest.tail.tail = us ∧ headKind us ≠ .fixed .eq ∨
      headKind i.rest.tail.tail = .fixed .eq ∧ Derives (.ref .expr) i.rest.tail.tail.tail us ∧
        EndsExpr us) → Accepts stmt i us := by
    intro us htail
    rw [Input.headKind_rest] at hword
    cases hk : i.kind with
    | fixed f =>
      rw [hk] at hword
      cases f <;> first
        | exact absurd hword (by decide)
        | exact accepts_stmt hk (declaration_complete _ hpattern htail)
    | _ => rw [hk] at hword; exact absurd hword Bool.false_ne_true
  rcases htail with hend | ⟨heq, hvalue⟩
  · exact .inl (hread (.inl ⟨hend, hus.ne_of_not_start nofun rfl⟩))
  · by_cases hminus : headKind us = .fixed .minus
    · exact .inr ⟨hminus, fun vs hvs => derives_stmt.mpr (.inr (.inr (.inr (.inl
        (derives_binding.mpr ⟨hword, hpattern, .inr ⟨heq, expr_join hvalue hminus hvs⟩⟩)))))⟩
    · exact .inl (hread (.inr ⟨heq, hvalue, hus.endsExpr hminus⟩))

theorem returnStmt_follows (h : Derives (.ref .returnStmt) i.rest us) (hus : EndsStmt us) :
    Follows i us := by
  obtain ⟨hword, htail⟩ := derives_returnStmt.mp h
  have hk : i.kind = .fixed .returnWord := hword
  rcases htail with ⟨hend, htail⟩ | ⟨hline, hvalue⟩
  · exact .inl (accepts_stmt hk (returnStatement_complete (.inl ⟨hend, htail⟩)))
  · by_cases hminus : headKind us = .fixed .minus
    · exact .inr ⟨hminus, fun vs hvs => derives_stmt.mpr (.inr (.inr (.inr (.inr (.inl
        (derives_returnStmt.mpr ⟨hword, .inr ⟨hline, expr_join hvalue hminus hvs⟩⟩))))))⟩
    · exact .inl (accepts_stmt hk (returnStatement_complete
        (.inr ⟨hline, hvalue, hus.endsExpr hminus⟩)))

theorem expr_follows (h : Derives (.ref .expr) i.rest us) (hus : EndsStmt us) :
    Follows i us := by
  by_cases hminus : headKind us = .fixed .minus
  · exact .inr ⟨hminus, fun vs hvs => derives_stmt.mpr (.inr (.inr (.inr (.inr (.inr
      (expr_join h hminus hvs))))))⟩
  · have hread := expr_complete .full .statement i us h (hus.endsExpr hminus)
    have hstart := (expr_begins h).1
    rw [Input.headKind_rest] at hstart
    refine .inl (accepts_stmt rfl ?_)
    split
    case h_7 =>
      simp only [Accepts, expressionStatement, ensures_bind, ensures_position, List.nil_append,
        ensures_runFrom, ensures_pure, List.append_nil]
      exact hread
    all_goals
      rename_i hk
      rw [hk] at hstart
      exact absurd hstart Bool.false_ne_true

/-- **Derived statements are followed,** at every depth of nesting.  The statements inside one have
fewer terminals left. -/
theorem stmt_complete (i : Input) (us : List Terminal) (hlined : Lined i.rest.tail) :
    (Derives (.ref .ifStmt) i.rest us → headKind us ≠ .fixed .elseWord → Accepts stmt i us) ∧
      (Derives (.ref .stmt) i.rest us → EndsStmt us → Follows i us) := by
  have hinner : ∀ (j : Input) us, j.rest.length < i.rest.length → Lined j.rest.tail →
      (Derives (.ref .ifStmt) j.rest us → headKind us ≠ .fixed .elseWord → Accepts stmt j us) ∧
        (Derives (.ref .stmt) j.rest us → EndsStmt us → Follows j us) :=
    fun j us _ hlined => stmt_complete j us hlined
  have hstmt : ∀ (j : Input) us, j.rest.length < i.rest.length → Derives (.ref .stmt) j.rest us →
      EndsStmt us → Lined j.rest.tail → Follows j us :=
    fun j us hj h hus hlined => (hinner j us hj hlined).2 h hus
  have hi := Nat.le_refl i.rest.length
  have hif : Derives (.ref .ifStmt) i.rest us → headKind us ≠ .fixed .elseWord →
      Accepts stmt i us := by
    intro h hus
    have hk : i.kind = .fixed .ifWord := (derives_ifStmt.mp h).1
    exact accepts_stmt hk (ifStatement_complete hstmt
      (fun j us hj h hus hlined => (hinner j us hj hlined).1 h hus) hi hlined h hus)
  refine ⟨hif, fun h hus => ?_⟩
  rcases derives_stmt.mp h with h | h | h | h | h | h
  · exact .inl (hif h (hus.ne_of_not_start nofun rfl))
  · have hk : i.kind = .fixed .guardWord := (derives_guardStmt.mp h).1
    exact .inl (accepts_stmt hk (guardStatement_complete hstmt hi hlined h))
  · have hk : i.kind = .fixed .whileWord := (derives_whileStmt.mp h).1
    exact .inl (accepts_stmt hk (whileStatement_complete hstmt hi hlined h))
  · exact binding_follows h hus
  · exact returnStmt_follows h hus
  · exact expr_follows h hus
termination_by i.rest.length

/-- **A derived module is read in silence,** and to the end. -/
theorem topLevel_complete (hlined : Lined i.rest.tail) (h : Derives (.ref .stmts) i.rest []) :
    Accepts topLevel i [] := by
  simp only [Accepts, topLevel, ensures_bind, ensures_pure, List.append_nil]
  refine lines_complete (m := i.rest.length + 1) (fun i us _ h hus hlined =>
    (stmt_complete i us hlined).2 h hus) (topLevelItem?_advances _) (fun k hk => ?_)
    (fun k ms hstart hread hline => ?_) (.inl rfl) (Nat.lt_succ_self _) hlined h <;>
    simp only [topLevelItem?, ensures_bind, ensures_atEnd, ↓reduceIte, Bool.false_eq_true,
      List.nil_append, ensures_pure, List.append_nil]
  · exact ⟨fun _ => ⟨trivial, trivial, hk⟩, fun hne => absurd hk hne⟩
  · rw [Input.headKind_rest] at hstart
    have hend : ∀ j : Input, j.rest = ms → EndsLine .topLevel j := by
      rintro j rfl
      exact hline.elim (fun h => .inr (.inl h)) .inl
    refine ⟨fun hnil => ?_, fun _ => ?_⟩
    · have hk : k.kind = .endOfFile := by rw [← Input.headKind_rest, hnil]; rfl
      rw [hk] at hstart
      exact absurd hstart Bool.false_ne_true
    · exact (item_complete hstart hread hend).mono fun _ _ _ h => ⟨rfl, h⟩

end Parser

end PlatformGate
