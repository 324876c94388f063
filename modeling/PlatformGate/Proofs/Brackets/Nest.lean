/-
# How brackets nest

Where a construct is not closed a report blames the bracket that opened it.  By then all constructs
inside have been read, and they blame brackets further behind; so two reports never blame one
bracket.  `Nest` writes this down: what was read from one input to another, which constructs with a
bracket it holds, and what was reported.  A construct that is left open is read from its bracket on
up to where it is reported, and then perhaps some terminals are skipped.

What the reports blame follows from that alone (`Nest.exists_bracket`, `Nest.once`).  The rules
`Nests P p Q` put the nesting of a parser together from that of its parts: from any input as in `P`
brackets nest, and value and constructs are as in `Q`.
-/
import PlatformGate.Proofs.Account.Course
import PlatformGate.Proofs.Brackets.Trees
import PlatformGate.Proofs.Parse.Lines

namespace PlatformGate

/-! ## 1. Nesting -/

/-- At `b` stands the bracket of a construct that begins at `i`. -/
inductive Construct.Opens (i : Input) : Construct → Input → Prop
  | query (hkeyword : i.kind.isAvailability = true) (hopen : i.next.kind = .fixed .lparen) :
    Opens i .availability i.next
  | bracket {c : Construct} (hc : c ≠ .availability) (hopen : i.kind = .fixed c.bracket) :
    Opens i c i

namespace Construct.Opens

variable {c : Construct} {i b : Input}

theorem kind (h : c.Opens i b) : b.kind = .fixed c.bracket := by
  cases h with
  | query _ hopen => exact hopen
  | bracket _ hopen => exact hopen

theorem ahead (h : c.Opens i b) : i.Ahead b := by
  cases h with
  | query => exact i.ahead_next
  | bracket => exact .refl i

theorem position_lt (h : c.Opens i b) : b.position < b.next.position :=
  Input.position_lt_next (Input.rest_ne_nil h.kind)

end Construct.Opens

/-- What is reported at `k` of a construct whose bracket stands at the index. -/
def Construct.leftOpen (c : Construct) (n : Nat) (k : Input) : Report Run :=
  ⟨.unclosed c (Run.token n), Run.token k.position⟩

/-- How brackets nest from one input to another: which constructs have one, and what is reported. -/
inductive Nest : Input → List (Construct × Run) → List (Report Run) → Input → Prop
  /-- No bracket is blamed. -/
  | quiet {i j : Input} {bs : List (Construct × Run)} {rs : List (Report Run)} (h : i.Ahead j)
      (hrs : ∀ r ∈ rs, r.cause.note? = none) : Nest i bs rs j
  | append {i j k : Input} {bs bs' : List (Construct × Run)} {rs rs' : List (Report Run)}
      (h : Nest i bs rs j) (h' : Nest j bs' rs' k) : Nest i (bs ++ bs') (rs ++ rs') k
  /-- A construct is left open.  Of a block this is reported at the end of file only. -/
  | leftOpen {i b k : Input} {c : Construct} {p : Run} {n : Nat} {bs : List (Construct × Run)}
      {rs : List (Report Run)} (hopen : c.Opens i b) (hplace : c.StandsAt b.position p)
      (hinner : Nest b.next bs rs k) (hn : n ≤ k.rest.length) (hend : c = .block → k.rest = []) :
    Nest i ((c, p) :: bs) (rs ++ [c.leftOpen b.position k]) (k.skip n)

namespace Nest

variable {i j k : Input} {bs bs' : List (Construct × Run)} {rs rs' : List (Report Run)}

theorem ahead (h : Nest i bs rs j) : i.Ahead j := by
  induction h with
  | quiet h => exact h
  | append _ _ ih ih' => exact ih.trans ih'
  | leftOpen hopen _ _ hn _ ih =>
    exact (hopen.ahead.trans (Input.ahead_next _)).trans (ih.trans (Input.ahead_skip hn))

/-- **What is blamed is the bracket of a construct.**  The construct was read between the two
inputs, and the report stands behind the bracket. -/
theorem exists_bracket (h : Nest i bs rs j) {r : Report Run} (hr : r ∈ rs) {c : Construct}
    {o : Run} (hcause : r.cause = .unclosed c o) :
    ∃ s b k p, (c, p) ∈ bs ∧ c.StandsAt b.position p ∧ c.Opens s b ∧ r = c.leftOpen b.position k ∧
      i.Ahead s ∧ b.next.Ahead k ∧ k.Ahead j ∧ (c = .block → k.rest = []) := by
  induction h with
  | quiet h hrs =>
    have hnone := hrs r hr
    rw [hcause] at hnone
    cases hnone
  | append h h' ih ih' =>
    rcases List.mem_append.mp hr with hr | hr
    · obtain ⟨s, b, k, p, hmem, hplace, hopen, hblame, his, hbk, hkj, hend⟩ := ih hr
      exact ⟨s, b, k, p, List.mem_append_left _ hmem, hplace, hopen, hblame, his, hbk,
        hkj.trans h'.ahead, hend⟩
    · obtain ⟨s, b, k, p, hmem, hplace, hopen, hblame, his, hbk, hkj, hend⟩ := ih' hr
      exact ⟨s, b, k, p, List.mem_append_right _ hmem, hplace, hopen, hblame, h.ahead.trans his,
        hbk, hkj, hend⟩
  | @leftOpen i b k c' p n bs rs hopen hplace hinner hn hend ih =>
    have hskip := Input.ahead_skip hn
    rcases List.mem_append.mp hr with hr | hr
    · obtain ⟨s, b', k', p', hmem, hplace', hopen', hblame, his, hbk, hkj, hend'⟩ := ih hr
      exact ⟨s, b', k', p', List.mem_cons_of_mem _ hmem, hplace', hopen', hblame,
        (hopen.ahead.trans b.ahead_next).trans his, hbk, hkj.trans hskip, hend'⟩
    · obtain rfl := List.mem_singleton.mp hr
      obtain ⟨rfl, -⟩ := Cause.unclosed.inj hcause
      exact ⟨i, b, k, p, List.mem_cons_self, hplace, hopen, rfl, .refl i, hinner.ahead, hskip, hend⟩

theorem opener_bounds (h : Nest i bs rs j) {r : Report Run} (hr : r ∈ rs) {c : Construct} {o : Run}
    (hcause : r.cause = .unclosed c o) :
    ∃ n, o = Run.token n ∧ i.position ≤ n ∧ n < j.position := by
  obtain ⟨s, b, k, p, -, -, hopen, rfl, his, hbk, hkj, -⟩ := h.exists_bracket hr hcause
  obtain ⟨-, rfl⟩ := Cause.unclosed.inj hcause
  have hib := (his.trans hopen.ahead).position_le
  have hbj := (hbk.trans hkj).position_le
  exact ⟨b.position, rfl, hib, Nat.lt_of_lt_of_le hopen.position_lt hbj⟩

/-- The two reports blame no bracket in common. -/
def Apart (r r' : Report Run) : Prop :=
  ∀ c o c' o', r.cause = .unclosed c o → r'.cause = .unclosed c' o' → o ≠ o'

/-- **No bracket is blamed twice.** -/
theorem once (h : Nest i bs rs j) : rs.Pairwise Apart := by
  induction h with
  | quiet h hrs =>
    refine List.pairwise_of_forall_mem_list fun r hr _ _ c o _ _ hcause => ?_
    have hnone := hrs r hr
    rw [hcause] at hnone
    cases hnone
  | append h h' ih ih' =>
    refine List.pairwise_append.mpr ⟨ih, ih', fun r hr r' hr' c o c' o' hcause hcause' => ?_⟩
    -- what the first part blames stands in front of where the second begins
    obtain ⟨n, rfl, -, hlt⟩ := h.opener_bounds hr hcause
    obtain ⟨n', rfl, hle, -⟩ := h'.opener_bounds hr' hcause'
    intro heq
    have hsame : n = n' := congrArg Run.first heq
    omega
  | @leftOpen i b k c p n bs rs hopen _ hinner _ _ ih =>
    refine List.pairwise_append.mpr ⟨ih, List.pairwise_singleton _ _, ?_⟩
    intro r hr r' hr' c' o c'' o' hcause hcause'
    obtain rfl := List.mem_singleton.mp hr'
    obtain ⟨-, rfl⟩ := Cause.unclosed.inj hcause'
    -- what is blamed inside stands behind the bracket
    obtain ⟨n, rfl, hle, -⟩ := hinner.opener_bounds hr hcause
    intro heq
    have hsame : n = b.position := congrArg Run.first heq
    have hlt := hopen.position_lt
    omega

end Nest

/-! ## 2. Inside a bracket -/

/-- What is read behind the bracket at the index, up to where its construct is closed or is reported
to be open. -/
inductive Construct.Ends (c : Construct) (n : Nat) :
    Input → List (Construct × Run) → List (Report Run) → Input → Prop
  | closed {i j : Input} {bs : List (Construct × Run)} {rs : List (Report Run)}
      (h : Nest i bs rs j) : Ends c n i bs rs j
  | leftOpen {i k : Input} {m : Nat} {bs : List (Construct × Run)} {rs : List (Report Run)}
      (h : Nest i bs rs k) (hm : m ≤ k.rest.length) (hend : c = .block → k.rest = []) :
    Ends c n i bs (rs ++ [c.leftOpen n k]) (k.skip m)

namespace Construct.Ends

variable {c : Construct} {n : Nat} {i j k b : Input} {bs bs' : List (Construct × Run)}
variable {rs rs' : List (Report Run)}

theorem after (h : Nest i bs rs j) (h' : c.Ends n j bs' rs' k) :
    c.Ends n i (bs ++ bs') (rs ++ rs') k := by
  cases h' with
  | closed h' => exact .closed (h.append h')
  | leftOpen h' hm hend =>
    rw [← List.append_assoc]
    exact .leftOpen (h.append h') hm hend

/-- **A construct with its bracket.** -/
theorem nest {p : Run} (h : c.Ends b.position b.next bs rs j) (hopen : c.Opens i b)
    (hplace : c.StandsAt b.position p) : Nest i ((c, p) :: bs) rs j := by
  cases h with
  | closed h =>
    have hfront : Nest i [(c, p)] [] b.next := .quiet (hopen.ahead.trans b.ahead_next) nofun
    exact hfront.append h
  | leftOpen h hm hend => exact .leftOpen hopen hplace h hm hend

end Construct.Ends

/-! ## 3. Rules -/

namespace Parser

variable {α β : Type} {P P' : Input → Prop}

/-- From any input as in `P`, brackets nest; value and constructs are as in `Q`. -/
def Nests (P : Input → Prop) (p : Parser α) (Q : α → List (Construct × Run) → Prop) : Prop :=
  ∀ i, P i → p.Ensures i fun a rs j => ∃ bs, Nest i bs rs j ∧ Q a bs

/-- From any input as in `P`, no bracket is blamed. -/
def Quiet (P : Input → Prop) (p : Parser α) : Prop :=
  ∀ i, P i → p.Ensures i fun _ rs j => i.Ahead j ∧ ∀ r ∈ rs, r.cause.note? = none

section Rules

variable {Q Q' : α → List (Construct × Run) → Prop} {R : β → List (Construct × Run) → Prop}
variable {p : Parser α}

theorem nests_pure {a : α} (h : Q a []) : Nests P (pure a) Q :=
  fun i _ => ⟨[], .quiet (.refl i) nofun, h⟩

theorem Nests.from_of (h : Nests P p Q) (hP : ∀ i, P' i → P i) : Nests P' p Q :=
  fun i hi => h i (hP i hi)

/-- What holds of any input holds of one as in `P`. -/
theorem Nests.anywhere (h : Nests Input.Any p Q) : Nests P p Q := h.from_of fun _ _ => trivial

/-- Brackets nest in one parser and then in another. -/
theorem Nests.bind {f : α → Parser β} (h : Nests P p Q)
    (hf : ∀ a bs, Q a bs → Nests Input.Any (f a) fun b bs' => R b (bs ++ bs')) :
    Nests P (p >>= f) R := by
  intro i hi
  obtain ⟨bs, hnest, ha⟩ := h i hi
  obtain ⟨bs', hnest', hb⟩ := hf _ _ ha _ trivial
  exact ⟨bs ++ bs', hnest.append hnest', hb⟩

/-- A parser that blames nothing, and another behind it. -/
theorem Quiet.then {f : α → Parser β} (h : Quiet P p) (hf : ∀ a, Nests Input.Any (f a) R) :
    Nests P (p >>= f) R := by
  intro i hi
  obtain ⟨hahead, hnone⟩ := h i hi
  obtain ⟨bs, hnest, hb⟩ := hf _ _ trivial
  exact ⟨[] ++ bs, Nest.append (.quiet hahead hnone) hnest, hb⟩

theorem Nests.ite {c : Prop} [Decidable c] {p' : Parser α} (h : Nests P p Q) (h' : Nests P p' Q) :
    Nests P (if c then p else p') Q := by
  split
  · exact h
  · exact h'

/-- Whether something was reported does not matter. -/
theorem Nests.quietly (h : Nests P p Q) : Nests P (quietly p) fun a bs => Q a.1 bs := h

/-- **Brackets nest in a loop** as they do in its rounds. -/
theorem nests_collect {item : Parser (Option α)} {q : α → List (Construct × Run)}
    (h : Nests Input.Any item fun a? bs => bs = a?.elim [] q) :
    Nests P (collect item) fun as bs => bs = as.flatMap q := by
  have hwithin : ∀ n, Nests Input.Any (collectWithin item n) fun as bs => bs = as.flatMap q := by
    intro n
    induction n with
    | zero => exact nests_pure rfl
    | succ n ih =>
      refine h.bind fun a? bs hbs => ?_
      subst hbs
      cases a? with
      | none => exact nests_pure rfl
      | some a =>
        refine ih.bind fun as bs' hbs' => nests_pure ?_
        subst hbs'
        rw [List.append_nil, List.flatMap_cons]
        rfl
  exact fun i _ => hwithin _ i trivial

/-- A look leaves the input as it was. -/
theorem Looks.nests {p : Parser β} {f : β → Parser α} (h : Looks p) (hf : ∀ b, Nests P (f b) Q) :
    Nests P (p >>= f) Q := by
  intro i hi
  obtain ⟨hreports, hnext⟩ := h i
  have hrest := hf (p i).value i hi
  unfold Ensures at hrest ⊢
  rwa [bind_apply, hreports, hnext, List.nil_append]

theorem nests_kind {f : Kind String → Parser α}
    (h : ∀ k, Nests (fun i => P i ∧ i.kind = k) (f k) Q) : Nests P (kind >>= f) Q :=
  fun i hi => h i.kind i ⟨hi, rfl⟩

theorem nests_position {f : Nat → Parser α}
    (h : ∀ n, Nests (fun i => P i ∧ i.position = n) (f n) Q) : Nests P (position >>= f) Q :=
  fun i hi => h i.position i ⟨hi, rfl⟩

theorem nests_check {f : Fixed} {g : Bool → Parser α}
    (hyes : Nests (fun i => P i ∧ i.kind = .fixed f) (g true) Q) (hno : Nests P (g false) Q) :
    Nests P (check f >>= g) Q := by
  intro i hi
  rw [ensures_bind, ensures_check]
  exact ⟨fun hkind => hyes i ⟨hi, hkind⟩, fun _ => hno i hi⟩

theorem nests_eat {f : Fixed} {g : Bool → Parser α} (hyes : Nests Input.Any (g true) Q)
    (hno : Nests P (g false) Q) : Nests P (eat f >>= g) Q := by
  intro i hi
  rw [ensures_bind, ensures_eat]
  refine ⟨fun _ => ?_, fun _ => hno i hi⟩
  obtain ⟨bs, hnest, hb⟩ := hyes i.next trivial
  exact ⟨[] ++ bs, Nest.append (.quiet i.ahead_next nofun) hnest, hb⟩

end Rules

/-! ## 4. Parsers that blame nothing -/

theorem quiet_next : Quiet P next := fun i _ => ⟨i.ahead_next, nofun⟩

theorem quiet_report {cause : Cause Run} (h : cause.note? = none) : Quiet P (reportHere cause) :=
  fun i _ => ⟨.refl i, List.forall_mem_singleton.mpr h⟩

theorem quiet_invalidToken : Quiet P invalidToken :=
  fun i _ => ⟨i.ahead_next, List.forall_mem_singleton.mpr rfl⟩

theorem quiet_leftovers (c : Construct) (stop : TagSet) (lineSensitive : Bool) :
    Quiet P (leftovers c stop lineSensitive) := by
  intro i _
  have hmoves := leftovers_moves (C := fun cause => cause.note? = none) (c := c) rfl stop
    lineSensitive i
  exact hmoves.mono fun _ _ _ h => ⟨h.ahead, h.causes⟩

theorem quiet_junk (c : Construct) : Quiet P (junk c) := by
  intro i hi
  simp only [junk, ensures_bind, ensures_kind]
  split
  · exact ⟨i.ahead_next, List.forall_mem_singleton.mpr rfl⟩
  · exact quiet_leftovers c _ true i hi

theorem quiet_restOfLine (c : Construct) : Quiet P (restOfLine c) := by
  intro i _
  have hreads := restOfLine_reads (C := fun cause => cause.note? = none) (c := c) rfl i
  exact hreads.mono fun _ _ _ h => ⟨h.1.ahead, h.1.causes⟩

theorem quiet_headerTail (owner : Owner) (stop : TagSet) : Quiet P (headerTail owner stop) := by
  intro i hi
  simp only [headerTail, ensures_bind, ensures_atEnd, ensures_atLineStart, ↓reduceIte,
    Bool.false_eq_true, List.nil_append, ensures_pure]
  refine ⟨fun _ => ⟨.refl i, List.forall_mem_nil _⟩, fun _ => ?_⟩
  split
  · exact ⟨.refl i, List.forall_mem_nil _⟩
  · exact quiet_leftovers _ stop true i hi

theorem quiet_pattern (pos : PatternPosition) : Quiet P (pattern pos) := by
  intro i _
  simp only [pattern, ensures_bind, ensures_position, ensures_kind, List.nil_append]
  split
  · exact ⟨i.ahead_next, List.forall_mem_nil _⟩
  · exact ⟨i.ahead_next, List.forall_mem_nil _⟩
  · exact ⟨.refl i, List.forall_mem_singleton.mpr rfl⟩

theorem quiet_signs : Quiet P (collect sign?) := by
  refine fun i _ => (collect_signs_reads i).mono fun signs rs j h => ?_
  obtain ⟨rfl, hahead, -⟩ := h
  exact ⟨hahead, nofun⟩

end Parser

end PlatformGate
