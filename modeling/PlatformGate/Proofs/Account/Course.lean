/-
# The course of reading

Reading takes terminals one by one, takes some of them together as leftovers, asks queries, and
reports something now and then.  `Course` writes down what happens in order: from which input to
which, what was reported on the way, and which queries were read.  Only four things take an
availability keyword: leftovers, the beginning of a query, and the search for the end of a header
behind a query that is not closed; reading on terminal by terminal never does.

What a course keeps in order, what it quotes and where the keywords go are for other modules.  Here
are the rules by which the courses of parsers are put together: `Takes P p Q` says that from any
input as in `P`, the parser has a course, with a value and with queries as in `Q`.
-/
import PlatformGate.Proofs.Parse.Motion
import PlatformGate.Proofs.Joining.Nested

namespace PlatformGate

/-! ## 1. Steps -/

/-- What is reported about tokens that have been read, with their text. -/
def Cause.quotes {ρ : Type} : Cause ρ → Bool
  | .invalidToken | .leftover _ => true
  | _ => false

/-- What is reported in passing: nothing is read or skipped for it. -/
def Cause.InPassing {ρ : Type} : Cause ρ → Prop
  | .invalidToken | .leftover _ | .unclosed .availability _ => False
  | _ => True

/-- The report quotes the next `n` terminals: a token that is invalid, a closing bracket that closes
nothing, or leftovers. -/
inductive Report.QuotesNext (i : Input) : Nat → Report Run → Prop
  | invalid (h : i.kind = .invalid) : QuotesNext i 1 ⟨.invalidToken, Run.token i.position⟩
  | stray {c : Construct} (h : i.kind.isCloser = true) :
    QuotesNext i 1 ⟨.leftover c, Run.token i.position⟩
  | captured {c : Construct} {stop : TagSet} {lineSensitive : Bool} {n : Nat}
      (hn : captureLength stop lineSensitive 0 false i.rest = n) (hpos : n ≠ 0) :
    QuotesNext i n ⟨.leftover c, ⟨i.position, i.position + n⟩⟩

/-- A query that was read, and the index where the search for the end of its header began.  Where
there was no search it is the index behind the query. -/
structure Asked where
  query : Query Run
  search : Nat

/-- Reading a query from the first input gives this query and these reports, and leaves the second
input. -/
def Query.ReadFrom (q : Query Run) (i : Input) (rs : List (Report Run)) (j : Input) : Prop :=
  ∃ resume, Parser.query resume i = ⟨q, rs, j⟩

/-- What reading from one input to another comes to: what was reported on the way, and which queries
were read. -/
inductive Course : Input → List (Report Run) → List Asked → Input → Prop
  | nil {i : Input} : Course i [] [] i
  | read {i j : Input} {rs : List (Report Run)} {as : List Asked}
      (hkind : i.kind.isAvailability = false) (h : Course i.next rs as j) : Course i rs as j
  | remark {i j : Input} {r : Report Run} {rs : List (Report Run)} {as : List Asked}
      (hcause : r.cause.InPassing)
      (hplace : r.place = Run.token i.position ∨ r.place = Run.point i.position)
      (h : Course i rs as j) : Course i (r :: rs) as j
  | quote {i j : Input} {n : Nat} {r : Report Run} {rs : List (Report Run)} {as : List Asked}
      (hr : r.QuotesNext i n) (h : Course (i.skip n) rs as j) : Course i (r :: rs) as j
  | query {i k j : Input} {q : Query Run} {rs rs' : List (Report Run)} {as : List Asked}
      (hkeyword : i.kind.isAvailability = true) (hread : q.ReadFrom i rs k)
      (hplace : q.place = ⟨i.position, k.position⟩) (hinner : Course i.next rs [] k)
      (h : Course k rs' as j) :
    Course i (rs ++ rs') (⟨q, k.position⟩ :: as) j
  /-- No parenthesis closes the query, and `n` terminals are skipped. -/
  | search {i k j : Input} {n : Nat} {q : Query Run} {rs rs' : List (Report Run)} {as : List Asked}
      (hkeyword : i.kind.isAvailability = true) (hopen : i.next.kind = .fixed .lparen)
      (hread : q.ReadFrom i (rs ++ [⟨.unclosed .availability (Run.token i.next.position),
        Run.token k.position⟩]) (k.skip n))
      (hplace : q.place = ⟨i.position, k.position + n⟩) (hstatus : q.status = .incomplete)
      (hn : n ≤ k.rest.length) (hinner : Course i.next.next rs [] k)
      (h : Course (k.skip n) rs' as j) :
    Course i
      (rs ++ ⟨.unclosed .availability (Run.token i.next.position), Run.token k.position⟩ :: rs')
      (⟨q, k.position⟩ :: as) j

namespace Course

variable {i j k : Input} {rs rs' : List (Report Run)} {as as' : List Asked}

theorem append (h : Course i rs as j) (h' : Course j rs' as' k) :
    Course i (rs ++ rs') (as ++ as') k := by
  induction h with
  | nil => exact h'
  | read hkind _ ih => exact .read hkind (ih h')
  | remark hcause hplace _ ih => exact .remark hcause hplace (ih h')
  | quote hr _ ih => exact .quote hr (ih h')
  | query hkeyword hread hplace hinner _ _ ih =>
    rw [List.append_assoc]
    exact .query hkeyword hread hplace hinner (ih h')
  | search hkeyword hopen hread hplace hstatus hn hinner _ _ ih =>
    rw [List.append_assoc]
    exact .search hkeyword hopen hread hplace hstatus hn hinner (ih h')

/-- Reading one terminal that is no availability keyword. -/
theorem next (h : i.kind.isAvailability = false) : Course i [] [] i.next := .read h .nil

end Course

/-! ## 2. Rules -/

/-- Nothing is asked of the input. -/
def Input.Any (_ : Input) : Prop := True

namespace Parser

variable {α β : Type} {P P' : Input → Prop}

/-- From any input as in `P`, reading takes a course; value and queries are as in `Q`. -/
def Takes (P : Input → Prop) (p : Parser α) (Q : α → List (Query Run) → Prop) : Prop :=
  ∀ i, P i → p.Ensures i fun a rs j => ∃ as, Course i rs as j ∧ Q a (as.map Asked.query)

/-- From any input as in `P`, reading takes a course without a query. -/
def Plain (P : Input → Prop) (p : Parser α) : Prop := Takes P p fun _ qs => qs = []

section Rules

variable {Q Q' : α → List (Query Run) → Prop} {R : β → List (Query Run) → Prop} {p : Parser α}

theorem Plain.of_course (h : ∀ i, P i → p.Ensures i fun _ rs j => Course i rs [] j) :
    Plain P p := fun i hi => (h i hi).mono fun _ _ _ hj => ⟨[], hj, rfl⟩

theorem takes_pure {a : α} (h : Q a []) : Takes P (pure a) Q := fun _ _ => ⟨[], .nil, h⟩

theorem Takes.from_of (h : Takes P p Q) (hP : ∀ i, P' i → P i) : Takes P' p Q :=
  fun i hi => h i (hP i hi)

theorem Plain.from_of (h : Plain P p) (hP : ∀ i, P' i → P i) : Plain P' p := Takes.from_of h hP

/-- What holds of any input holds of one as in `P`. -/
theorem Plain.anywhere (h : Plain Input.Any p) : Plain P p := h.from_of fun _ _ => trivial

theorem Takes.to_of (h : Takes P p Q) (hQ : ∀ a qs, Q a qs → Q' a qs) : Takes P p Q' := by
  intro i hi
  refine (h i hi).mono fun a rs j hj => ?_
  obtain ⟨as, hcourse, ha⟩ := hj
  exact ⟨as, hcourse, hQ a _ ha⟩

/-- The courses of two parsers, one behind the other. -/
theorem Takes.bind {f : α → Parser β} (h : Takes P p Q)
    (hf : ∀ a qs, Q a qs → Takes Input.Any (f a) fun b qs' => R b (qs ++ qs')) :
    Takes P (p >>= f) R := by
  intro i hi
  obtain ⟨as, hcourse, ha⟩ := h i hi
  obtain ⟨as', hcourse', hb⟩ := hf _ _ ha _ trivial
  refine ⟨as ++ as', hcourse.append hcourse', ?_⟩
  rw [List.map_append]
  exact hb

/-- A course without a query, and another behind it. -/
theorem Plain.then {f : α → Parser β} (h : Plain P p) (hf : ∀ a, Takes Input.Any (f a) R) :
    Takes P (p >>= f) R := by
  refine h.bind fun a qs hqs => ?_
  subst hqs
  exact hf a

theorem Takes.ite {c : Prop} [Decidable c] {p' : Parser α} (h : Takes P p Q) (h' : Takes P p' Q) :
    Takes P (if c then p else p') Q := by
  split
  · exact h
  · exact h'

/-- Whether something was reported does not matter to the course. -/
theorem Plain.quietly (h : Plain P p) : Plain P (quietly p) := h

/-- **The course of a loop** is that of its rounds.  The round that gives nothing asks nothing. -/
theorem takes_collect {item : Parser (Option α)} {q : α → List (Query Run)}
    (h : Takes Input.Any item fun a? qs => qs = a?.elim [] q) :
    Takes P (collect item) fun as qs => qs = as.flatMap q := by
  have hwithin : ∀ n, Takes Input.Any (collectWithin item n) fun as qs => qs = as.flatMap q := by
    intro n
    induction n with
    | zero => exact takes_pure rfl
    | succ n ih =>
      refine h.bind fun a? qs hqs => ?_
      subst hqs
      cases a? with
      | none => exact takes_pure rfl
      | some a =>
        refine ih.bind fun as qs' hqs' => takes_pure ?_
        subst hqs'
        rw [List.append_nil, List.flatMap_cons]
        rfl
  exact fun i _ => hwithin _ i trivial

theorem plain_collect {item : Parser (Option α)} (h : Plain Input.Any item) :
    Plain P (collect item) := by
  have hitem : Takes Input.Any item fun a? qs => qs = a?.elim [] fun _ => [] := by
    refine h.to_of fun a? qs hqs => ?_
    cases a? <;> exact hqs
  refine (takes_collect hitem).to_of fun as qs hqs => ?_
  rw [hqs]
  exact List.flatMap_eq_nil_iff.mpr fun _ _ => rfl

end Rules

/-! ## 3. Looking and moving -/

section Looking

variable {Q : α → List (Query Run) → Prop}

/-- The parser only looks at the input. -/
def Looks (p : Parser β) : Prop := ∀ i, (p i).reports = [] ∧ (p i).next = i

theorem looks_position : Looks position := fun _ => ⟨rfl, rfl⟩

theorem looks_kind : Looks kind := fun _ => ⟨rfl, rfl⟩

theorem looks_atEnd : Looks atEnd := fun _ => ⟨rfl, rfl⟩

theorem looks_atLineStart : Looks atLineStart := fun _ => ⟨rfl, rfl⟩

theorem looks_afterNewline : Looks afterNewline := fun _ => ⟨rfl, rfl⟩

theorem looks_runFrom (start : Nat) : Looks (runFrom start) := fun _ => ⟨rfl, rfl⟩

theorem looks_errorHere : Looks errorHere := fun _ => ⟨rfl, rfl⟩

/-- A look leaves the input as it was. -/
theorem Looks.then {p : Parser β} {f : β → Parser α} (h : Looks p) (hf : ∀ b, Takes P (f b) Q) :
    Takes P (p >>= f) Q := by
  intro i hi
  obtain ⟨hreports, hnext⟩ := h i
  have hrest := hf (p i).value i hi
  unfold Ensures at hrest ⊢
  rwa [bind_apply, hreports, hnext, List.nil_append]

theorem Looks.plain {p : Parser β} (h : Looks p) : Plain P p := by
  intro i _
  obtain ⟨hreports, hnext⟩ := h i
  unfold Ensures
  rw [hreports, hnext]
  exact ⟨[], .nil, rfl⟩

theorem takes_kind {f : Kind String → Parser α}
    (h : ∀ k, Takes (fun i => P i ∧ i.kind = k) (f k) Q) : Takes P (kind >>= f) Q :=
  fun i hi => h i.kind i ⟨hi, rfl⟩

theorem takes_check {f : Fixed} {g : Bool → Parser α}
    (hyes : Takes (fun i => i.kind = .fixed f) (g true) Q) (hno : Takes P (g false) Q) :
    Takes P (check f >>= g) Q := by
  intro i hi
  rw [ensures_bind, ensures_check]
  exact ⟨fun hkind => hyes i hkind, fun _ => hno i hi⟩

/-- A token that is eaten is no availability keyword. -/
theorem takes_eat {f : Fixed} {g : Bool → Parser α} (hf : f.isAvailability = false)
    (hyes : Takes Input.Any (g true) Q) (hno : Takes P (g false) Q) :
    Takes P (eat f >>= g) Q := by
  intro i hi
  rw [ensures_bind, ensures_eat]
  refine ⟨fun hkind => ?_, fun _ => hno i hi⟩
  refine (hyes i.next trivial).mono fun b rs j hj => ?_
  obtain ⟨as, hcourse, hb⟩ := hj
  exact ⟨as, .read (by rw [hkind]; exact hf) hcourse, hb⟩

/-- Reading on, in front of any other token than an availability keyword. -/
theorem plain_next (hP : ∀ i, P i → i.kind.isAvailability = false) : Plain P next :=
  Plain.of_course fun i hi => .next (hP i hi)

end Looking

/-! ## 4. Reporting and going on -/

theorem plain_reportHere (cause : Cause Run) (h : cause.InPassing) : Plain P (reportHere cause) :=
  Plain.of_course fun _ _ => .remark h (.inl rfl) .nil

theorem plain_missingValue (pos : ValuePosition) : Plain P (missingValue pos) :=
  Plain.of_course fun _ _ => .remark trivial (.inr rfl) .nil

theorem plain_invalidToken (hP : ∀ i, P i → i.kind = .invalid) : Plain P invalidToken := by
  refine Plain.of_course fun i hi => ?_
  have hkind := hP i hi
  rw [ensures_invalidToken, Input.next_eq_skip (Input.rest_ne_nil_of_kind (by rw [hkind]; nofun))]
  exact .quote (.invalid hkind) .nil

theorem plain_leftovers (c : Construct) (stop : TagSet) (lineSensitive : Bool) :
    Plain P (leftovers c stop lineSensitive) := by
  refine Plain.of_course fun i _ => ?_
  rw [ensures_leftovers]
  exact ⟨fun _ => .nil, fun n hn hpos => .quote (.captured hn hpos) .nil⟩

theorem plain_strayCloser (c : Construct) (hP : ∀ i, P i → i.kind.isCloser = true) :
    Plain P (strayCloser c) := by
  refine Plain.of_course fun i hi => ?_
  have hclose := hP i hi
  have hne : i.rest ≠ [] := by
    refine Input.rest_ne_nil_of_kind fun hend => ?_
    rw [hend] at hclose
    exact absurd hclose nofun
  rw [ensures_strayCloser, Input.next_eq_skip hne]
  exact .quote (.stray hclose) .nil

/-- Only a query is searched for an end: other constructs go on where they are. -/
theorem plain_unclosed {c : Construct} (hc : c ≠ .availability) (opener : Nat) :
    Plain P (unclosed c opener TagSet.empty) := by
  refine Plain.of_course fun i _ => ?_
  rw [ensures_unclosed, probeLength?_empty]
  refine .remark ?_ (.inl rfl) .nil
  cases c with
  | availability => exact absurd rfl hc
  | _ => exact trivial

end Parser

end PlatformGate
