/-
# What was written is read back

A typeset condition is read without a diagnostic, and the query that is read has the entries that
were written.  The parsers look at nothing but kinds here: a header and an empty body may be
spread over lines in any way.
-/
import PlatformGate.Proofs.Grammar.CompleteLines
import PlatformGate.Proofs.Report.Emit
import PlatformGate.Proofs.Writing.Listing

namespace PlatformGate

/-! ## 1. The kinds that are left -/

namespace Input

variable {i : Input} {k : Kind String} {ks : List (Kind String)}

/-- The kinds of the terminals that are left. -/
def kinds (i : Input) : List (Kind String) := i.rest.map Terminal.kind

theorem kind_of_kinds (h : i.kinds = k :: ks) : i.kind = k := by
  obtain ⟨t, ts, hts, rfl, -⟩ := List.map_eq_cons_iff.mp h
  exact kind_eq_head hts

theorem kinds_next (h : i.kinds = k :: ks) : i.next.kinds = ks := by
  obtain ⟨t, ts, hts, -, rfl⟩ := List.map_eq_cons_iff.mp h
  rw [next_eq_of_rest hts]
  rfl

end Input

namespace Parser

open Writing

variable {α : Type} {i : Input} {ks : List (Kind String)}

/-! ## 2. Versions and entries -/

/-- What may stand behind an item: a token of fixed spelling that does not go on with a version. -/
def EndsItem (ks : List (Kind String)) : Prop := ∃ f ks', ks = .fixed f :: ks' ∧ f ≠ .dot

theorem component?_back {n : Nat} (h : i.kinds = .fixed .dot :: .number n :: ks) :
    component?.Ensures i fun c? rs j => c? = some n ∧ rs = [] ∧ j.kinds = ks := by
  have hdot := Input.kind_of_kinds h
  have hnumber := Input.kind_of_kinds (Input.kinds_next h)
  have hend := Input.kinds_next (Input.kinds_next h)
  simp only [component?, ensures_bind, ensures_eat, ensures_kind, hnumber, ↓reduceIte,
    Bool.false_eq_true, List.nil_append]
  exact ⟨fun _ => ⟨rfl, rfl, hend⟩, fun hne => absurd hdot hne⟩

theorem no_component_back (h : EndsItem i.kinds) :
    component?.Ensures i fun c? rs j => c? = none ∧ rs = [] ∧ j = i := by
  apply component?_none
  obtain ⟨f, ks, hks, hf⟩ := h
  rw [Input.headKind_rest, Input.kind_of_kinds hks]
  exact fun hdot => hf (Kind.fixed.inj hdot)

/-- **A version is read back,** one to three components long. -/
theorem version?_back (v : Version)
    (h : i.kinds = (v.components.map Kind.number).intersperse (.fixed .dot) ++ ks)
    (hks : EndsItem ks) :
    version?.Ensures i fun v? rs j => v? = some v ∧ rs = [] ∧ j.kinds = ks := by
  obtain ⟨components, hne, hshort⟩ := v
  cases components with
  | nil => exact absurd rfl hne
  | cons major components =>
    have hmajor : i.kind = .number major := by
      cases components with
      | nil => exact Input.kind_of_kinds h
      | cons minor components => exact Input.kind_of_kinds h
    unfold version?
    rw [ensures_bind, ensures_kind, hmajor]
    simp only [ensures_bind, ensures_next, List.nil_append]
    cases components with
    | nil =>
      have hnext : i.next.kinds = ks := Input.kinds_next h
      refine (no_component_back (hnext ▸ hks)).mono fun c? rs j hj => ?_
      obtain ⟨rfl, rfl, rfl⟩ := hj
      exact ⟨rfl, rfl, hnext⟩
    | cons minor components =>
      cases components with
      | nil =>
        have hnext : i.next.kinds = .fixed .dot :: .number minor :: ks := Input.kinds_next h
        refine (component?_back hnext).mono fun c? rs j hj => ?_
        obtain ⟨rfl, rfl, hj⟩ := hj
        simp only [ensures_bind, List.nil_append]
        refine (no_component_back (hj ▸ hks)).mono fun c? rs k hk => ?_
        obtain ⟨rfl, rfl, rfl⟩ := hk
        exact ⟨rfl, rfl, hj⟩
      | cons patch components =>
        obtain rfl : components = [] := by
          apply List.eq_nil_of_length_eq_zero
          have hlength : components.length + 1 + 1 + 1 ≤ 3 := hshort
          omega
        have hnext : i.next.kinds =
            .fixed .dot :: .number minor :: .fixed .dot :: .number patch :: ks :=
          Input.kinds_next h
        refine (component?_back hnext).mono fun c? rs j hj => ?_
        obtain ⟨rfl, rfl, hj⟩ := hj
        simp only [ensures_bind, List.nil_append]
        refine (component?_back hj).mono fun c? rs k hk => ?_
        obtain ⟨rfl, rfl, hk⟩ := hk
        exact ⟨rfl, rfl, hk⟩

/-- **An item is read back.** -/
theorem entryHere?_back (resume : TagSet) (item : Item)
    (h : i.kinds = item.kinds ++ ks) (hks : EndsItem ks) :
    (entryHere? resume).Ensures i fun e? rs j =>
      (∃ e, e? = some e ∧ e.map (fun _ => ()) = item.entry) ∧ rs = [] ∧ j.kinds = ks := by
  cases item with
  | star =>
    have hstar := Input.kind_of_kinds h
    have hend := Input.kinds_next h
    rw [entryHere?, ensures_unlessIllegal_of_legal (hstar ▸ rfl)]
    simp only [ensures_bind, ensures_position, ensures_kind, hstar]
    exact ⟨⟨_, rfl, rfl⟩, rfl, hend⟩
  | platform name version =>
    have hread : version?.Ensures i.next fun v? rs j =>
        v? = version.map Dotted.version ∧ rs = [] ∧ j.kinds = ks := by
      cases version with
      | none =>
        have hnext := Input.kinds_next h
        obtain ⟨f, ks', hks', hf⟩ := hks
        have hkind := Input.kind_of_kinds (hnext.trans hks')
        unfold version?
        rw [ensures_bind, ensures_kind, hkind]
        exact ⟨rfl, rfl, hnext⟩
      | some d =>
        exact version?_back d.version (Input.kinds_next h) hks
    have hword : i.kind = .word name.name := Input.kind_of_kinds h
    rw [entryHere?, ensures_unlessIllegal_of_legal (hword ▸ rfl)]
    simp only [ensures_bind, ensures_position, ensures_kind, hword, ensures_next, List.nil_append]
    refine hread.mono fun v? rs j hj => ?_
    obtain ⟨rfl, rfl, hj⟩ := hj
    exact ⟨⟨_, rfl, rfl⟩, rfl, hj⟩

theorem endsItem_commaItems (items : List Item) (trailing : Bool) (hks : EndsItem ks) :
    EndsItem (commaItems items trailing ++ ks) := by
  cases items with
  | nil =>
    cases trailing with
    | false => exact hks
    | true => exact ⟨.comma, _, rfl, nofun⟩
  | cons item items => exact ⟨.comma, _, rfl, nofun⟩

/-- What ends a list of items so that none is missed: the closing parenthesis, an operator that no
query may hold, or the end of the header. -/
structure EndsList (resume : TagSet) (f : Fixed) : Prop where
  no_comma : f ≠ .comma
  no_dot : f ≠ .dot
  no_star : f ≠ .star
  ends : f = .rparen ∨ TagSet.illegalInQuery.contains (.fixed f : Kind String) = true ∨
    resume.contains (.fixed f : Kind String) = true

/-- Where a list of items ends, nothing more is done than to look for an operator. -/
def LooksForOperator (resume : TagSet) (i : Input) (rs : List (Report Run)) (j : Input) : Prop :=
  (illegalOperator resume).Ensures i fun _ rs' j' => rs = rs' ∧ j = j'

variable {resume : TagSet} {f : Fixed}

theorem LooksForOperator.unique {rs rs' : List (Report Run)} {j j' : Input}
    (h : LooksForOperator resume i rs j) (h' : LooksForOperator resume i rs' j') :
    rs = rs' ∧ j = j' :=
  ⟨h.1.trans h'.1.symm, h.2.trans h'.2.symm⟩

theorem looks_some (h : TagSet.illegalInQuery.contains i.kind = true) :
    (leftovers .availability (resume.insert (.fixed .rparen)) false).Ensures i fun _ rs j =>
      LooksForOperator resume i rs j := by
  have hlooks : (leftovers .availability (resume.insert (.fixed .rparen)) false).Ensures i
      fun _ rs j => (leftovers .availability (resume.insert (.fixed .rparen)) false).Ensures i
        fun _ rs' j' => rs = rs' ∧ j = j' := ⟨rfl, rfl⟩
  exact hlooks.mono fun _ rs j h' => ensures_illegalOperator.mpr
    ⟨fun _ => h', fun hlegal => absurd (h.symm.trans hlegal) nofun⟩

theorem looks_none (h : TagSet.illegalInQuery.contains i.kind = false) :
    LooksForOperator resume i [] i :=
  ensures_illegalOperator.mpr
    ⟨fun hillegal => absurd (h.symm.trans hillegal) nofun, fun _ => ⟨rfl, rfl⟩⟩

/-- Where a list ends no entry begins and none is missed. -/
theorem entryHere?_stop (hf : EndsList resume f) (h : i.kind = .fixed f) :
    (entryHere? resume).Ensures i fun e? rs j => e? = none ∧ LooksForOperator resume i rs j := by
  rw [entryHere?, ensures_unlessIllegal]
  refine ⟨fun hillegal => (looks_some hillegal).mono fun _ _ _ hlooks => ⟨rfl, hlooks⟩,
    fun hlegal => ?_⟩
  have hlooks : LooksForOperator resume i [] i := looks_none hlegal
  simp only [ensures_bind, ensures_position, ensures_kind, h]
  rw [h] at hlegal
  split
  case h_1 hstar => exact absurd (Kind.fixed.inj hstar) hf.no_star
  case h_2 | h_3 => contradiction
  case h_4 | h_5 => exact ⟨rfl, hlooks⟩
  case h_6 hrparen _ =>
    have hends := hf.ends.resolve_left fun heq => hrparen (congrArg _ heq)
    rw [if_pos (hends.resolve_left (Bool.eq_false_iff.mp hlegal))]
    exact ⟨rfl, hlooks⟩

theorem entryBehindComma?_stop (hf : EndsList resume f) (h : i.kind = .fixed f) :
    (entryBehindComma? resume).Ensures i fun e? rs j =>
      e? = none ∧ LooksForOperator resume i rs j := by
  rw [entryBehindComma?, ensures_unlessIllegal]
  refine ⟨fun hillegal => (looks_some hillegal).mono fun _ _ _ hlooks => ⟨rfl, hlooks⟩,
    fun hlegal => ?_⟩
  simp only [Bool.false_eq_true, ↓reduceIte, ensures_bind, ensures_eat, List.nil_append]
  refine ⟨fun hcomma => ?_, fun _ => ⟨rfl, looks_none hlegal⟩⟩
  exact absurd (Kind.fixed.inj (h.symm.trans hcomma)) hf.no_comma

/-- **The items behind the first are read back.**  The induction is on the items; behind the last
stands what ends the list, or a comma with no item behind it. -/
theorem collect_entries_back (hf : EndsList resume f) (items : List Item) (trailing : Bool) :
    ∀ i : Input, i.kinds = commaItems items trailing ++ .fixed f :: ks →
      (collect (entryBehindComma? resume)).Ensures i fun es rs j =>
        es.map (Entry.map fun _ => ()) = items.map Item.entry ∧
          ∃ l, i.Ahead l ∧ l.kinds = .fixed f :: ks ∧ LooksForOperator resume l rs j := by
  induction items with
  | nil =>
    intro i h
    apply ensures_collect_stop
    cases trailing with
    | false =>
      refine (entryBehindComma?_stop hf (Input.kind_of_kinds h)).mono fun e? rs j hj => ?_
      exact ⟨hj.1, rfl, i, .refl i, h, hj.2⟩
    | true =>
      have hcomma : i.kind = .fixed .comma := Input.kind_of_kinds h
      have hnext : i.next.kinds = .fixed f :: ks := Input.kinds_next h
      rw [entryBehindComma?, ensures_unlessIllegal_of_legal (hcomma ▸ rfl)]
      simp only [Bool.false_eq_true, ↓reduceIte, ensures_bind, ensures_eat, List.nil_append]
      refine ⟨fun _ => ?_, fun hne => absurd hcomma hne⟩
      refine (entryHere?_stop hf (Input.kind_of_kinds hnext)).mono fun e? rs j hj => ?_
      exact ⟨hj.1, rfl, i.next, i.ahead_next, hnext, hj.2⟩
  | cons item items ih =>
    intro i h
    rw [commaItems_cons, List.cons_append, List.append_assoc] at h
    have hcomma := Input.kind_of_kinds h
    have hnext := Input.kinds_next h
    apply ensures_collect_more (entryBehindComma?_advances resume _)
    rw [entryBehindComma?, ensures_unlessIllegal_of_legal (hcomma ▸ rfl)]
    simp only [Bool.false_eq_true, ↓reduceIte, ensures_bind, ensures_eat, List.nil_append]
    refine ⟨fun _ => ?_, fun hne => absurd hcomma hne⟩
    have hends := endsItem_commaItems items trailing ⟨f, ks, rfl, hf.no_dot⟩
    refine ((entryHere?_reads resume i.next).and (entryHere?_back resume item hnext hends)).mono
      fun e? rs j hentry => ?_
    obtain ⟨⟨hmoves, -⟩, ⟨e, rfl, he⟩, rfl, hj⟩ := hentry
    refine ⟨e, rfl, (ih j hj).mono fun es rs' l hl => ?_⟩
    obtain ⟨hes, m, hahead, hm, hlooks⟩ := hl
    refine ⟨by rw [List.map_cons, List.map_cons, he, hes], m, ?_, hm, hlooks⟩
    exact (i.ahead_next.trans hmoves.ahead).trans hahead

/-- **A list is read back** up to where it ends.  Only an empty list is missed in front of the
closing parenthesis. -/
theorem entries_back (hf : EndsList resume f) {items : List Item} (hempty : items = [] → f ≠ .rparen)
    {trailing : Bool} (h : i.kinds = listed items trailing ++ .fixed f :: ks) :
    (entries resume).Ensures i fun es rs j =>
      es.map (Entry.map fun _ => ()) = items.map Item.entry ∧
        ∃ l, i.Ahead l ∧ l.kinds = .fixed f :: ks ∧ LooksForOperator resume l rs j := by
  simp only [entries, ensures_bind, ensures_check, ↓reduceIte, Bool.false_eq_true, List.nil_append]
  cases items with
  | nil =>
    have hkind : i.kind = .fixed f := Input.kind_of_kinds h
    refine ⟨fun hclose => absurd (Kind.fixed.inj (hkind.symm.trans hclose)) (hempty rfl), fun _ => ?_⟩
    refine (entryHere?_stop hf hkind).mono fun e? rs j hj => ?_
    obtain ⟨rfl, hlooks⟩ := hj
    rw [← List.append_nil rs] at hlooks
    exact ⟨rfl, i, .refl i, h, hlooks⟩
  | cons item items =>
    rw [listed, List.append_assoc] at h
    refine ⟨fun hclose => ?_, fun _ => ?_⟩
    · obtain ⟨k, ks', hk, hfirst⟩ := item.kinds_eq_cons
      rw [hk] at h
      have hkind := (Input.kind_of_kinds h).symm.trans hclose
      rcases hfirst with rfl | ⟨name, rfl⟩ <;> cases hkind
    · have hends := endsItem_commaItems items trailing ⟨f, ks, rfl, hf.no_dot⟩
      refine ((entryHere?_reads resume i).and (entryHere?_back resume item h hends)).mono
        fun e? rs j hback => ?_
      obtain ⟨⟨hmoves, -⟩, ⟨e, rfl, he⟩, rfl, hj⟩ := hback
      simp only [ensures_bind, ensures_pure, List.nil_append, List.append_nil]
      refine (collect_entries_back hf items trailing j hj).mono fun es rs k hk => ?_
      obtain ⟨hes, l, hahead, hl, hlooks⟩ := hk
      exact ⟨by rw [List.map_cons, List.map_cons, he, hes], l, hmoves.ahead.trans hahead, hl, hlooks⟩

/-! ## 3. Queries and headers -/

theorem endsList_rparen (resume : TagSet) : EndsList resume .rparen :=
  ⟨nofun, nofun, nofun, .inl rfl⟩

theorem kinds_querySpelling (c : Condition) (ks : List (Kind String)) :
    c.querySpelling.map Spelling.kind ++ ks =
      (Condition.keywordSpelling c.negated).kind :: .fixed .lparen ::
        (listed c.items c.trailing ++ .fixed .rparen :: ks) := by
  rw [Condition.querySpelling, List.map_cons, List.map_cons, List.map_append, kinds_behindComma,
    c.first.kinds_spelling, Condition.items, listed]
  simp [Spelling.kind]

theorem negated_of_keyword {negated : Bool}
    (h : i.kind = (Condition.keywordSpelling negated).kind) :
    (i.kind == .fixed .unavailable) = negated := by
  rw [h]
  cases negated <;> rfl

/-- A query is read as its entries are.  It is done where `)` comes behind them. -/
theorem query_of_entries {negated : Bool} {Q : Query Run → List (Report Run) → Input → Prop}
    (hkeyword : i.kind = (Condition.keywordSpelling negated).kind)
    (hopen : i.next.kind = .fixed .lparen)
    (h : (entries resume).Ensures i.next.next fun es rs j =>
      (j.kind = .fixed .rparen →
        Q ⟨es, negated, .done, ⟨i.position, j.next.position⟩⟩ rs j.next) ∧
      (j.kind ≠ .fixed .rparen →
        (unclosed .availability i.next.position resume).Ensures j fun _ rs' k =>
          Q ⟨es, negated, .incomplete, ⟨i.position, k.position⟩⟩ (rs ++ rs') k)) :
    (query resume).Ensures i Q := by
  have hnegated := negated_of_keyword hkeyword
  simp only [query, ensures_bind, ensures_position, ensures_kind, ensures_next, ensures_eat,
    ensures_runFrom, ensures_pure, ↓reduceIte, Bool.false_eq_true, List.nil_append,
    List.append_nil, hnegated]
  exact ⟨fun _ => h, fun hne => absurd hopen hne⟩

theorem query_back (resume : TagSet) (c : Condition)
    (h : i.kinds = c.querySpelling.map Spelling.kind ++ ks) :
    (query resume).Ensures i fun q rs j =>
      q.map (fun _ => ()) = c.query ∧ rs = [] ∧ j.kinds = ks := by
  rw [kinds_querySpelling] at h
  have hopen := Input.kind_of_kinds (Input.kinds_next h)
  have hitems := Input.kinds_next (Input.kinds_next h)
  have hne : c.items ≠ [] := List.cons_ne_nil _ _
  refine query_of_entries (Input.kind_of_kinds h) hopen ?_
  refine (entries_back (endsList_rparen resume) (fun hnil => absurd hnil hne) hitems).mono
    fun es rs j hj => ?_
  obtain ⟨hes, l, -, hl, hlooks⟩ := hj
  have hclose := Input.kind_of_kinds hl
  obtain ⟨rfl, rfl⟩ := hlooks.unique (looks_none (hclose ▸ rfl))
  refine ⟨fun _ => ⟨?_, rfl, Input.kinds_next hl⟩, fun hne => absurd hclose hne⟩
  simp [Query.map, Condition.query, hes]

/-- A header of one query is that query, if no comma stands behind it. -/
theorem conditions_of_query (owner : Owner) {Q : Query Run → List (Report Run) → Input → Prop}
    (hkeyword : i.kind.isAvailability = true)
    (h : (query (TagSet.headerEnd owner)).Ensures i fun q rs j =>
      Q q rs j ∧ j.kind ≠ .fixed .comma) :
    (conditions owner).Ensures i fun cs rs j => ∃ q, cs = [.availability q] ∧ Q q rs j := by
  have hclause : (clause owner).Ensures i fun c rs j =>
      ∃ q, c = .availability q ∧ Q q rs j ∧ j.kind ≠ .fixed .comma := by
    unfold clause
    rw [ensures_bind, ensures_position, ensures_bind, ensures_kind]
    have hread : (query (TagSet.headerEnd owner) >>= fun q =>
        pure (Clause.availability q)).Ensures i fun c rs j =>
          ∃ q, c = .availability q ∧ Q q rs j ∧ j.kind ≠ .fixed .comma := by
      rw [ensures_bind]
      refine h.mono fun q rs j hq => ?_
      rw [ensures_pure, List.append_nil]
      exact ⟨q, rfl, hq⟩
    cases hk : i.kind with
    | fixed f =>
      rw [hk] at hkeyword
      cases f <;> first | exact hread | exact absurd hkeyword nofun
    | _ =>
      rw [hk] at hkeyword
      exact absurd hkeyword nofun
  unfold conditions
  rw [ensures_bind]
  refine hclause.mono fun c rs j hj => ?_
  obtain ⟨q, rfl, hq, hcomma⟩ := hj
  rw [ensures_bind]
  apply ensures_collect_stop
  simp only [clauseBehindComma?, ensures_bind, ensures_eat, ensures_pure, ↓reduceIte,
    Bool.false_eq_true, List.nil_append, List.append_nil]
  exact ⟨fun hk => absurd hk hcomma, fun _ => ⟨trivial, q, rfl, hq⟩⟩

/-! ## 4. Statements with a body -/

/-- The statement of an owner with the given header and body.  An `if` has no `else`. -/
def headed {ρ : Type} (owner : Owner) (cs : List (Clause ρ)) (b : Body ρ) (place : ρ) : Stmt ρ :=
  match owner with
  | .ifStatement => .ifStmt cs b (.body .missing) place
  | .guardStatement => .guardStmt cs b place
  | .whileStatement => .whileStmt cs b place

/-- The token that begins what stands behind a header. -/
def bodyBegin : Owner → Fixed
  | .guardStatement => .elseWord
  | _ => .lbrace

/-- From here to the end of the source stands what belongs behind a header: a body, with `else` in
front of it for a `guard`.  It is read in silence. -/
def Finishes (owner : Owner) (B : Body Run → Prop) (i : Input) : Prop :=
  i.kind = .fixed (bodyBegin owner) ∧
    (body stmt owner).Ensures (if owner = .guardStatement then i.next else i)
      fun b rs j => B b ∧ rs = [] ∧ j.rest = []

theorem Finishes.kind_ne_comma {owner : Owner} {B : Body Run → Prop} (h : Finishes owner B i) :
    i.kind ≠ .fixed .comma := by
  rw [h.1]
  cases owner <;> nofun

/-- **A statement is read as its header and its body say,** if nothing stands behind the body. -/
theorem stmt_headed {owner : Owner} {C : List (Clause Run) → List (Report Run) → Prop}
    {B : Body Run → Prop} (hword : i.kind = (Condition.ownerSpelling owner).kind)
    (h : (conditions owner).Ensures i.next fun cs rs j => C cs rs ∧ Finishes owner B j) :
    stmt.Ensures i fun s rs j =>
      (∃ cs b place, s = headed owner cs b place ∧ C cs rs ∧ B b) ∧ j.rest = [] := by
  rw [stmt_eq]
  unfold statement
  rw [ensures_bind, ensures_kind, hword]
  cases owner with
  | ifStatement =>
    change (ifStatement stmt).Ensures i _
    unfold ifStatement
    rw [ensures_bind, ensures_position, ensures_bind, ensures_next, ensures_bind]
    refine h.mono fun cs rs j hj => ?_
    obtain ⟨hcs, -, hbody⟩ := hj
    rw [ensures_bind]
    refine Ensures.mono hbody fun b rs' k hk => ?_
    obtain ⟨hb, rfl, hend⟩ := hk
    simp only [ensures_bind, ensures_eat, ↓reduceIte, Bool.false_eq_true]
    rw [← List.append_nil rs] at hcs
    refine ⟨fun helse => absurd hend (Input.rest_ne_nil helse), fun _ => ?_⟩
    exact ⟨⟨cs, b, _, rfl, hcs, hb⟩, hend⟩
  | guardStatement =>
    change (guardStatement stmt).Ensures i _
    unfold guardStatement
    rw [ensures_bind, ensures_position, ensures_bind, ensures_next, ensures_bind]
    refine h.mono fun cs rs j hj => ?_
    obtain ⟨hcs, helse, hbody⟩ := hj
    rw [ensures_bind]
    have hstop : (TagSet.headerEnd .guardStatement).contains j.kind = true := helse ▸ rfl
    refine (headerTail_complete _ hstop (Input.rest_ne_nil helse)).mono fun _ rs' k hk => ?_
    obtain ⟨rfl, rfl⟩ := hk
    simp only [guardBody, ensures_bind, ensures_eat, ↓reduceIte, Bool.false_eq_true,
      List.nil_append]
    refine ⟨fun _ => ?_, fun hne => absurd helse hne⟩
    refine Ensures.mono hbody fun b rs' l hl => ?_
    obtain ⟨hb, rfl, hend⟩ := hl
    rw [← List.append_nil rs] at hcs
    exact ⟨⟨cs, b, _, rfl, hcs, hb⟩, hend⟩
  | whileStatement =>
    change (whileStatement stmt).Ensures i _
    unfold whileStatement
    rw [ensures_bind, ensures_position, ensures_bind, ensures_next, ensures_bind]
    refine h.mono fun cs rs j hj => ?_
    obtain ⟨hcs, -, hbody⟩ := hj
    rw [ensures_bind]
    refine Ensures.mono hbody fun b rs' k hk => ?_
    obtain ⟨hb, rfl, hend⟩ := hk
    rw [← List.append_nil rs] at hcs
    exact ⟨⟨cs, b, _, rfl, hcs, hb⟩, hend⟩

/-- **A statement that the source ends behind is the whole module.** -/
theorem topLevel_alone {S : Stmt Run → List (Report Run) → Prop}
    (hstart : TagSet.statementStart.contains i.kind = true)
    (h : stmt.Ensures i fun s rs j => S s rs ∧ j.rest = []) :
    topLevel.Ensures i fun ss rs _ => ∃ s, ss = [s] ∧ S s rs := by
  have hne : i.rest ≠ [] := by
    refine Input.rest_ne_nil_of_kind fun hend => ?_
    rw [hend] at hstart
    exact absurd hstart Bool.false_ne_true
  unfold topLevel
  rw [ensures_bind]
  apply ensures_collect_more (topLevelItem?_advances _)
  simp only [topLevelItem?, item, ensures_bind, ensures_atEnd, ensures_kind, ensures_pure, hstart,
    ↓reduceIte, Bool.false_eq_true, List.nil_append, List.append_nil]
  refine ⟨fun hnil => absurd hnil hne, fun _ => ?_⟩
  refine h.mono fun s rs j hj => ?_
  obtain ⟨hs, hend⟩ := hj
  refine (restOfLine_complete (.inl hend)).mono fun _ rs' k hk => ?_
  obtain ⟨rfl, hk⟩ := hk
  refine ⟨_, rfl, ensures_collect_stop ?_⟩
  simp only [ensures_bind, ensures_atEnd, ensures_pure, ↓reduceIte, Bool.false_eq_true,
    List.append_nil]
  exact ⟨fun _ => ⟨trivial, s, rfl, hs⟩, fun hne => absurd (hk.trans hend) hne⟩

/-- **A query in front of a body that the source ends with** is the only condition of the only
statement. -/
theorem topLevel_of_query {owner : Owner} {Q : Query Run → List (Report Run) → Prop}
    {B : Body Run → Prop} (hword : i.kind = (Condition.ownerSpelling owner).kind)
    (hkeyword : i.next.kind.isAvailability = true)
    (h : (query (TagSet.headerEnd owner)).Ensures i.next fun q rs j =>
      Q q rs ∧ Finishes owner B j) :
    topLevel.Ensures i fun ss rs _ => ∃ q b place,
      ss = [headed owner [.availability q] b place] ∧ Q q rs ∧ B b := by
  have hstart : TagSet.statementStart.contains i.kind = true := by
    rw [hword]
    cases owner <;> rfl
  have hquery : (query (TagSet.headerEnd owner)).Ensures i.next fun q rs j =>
      (Q q rs ∧ Finishes owner B j) ∧ j.kind ≠ .fixed .comma :=
    h.mono fun q rs j hq => ⟨hq, hq.2.kind_ne_comma⟩
  have hheader : (conditions owner).Ensures i.next fun cs rs j =>
      (∃ q, cs = [.availability q] ∧ Q q rs) ∧ Finishes owner B j := by
    refine (conditions_of_query owner hkeyword hquery).mono fun cs rs j hcs => ?_
    obtain ⟨q, rfl, hq, hbody⟩ := hcs
    exact ⟨⟨q, rfl, hq⟩, hbody⟩
  refine (topLevel_alone hstart (stmt_headed hword hheader)).mono fun ss rs _ hss => ?_
  obtain ⟨s, rfl, cs, b, place, rfl, ⟨q, rfl, hq⟩, hb⟩ := hss
  exact ⟨q, b, place, rfl, hq, hb⟩

/-! ## 5. Typeset conditions -/

/-- An empty body is read to its end. -/
theorem finishes_empty {owner : Owner}
    (h : i.kinds = (Condition.bodySpelling owner).map Spelling.kind) :
    Finishes owner (fun b => ∃ p, b = .block [] p) i := by
  have hbody : ∀ j : Input, j.kinds = [.fixed .lbrace, .fixed .rbrace] →
      (body stmt owner).Ensures j fun b rs k => (∃ p, b = .block [] p) ∧ rs = [] ∧ k.rest = [] := by
    intro j hj
    have hopen := Input.kind_of_kinds hj
    have hclose := Input.kinds_next hj
    unfold body
    rw [ensures_bind]
    refine (headerTail_complete owner (hopen ▸ rfl) (Input.rest_ne_nil hopen)).mono
      fun _ rs k hk => ?_
    obtain ⟨rfl, rfl⟩ := hk
    simp only [block, ensures_bind, ensures_check, ensures_position, ensures_next, ↓reduceIte,
      Bool.false_eq_true, List.nil_append]
    refine ⟨fun _ => ensures_collect_stop ?_, fun hne => absurd hopen hne⟩
    simp only [blockItem?, ensures_bind, ensures_eat, ↓reduceIte, Bool.false_eq_true]
    refine ⟨fun _ => ?_, fun hne => absurd (Input.kind_of_kinds hclose) hne⟩
    exact ⟨rfl, ⟨_, rfl⟩, rfl, List.map_eq_nil_iff.mp (Input.kinds_next hclose)⟩
  cases owner with
  | guardStatement => exact ⟨Input.kind_of_kinds h, hbody i.next (Input.kinds_next h)⟩
  | _ => exact ⟨Input.kind_of_kinds h, hbody i h⟩

theorem Condition.stmt_eq_headed {ρ : Type} (owner : Owner) (q : Query ρ) (inner outer : ρ) :
    Condition.stmt owner q inner outer = headed owner [.availability q] (.block [] inner) outer := by
  cases owner <;> rfl

/-- **A condition alone is read as a module of one statement,** in silence. -/
theorem topLevel_back (c : Condition) (h : i.kinds = c.spelling.map Spelling.kind) :
    topLevel.Ensures i fun ss rs _ => rs = [] ∧ ∃ q p p',
      ss = [Condition.stmt c.owner q p p'] ∧ q.map (fun _ => ()) = c.query := by
  have hspelling : c.spelling.map Spelling.kind =
      (Condition.ownerSpelling c.owner).kind :: (c.querySpelling.map Spelling.kind ++
        (Condition.bodySpelling c.owner).map Spelling.kind) := by
    simp [Condition.spelling]
  rw [hspelling] at h
  have hnext := Input.kinds_next h
  have hkeyword : i.next.kind.isAvailability = true := by
    rw [kinds_querySpelling] at hnext
    rw [Input.kind_of_kinds hnext]
    cases c.negated <;> rfl
  have hquery := (query_back (TagSet.headerEnd c.owner) c hnext).mono fun q rs j hq =>
    show (q.map (fun _ => ()) = c.query ∧ rs = []) ∧ _ from
      ⟨⟨hq.1, hq.2.1⟩, finishes_empty hq.2.2⟩
  refine (topLevel_of_query (Input.kind_of_kinds h) hkeyword hquery).mono fun ss rs _ hss => ?_
  obtain ⟨q, b, place, rfl, ⟨hq, rfl⟩, p, rfl⟩ := hss
  exact ⟨rfl, q, p, place, by rw [Condition.stmt_eq_headed], hq⟩

end Parser

/-! ## 6. Outcomes -/

theorem Typesetting.kinds_terminals {ts : List Spelling} (l : Typesetting ts) :
    (Terminal.ofTokens (Token.ofSource l.text)).map Terminal.kind = ts.map Spelling.kind :=
  List.append_cancel_right ((Terminal.kinds_ofSource l.text).trans l.kinds_tokens)

/-- The owner of a statement with a header, and the body if there is one. -/
def StmtForm.header? {ρ : Type} : StmtForm ρ → Option (Owner × Option (BlockNode ρ))
  | ifStmt _ body _ => some (.ifStatement, body)
  | guardStmt _ body => some (.guardStatement, body)
  | whileStmt _ body => some (.whileStatement, body)
  | _ => none

theorem Writing.layout_stmt {ρ : Type} (owner : Owner) (q : Query ρ) (inner outer : ρ) :
    let r := (Stmt.layoutModule [Condition.stmt owner q inner outer]).run {}
    r.2.queries = [q] ∧ ∃ id node block, r.2.stmts.list? r.1 = some [id] ∧
      r.2.stmts.get? id = some node ∧ node.form.header? = some (owner, some block) := by
  cases owner with
  | ifStatement =>
    exact ⟨rfl, ⟨0⟩, ⟨.ifStmt ⟨0, 1⟩ (some ⟨⟨0, 0⟩, inner⟩) none, outer⟩, ⟨⟨0, 0⟩, inner⟩, rfl, rfl, rfl⟩
  | guardStatement =>
    exact ⟨rfl, ⟨0⟩, ⟨.guardStmt ⟨0, 1⟩ (some ⟨⟨0, 0⟩, inner⟩), outer⟩, ⟨⟨0, 0⟩, inner⟩, rfl, rfl, rfl⟩
  | whileStatement =>
    exact ⟨rfl, ⟨0⟩, ⟨.whileStmt ⟨0, 1⟩ (some ⟨⟨0, 0⟩, inner⟩), outer⟩, ⟨⟨0, 0⟩, inner⟩, rfl, rfl, rfl⟩

theorem Writing.mapAll_stmt {ρ σ : Type} (f : ρ → σ) (owner : Owner) (q : Query ρ)
    (inner outer : ρ) :
    Stmt.mapAll f [Condition.stmt owner q inner outer] =
      [Condition.stmt owner (q.map f) (f inner) (f outer)] := by
  cases owner <;> rfl

/-- Places do not matter once they are forgotten. -/
theorem Query.map_forget {ρ σ : Type} (f : ρ → σ) (q : Query ρ) :
    (q.map f).map (fun _ => ()) = q.map fun _ => () := by
  simp [Query.map, Entry.map]

namespace Outcome

open Writing

/-- The module of an outcome is what is laid out of the statements at the top level. -/
theorem layout_ofSource (source : String) (limit : Nat) :
    let s := Session.start (Token.ofSource source) source limit
    ((ofSource source limit).module, (ofSource source limit).arena) =
      (Stmt.layoutModule (Stmt.mapAll s.locate (Parser.topLevel s.input).value)).run {} := rfl

/-- **Writing a condition and reading it is the identity,** however the text is laid out: there are
no diagnostics, the module is one statement of the right kind with its body, and the only query has
the entries that were written, in their order. -/
theorem read_typeset (c : Condition) (l : Typesetting c.spelling) :
    let o := ofSource l.text 0
    o.diagnostics = [] ∧
    (∃ id node block, o.arena.stmts.list? o.module = some [id] ∧
      o.arena.stmts.get? id = some node ∧ node.form.header? = some (c.owner, some block)) ∧
    o.queries.map (Query.map fun _ => ()) = [c.query] := by
  have hkinds := l.kinds_terminals
  obtain ⟨hsilent, q, p, p', hvalue, hq⟩ :=
    Parser.topLevel_back (i := Input.start (Terminal.ofTokens (Token.ofSource l.text))) c hkinds
  have hlayout := layout_ofSource l.text 0
  simp only [Session.start, hvalue, mapAll_stmt] at hlayout
  obtain ⟨hqueries, hstmt⟩ := layout_stmt c.owner _ _ _
  rw [← hlayout] at hqueries hstmt
  dsimp only at hqueries hstmt
  refine ⟨?_, hstmt, ?_⟩
  · rw [diagnostics_ofSource, hsilent]
    rfl
  · unfold queries
    rw [hqueries, List.map_cons, Query.map_forget, hq]
    rfl

end Outcome

end PlatformGate
