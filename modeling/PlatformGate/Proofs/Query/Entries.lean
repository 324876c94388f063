/-
# How a query is read

What can go wrong inside the parentheses of a query comes in a fixed order: bad entries first, and
then leftovers at most once, behind which no entry is read (`ReadsItems`).  All of it is read without
passing over the end of the header.  `ReadsQuery` says the three ways in which the whole query can
end; what is to be known about queries is read off from there.
-/
import PlatformGate.Proofs.Parse.Headers
import PlatformGate.Proofs.Query.Passing

namespace PlatformGate

/-- What can be wrong with an entry. -/
def Cause.OfEntry {ρ : Type} : Cause ρ → Prop
  | .invalidToken | .missingPlatform | .missingVersion => True
  | _ => False

/-- Some entries were read from `i` up to `j`. -/
structure ReadsContent (owner : Owner) (i : Input) (rs : List (Report Run)) (j : Input) : Prop where
  content : ∀ r ∈ rs, r.cause.OfEntry
  spares : i.Spares (TagSet.headerEnd owner) j

/-- All that is read between the parentheses, from `i` up to `j`. -/
structure ReadsItems (owner : Owner) (i : Input) (rs : List (Report Run)) (j : Input) : Prop where
  order : ∃ content illegal, rs = content ++ illegal ∧ (∀ r ∈ content, r.cause.OfEntry) ∧
    (illegal = [] ∨ ∃ place, illegal = [⟨.leftover .availability, place⟩])
  spares : i.Spares (TagSet.headerEnd owner) j

section Composing

variable {owner : Owner} {i j k : Input} {rs rs' : List (Report Run)}

theorem ReadsContent.refl (owner : Owner) (i : Input) : ReadsContent owner i [] i :=
  ⟨by simp, .refl i⟩

theorem ReadsContent.trans (h : ReadsContent owner i rs j) (h' : ReadsContent owner j rs' k) :
    ReadsContent owner i (rs ++ rs') k := by
  refine ⟨fun r hr => ?_, h.spares.trans h'.spares⟩
  rcases List.mem_append.mp hr with hr | hr
  · exact h.content r hr
  · exact h'.content r hr

/-- A report at the next terminal, which is not read. -/
theorem ReadsContent.here (cause : Cause Run) (h : cause.OfEntry) (place : Run) :
    ReadsContent owner i [⟨cause, place⟩] i :=
  ⟨by simpa using h, .refl i⟩

theorem ReadsContent.items (h : ReadsContent owner i rs j) : ReadsItems owner i rs j :=
  ⟨⟨rs, [], (List.append_nil rs).symm, h.content, .inl rfl⟩, h.spares⟩

theorem ReadsContent.then_items (h : ReadsContent owner i rs j) (h' : ReadsItems owner j rs' k) :
    ReadsItems owner i (rs ++ rs') k := by
  obtain ⟨content, illegal, rfl, hcontent, hillegal⟩ := h'.order
  refine ⟨⟨rs ++ content, illegal, (List.append_assoc ..).symm, fun r hr => ?_, hillegal⟩,
    h.spares.trans h'.spares⟩
  rcases List.mem_append.mp hr with hr | hr
  · exact h.content r hr
  · exact hcontent r hr

/-- Tokens of a kind that opens nothing and ends no header. -/
def InEntries (k : Kind String) : Prop :=
  k ≠ .endOfFile ∧ k.isOpener = false ∧ ∀ owner, (TagSet.headerEnd owner).contains k = false

theorem inEntries_word (name : String) : InEntries (.word name) :=
  ⟨nofun, rfl, fun owner => by cases owner <;> rfl⟩

theorem inEntries_number (v : Nat) : InEntries (.number v) :=
  ⟨nofun, rfl, fun owner => by cases owner <;> rfl⟩

theorem inEntries_invalid : InEntries .invalid :=
  ⟨nofun, rfl, fun owner => by cases owner <;> rfl⟩

theorem inEntries_star : InEntries (.fixed .star) :=
  ⟨nofun, rfl, fun owner => by cases owner <;> rfl⟩

theorem inEntries_dot : InEntries (.fixed .dot) :=
  ⟨nofun, rfl, fun owner => by cases owner <;> rfl⟩

theorem inEntries_comma : InEntries (.fixed .comma) :=
  ⟨nofun, rfl, fun owner => by cases owner <;> rfl⟩

theorem inEntries_rparen : InEntries (.fixed .rparen) :=
  ⟨nofun, rfl, fun owner => by cases owner <;> rfl⟩

theorem InEntries.next {kind : Kind String} (hkind : InEntries kind) (h : i.kind = kind)
    (owner : Owner) : ReadsContent owner i [] i.next := by
  subst h
  obtain ⟨hend, hopen, hheader⟩ := hkind
  exact ⟨by simp, Input.spares_next (Input.rest_ne_nil_of_kind hend) (hheader owner) hopen⟩

/-- Leftovers of a query stop where the header ends. -/
theorem headerEnd_stops (owner : Owner) (k : Kind String)
    (h : (TagSet.headerEnd owner).contains k = true) :
    ((TagSet.headerEnd owner).insert (.fixed .rparen)).contains k = true :=
  Bool.or_eq_true_iff.mpr (.inr h)

end Composing

namespace Parser

variable {owner : Owner} {i : Input}

/-! ## 1. Versions -/

theorem invalidToken_content (h : i.kind = .invalid) :
    invalidToken.Ensures i fun _ rs j => ReadsContent owner i rs j := by
  rw [ensures_invalidToken]
  exact ⟨by simp [Cause.OfEntry], (inEntries_invalid.next h owner).spares⟩

theorem component?_content (owner : Owner) (i : Input) :
    component?.Ensures i fun _ rs j => ReadsContent owner i rs j := by
  simp only [component?, ensures_bind, ensures_eat, ensures_pure, ↓reduceIte, Bool.false_eq_true,
    List.nil_append]
  refine ⟨fun hdot => ?_, fun _ => .refl owner i⟩
  have hnext := inEntries_dot.next hdot owner
  simp only [ensures_kind, List.nil_append]
  split
  · rename_i v hk
    simp only [ensures_bind, ensures_next, ensures_pure, List.append_nil]
    exact hnext.trans ((inEntries_number v).next hk owner)
  · rename_i hk
    simp only [ensures_bind, ensures_pure, List.append_nil]
    exact (invalidToken_content hk).mono fun _ _ _ h => hnext.trans h
  · simp only [ensures_bind, ensures_reportHere, ensures_pure, List.append_nil]
    exact hnext.trans (.here .missingVersion trivial _)

theorem version?_content (owner : Owner) (i : Input) :
    version?.Ensures i fun _ rs j => ReadsContent owner i rs j := by
  simp only [version?, ensures_bind, ensures_kind, List.nil_append]
  split
  · rename_i v hk
    simp only [ensures_bind, ensures_next, List.nil_append]
    have hnext := (inEntries_number v).next hk owner
    refine (component?_content owner i.next).mono fun minor? rs j hminor => ?_
    have hij : ReadsContent owner i rs j := hnext.trans hminor
    split
    · simpa only [ensures_pure, List.append_nil] using hij
    · simp only [ensures_bind]
      refine (component?_content owner j).mono fun patch? rs' k hpatch => ?_
      have hik := hij.trans hpatch
      split <;> simpa only [ensures_pure, List.append_nil] using hik
  · rename_i hk
    simp only [ensures_bind, ensures_pure, List.append_nil]
    exact invalidToken_content hk
  · exact .refl owner i

/-! ## 2. Entries -/

/-- An operator that no query may hold ends the entries. -/
theorem leftovers_items (owner : Owner) (i : Input) :
    (leftovers .availability ((TagSet.headerEnd owner).insert (.fixed .rparen)) false).Ensures i
      fun _ rs j => ReadsItems owner i rs j := by
  rw [ensures_leftovers]
  refine ⟨fun _ => (ReadsContent.refl owner i).items, ?_⟩
  rintro n rfl -
  refine ⟨⟨[], _, rfl, by simp, .inr ⟨_, rfl⟩⟩, ?_⟩
  exact Input.spares_capture (headerEnd_stops owner) false

theorem entryHere?_items (owner : Owner) (i : Input) :
    (entryHere? (TagSet.headerEnd owner)).Ensures i fun e? rs j =>
      match e? with
      | none => ReadsItems owner i rs j
      | some _ => ReadsContent owner i rs j := by
  rw [entryHere?, ensures_unlessIllegal]
  refine ⟨fun _ => leftovers_items owner i, fun _ => ?_⟩
  simp only [ensures_bind, ensures_position, ensures_kind, List.nil_append]
  split
  · rename_i hk
    simp only [ensures_bind, ensures_next, ensures_runFrom, ensures_pure, List.append_nil]
    exact inEntries_star.next hk owner
  · rename_i name hk
    simp only [ensures_bind, ensures_next, ensures_runFrom, ensures_pure, List.nil_append,
      List.append_nil]
    have hnext := (inEntries_word name).next hk owner
    exact (version?_content owner _).mono fun _ _ _ h => hnext.trans h
  · simp only [ensures_bind, ensures_reportHere, ensures_runFrom, ensures_pure, List.append_nil]
    exact (version?_content owner _).mono fun _ _ _ h =>
      .trans (.here .missingPlatform trivial _) h
  · exact (ReadsContent.refl owner _).items
  · exact (ReadsContent.refl owner _).items
  · split
    · exact (ReadsContent.refl owner _).items
    · simp only [ensures_bind, ensures_reportHere, ensures_pure, List.append_nil]
      exact (ReadsContent.here .missingPlatform trivial _).items

theorem entryBehindComma?_items (owner : Owner) (i : Input) :
    (entryBehindComma? (TagSet.headerEnd owner)).Ensures i fun e? rs j =>
      match e? with
      | none => ReadsItems owner i rs j
      | some _ => ReadsContent owner i rs j := by
  rw [entryBehindComma?, ensures_unlessIllegal]
  refine ⟨fun _ => leftovers_items owner i, fun _ => ?_⟩
  simp only [ensures_bind, ensures_eat, ↓reduceIte, Bool.false_eq_true, List.nil_append]
  refine ⟨fun hcomma => ?_, fun _ => (ReadsContent.refl owner _).items⟩
  have hnext := inEntries_comma.next hcomma owner
  refine (entryHere?_items owner _).mono fun e? rs j h => ?_
  cases e? with
  | none => exact hnext.then_items h
  | some e => exact hnext.trans h

theorem entries_items (owner : Owner) (i : Input) :
    (entries (TagSet.headerEnd owner)).Ensures i fun _ rs j => ReadsItems owner i rs j := by
  have hloop : ∀ j, (collect (entryBehindComma? (TagSet.headerEnd owner))).Ensures j
      fun _ rs k => ReadsItems owner j rs k := by
    refine ensures_collect fun j => ?_
    have hadv := entryBehindComma?_advances (TagSet.headerEnd owner) _ j (Nat.le_refl _)
    refine (hadv.and (entryBehindComma?_items owner j)).mono fun e? rs k ⟨hlt, h⟩ => ?_
    cases e? with
    | none => exact h
    | some e => exact ⟨hlt rfl, fun _ _ _ h' => h.then_items h'⟩
  simp only [entries, ensures_bind, ensures_check, ↓reduceIte, Bool.false_eq_true,
    List.nil_append, ensures_reportHere, ensures_pure, List.append_nil]
  refine ⟨fun _ => (ReadsContent.here .missingPlatform trivial _).items, fun _ => ?_⟩
  refine (entryHere?_items owner i).mono fun e? rs j h => ?_
  cases e? with
  | none => simpa only [ensures_pure, List.append_nil] using h
  | some e =>
    simp only [ensures_bind, ensures_pure, List.append_nil]
    exact (hloop j).mono fun _ _ _ h' => h.then_items h'

end Parser

/-! ## 3. Queries -/

/-- The three ways in which a query that begins at `i` is read. -/
inductive ReadsQuery (owner : Owner) (i : Input) (q : Query Run) :
    List (Report Run) → Input → Prop
  /-- Behind the keyword no parenthesis opens. -/
  | unopened (entries : q.entries = []) (status : q.status = .incomplete) :
    ReadsQuery owner i q [⟨.missingQueryOpener, Run.token i.next.position⟩] i.next
  | closed {rs : List (Report Run)} {k : Input} (opens : i.next.kind = .fixed .lparen)
      (items : ReadsItems owner i.next.next rs k) (closes : k.kind = .fixed .rparen)
      (status : q.status = .done) :
    ReadsQuery owner i q rs k.next
  /-- No parenthesis closes, and the end of the header is looked for. -/
  | unclosed {rs : List (Report Run)} {k : Input} (opens : i.next.kind = .fixed .lparen)
      (items : ReadsItems owner i.next.next rs k) (status : q.status = .incomplete) :
    ReadsQuery owner i q
      (rs ++ [⟨.unclosed .availability (Run.token i.next.position), Run.token k.position⟩])
      (k.skip ((probeLength? (TagSet.headerEnd owner) 0 k.rest).getD 0))

/-- **A query is read in one of three ways.** -/
theorem Parser.query_cases (owner : Owner) (i : Input) :
    (query (TagSet.headerEnd owner)).Ensures i (ReadsQuery owner i) := by
  simp only [query, ensures_bind, ensures_position, ensures_kind, ensures_next, ensures_eat,
    ↓reduceIte, Bool.false_eq_true, List.nil_append, ensures_runFrom, ensures_pure,
    List.append_nil]
  refine ⟨fun hopen => ?_, fun _ => ?_⟩
  · refine (entries_items owner i.next.next).mono fun es rs k hitems => ?_
    refine ⟨fun hclose => .closed hopen hitems hclose rfl, fun _ => ?_⟩
    rw [ensures_unclosed]
    exact .unclosed hopen hitems rfl
  · rw [ensures_reportHere]
    exact .unopened rfl rfl

end PlatformGate
