/-
# Entries are kept as they stand

Whatever goes wrong in a query, an entry that has been read is what its tokens say: a star, a name
with the version behind it, or a version alone.  A version has the numbers of its dotted run, up to
the first place where a number is missing and three at the most.  That can be told from the tokens
of the entry alone, and from all tokens that follow (`Entry.Stands`).

An entry without a name is reported at its first token, and no other number is reported so.  Where
the entries end, because of an operator or because the parenthesis is missing, is reported behind
them all (`Parser.KeepsQuery`).
-/
import PlatformGate.Proofs.Account.Quotes
import PlatformGate.Proofs.Query.Entries
import PlatformGate.Proofs.Writing.ReadsBack

namespace PlatformGate

/-! ## 1. What tokens say -/

/-- The numbers behind dots, at most `n` of them, up to the first dot without one. -/
def numbersBehindDots : Nat → List (Kind String) → List Nat
  | n + 1, .fixed .dot :: .number v :: ks => v :: numbersBehindDots n ks
  | _, _ => []

theorem numbersBehindDots_eq_nil {ks : List (Kind String)}
    (h : ∀ v us, ks ≠ .fixed .dot :: .number v :: us) (n : Nat) : numbersBehindDots n ks = [] := by
  unfold numbersBehindDots
  split
  · exact absurd rfl (h _ _)
  · rfl

theorem length_numbersBehindDots_le (n : Nat) (ks : List (Kind String)) :
    (numbersBehindDots n ks).length ≤ n := by
  induction n, ks using numbersBehindDots.induct with
  | case1 n v ks ih =>
    rw [numbersBehindDots, List.length_cons]
    exact Nat.succ_le_succ ih
  | case2 n ks hdot =>
    unfold numbersBehindDots
    split
    · exact absurd rfl (hdot _ _ _ rfl)
    · exact Nat.zero_le n

/-- The numbers of the dotted run that begins here.  There are three at the most. -/
def dottedRun : List (Kind String) → List Nat
  | .number major :: ks => major :: numbersBehindDots 2 ks
  | _ => []

/-- The entry that begins here. -/
def entryAt? : List (Kind String) → Option (Entry Unit)
  | .fixed .star :: _ => some (Entry.star ())
  | .word name :: ks => some (Entry.platform name (Version.ofComponents? (dottedRun ks)) ())
  | .number v :: ks => some (Entry.unnamed (Version.ofComponents? (dottedRun (.number v :: ks))) ())
  | _ => none

/-- An entry that begins with a number is the version that begins there. -/
theorem entryAt?_of_dottedRun {ks : List (Kind String)} {numbers : List Nat}
    (h : dottedRun ks = numbers) (hne : numbers ≠ []) :
    entryAt? ks = some (Entry.unnamed (Version.ofComponents? numbers) ()) := by
  subst h
  unfold dottedRun at hne
  split at hne
  · rfl
  · exact absurd rfl hne

/-- The entry is a star, a name that may have a version, or a version alone. -/
def Entry.Shaped {ρ : Type} (e : Entry ρ) : Prop :=
  e = .star e.place ∨ (∃ name version, e = .platform name version e.place) ∨
    ∃ version, e = .unnamed (some version) e.place

theorem Entry.shaped_of_map {ρ σ : Type} {f : ρ → σ} {e : Entry ρ} (h : (e.map f).Shaped) :
    e.Shaped := by
  obtain ⟨name, version, wildcard, place⟩ := e
  rcases h with h | ⟨_, _, h⟩ | ⟨_, h⟩
  · cases h
    exact .inl rfl
  · cases h
    exact .inr (.inl ⟨_, _, rfl⟩)
  · cases h
    exact .inr (.inr ⟨_, rfl⟩)

theorem entryAt?_shaped {ks : List (Kind String)} {e : Entry Unit} (h : entryAt? ks = some e) :
    e.Shaped := by
  unfold entryAt? at h
  split at h
  · exact .inl (Option.some.inj h).symm
  · exact .inr (.inl ⟨_, _, (Option.some.inj h).symm⟩)
  · rename_i v ks
    have hshort : (dottedRun (.number v :: ks)).length ≤ 3 :=
      Nat.succ_le_succ (length_numbersBehindDots_le 2 ks)
    rw [Version.ofComponents?, dif_pos ⟨List.cons_ne_nil _ _, hshort⟩] at h
    exact .inr (.inr ⟨_, (Option.some.inj h).symm⟩)
  · cases h

/-- An entry without a name that is no star. -/
def Entry.isUnnamed {ρ : Type} (e : Entry ρ) : Bool := e.name.isNone && !e.wildcard

/-- The terminals that are taken from one input up to another. -/
def Input.Takes (i : Input) (ts : List Terminal) (j : Input) : Prop :=
  i.rest = ts ++ j.rest ∧ j.position = i.position + ts.length

/-- What can be wrong with a version. -/
def Cause.OfVersion {ρ : Type} : Cause ρ → Prop
  | .invalidToken | .missingVersion => True
  | _ => False

namespace Input

variable {i j k : Input} {ts us : List Terminal}

theorem Takes.kinds (h : i.Takes ts j) : i.kinds = ts.map Terminal.kind ++ j.kinds := by
  rw [Input.kinds, h.1, List.map_append]
  rfl

theorem Takes.append (h : i.Takes ts j) (h' : j.Takes us k) : i.Takes (ts ++ us) k := by
  refine ⟨?_, ?_⟩
  · rw [h.1, h'.1, List.append_assoc]
  · rw [h'.2, h.2, List.length_append, Nat.add_assoc]

theorem takes_nil (i : Input) : i.Takes [] i := ⟨rfl, rfl⟩

/-- The next terminal is taken by its kind. -/
theorem takes_next {kind : Kind String} (h : i.kind = kind) (hkind : kind ≠ .endOfFile) :
    ∃ t, i.Takes [t] i.next ∧ t.kind = kind ∧ i.kinds = kind :: i.next.kinds := by
  subst h
  obtain ⟨t, ts, hts⟩ := List.exists_cons_of_ne_nil (rest_ne_nil_of_kind hkind)
  have ht : i.Takes [t] i.next := by
    rw [next_eq_of_rest hts]
    exact ⟨hts, rfl⟩
  have htkind : t.kind = i.kind := (kind_eq_head hts).symm
  refine ⟨t, ht, htkind, ?_⟩
  rw [ht.kinds, List.map_singleton, htkind]
  rfl

end Input

namespace Parser

variable {i : Input}

/-! ## 2. Versions and entries -/

theorem component?_denotes (i : Input) :
    component?.Ensures i fun c? rs j => ∃ ts, i.Takes ts j ∧ (∀ r ∈ rs, r.cause.OfVersion) ∧
      match c? with
      | some v => ts.map Terminal.kind = [.fixed .dot, .number v]
      | none => ∀ n, numbersBehindDots n i.kinds = [] ∧
          numbersBehindDots n (ts.map Terminal.kind) = [] := by
  simp only [component?, ensures_bind, ensures_eat, ↓reduceIte, Bool.false_eq_true,
    List.nil_append]
  refine ⟨fun hdot => ?_, fun hne => ?_⟩
  · obtain ⟨t, ht, htkind, hkinds⟩ := Input.takes_next hdot (by simp)
    have hnone : (∀ v, i.next.kind ≠ .number v) → ∀ n, numbersBehindDots n i.kinds = [] := by
      intro hnext
      refine numbersBehindDots_eq_nil fun v us heq => hnext v ?_
      rw [hkinds] at heq
      exact Input.kind_of_kinds (List.cons.inj heq).2
    have hnext : ∀ {k : Kind String}, i.next.kind = k → k ≠ .endOfFile →
        ∃ us, i.Takes us i.next.next ∧ us.map Terminal.kind = [.fixed .dot, k] := by
      intro k hk hne
      obtain ⟨u, hu, hukind, -⟩ := Input.takes_next hk hne
      refine ⟨[t, u], ht.append hu, ?_⟩
      rw [List.map_cons, List.map_singleton, htkind, hukind]
    simp only [ensures_kind, List.nil_append]
    split
    · rename_i v hk
      obtain ⟨us, hus, husk⟩ := hnext hk (by simp)
      exact ⟨us, hus, List.forall_mem_nil _, husk⟩
    · rename_i hk
      obtain ⟨us, hus, husk⟩ := hnext hk (by simp)
      simp only [ensures_bind, ensures_invalidToken, ensures_pure, List.append_nil]
      refine ⟨us, hus, by simp [Cause.OfVersion], fun n => ⟨hnone (fun v => by simp [hk]) n, ?_⟩⟩
      rw [husk]
      cases n <;> rfl
    · rename_i hnumber _
      simp only [ensures_bind, ensures_reportHere, ensures_pure, List.append_nil]
      refine ⟨[t], ht, by simp [Cause.OfVersion], fun n => ⟨hnone hnumber n, ?_⟩⟩
      rw [List.map_singleton, htkind]
      cases n <;> rfl
  · refine ⟨[], i.takes_nil, List.forall_mem_nil _, fun n => ⟨?_, by cases n <;> rfl⟩⟩
    exact numbersBehindDots_eq_nil (fun v us heq => hne (Input.kind_of_kinds heq)) n

/-- **A version has the numbers of its dotted run,** and all of them have been taken. -/
theorem version?_denotes (i : Input) :
    version?.Ensures i fun v? rs j => ∃ ts, i.Takes ts j ∧ (∀ r ∈ rs, r.cause.OfVersion) ∧
      ∃ numbers, dottedRun i.kinds = numbers ∧ dottedRun (ts.map Terminal.kind) = numbers ∧
        v? = Version.ofComponents? numbers := by
  simp only [version?, ensures_bind, ensures_kind, List.nil_append]
  split
  · rename_i major hk
    obtain ⟨t, ht, htkind, hkinds⟩ := Input.takes_next hk (by simp)
    simp only [ensures_bind, ensures_next, List.nil_append]
    refine (component?_denotes i.next).mono fun minor? rs j hminor => ?_
    obtain ⟨ts, hts, hrs, hminor⟩ := hminor
    cases minor? with
    | none =>
      simp only [ensures_pure, List.append_nil]
      refine ⟨t :: ts, ht.append hts, hrs, [major], ?_, ?_, rfl⟩
      · rw [hkinds, dottedRun, (hminor 2).1]
      · rw [List.map_cons, htkind, dottedRun, (hminor 2).2]
    | some minor =>
      simp only [ensures_bind]
      refine (component?_denotes j).mono fun patch? rs' k hpatch => ?_
      obtain ⟨us, hus, hrs', hpatch⟩ := hpatch
      have htakes := (ht.append hts).append hus
      have hcauses := List.forall_mem_append.mpr ⟨hrs, hrs'⟩
      have hall : dottedRun i.kinds = major :: minor :: numbersBehindDots 1 j.kinds := by
        rw [hkinds, hts.kinds, hminor]
        rfl
      have htaken : dottedRun ((([t] ++ ts) ++ us).map Terminal.kind) =
          major :: minor :: numbersBehindDots 1 (us.map Terminal.kind) := by
        rw [List.map_append, List.map_append, List.map_singleton, htkind, hminor]
        rfl
      cases patch? with
      | none =>
        simp only [ensures_pure, List.append_nil]
        rw [(hpatch 1).1] at hall
        rw [(hpatch 1).2] at htaken
        exact ⟨_, htakes, hcauses, _, hall, htaken, rfl⟩
      | some patch =>
        simp only [ensures_pure, List.append_nil]
        rw [hus.kinds, hpatch] at hall
        rw [hpatch] at htaken
        exact ⟨_, htakes, hcauses, [major, minor, patch], hall, htaken, rfl⟩
  · rename_i hk
    obtain ⟨t, ht, htkind, hkinds⟩ := Input.takes_next hk (by simp)
    simp only [ensures_bind, ensures_invalidToken, ensures_pure, List.append_nil]
    refine ⟨[t], ht, by simp [Cause.OfVersion], [], ?_, ?_, rfl⟩
    · rw [hkinds, dottedRun]
      simp
    · rw [List.map_singleton, htkind, dottedRun]
      simp
  · rename_i hnumber _
    refine ⟨[], i.takes_nil, List.forall_mem_nil _, [], ?_, rfl, rfl⟩
    unfold dottedRun
    split
    · rename_i v ks heq
      exact absurd (Input.kind_of_kinds heq) (hnumber v)
    · rfl

/-- The run ends with a dot that no number follows. -/
example : dottedRun [.number 1, .fixed .dot, .number 2, .fixed .dot, .fixed .comma] = [1, 2] := rfl

/-- What is read from `i` up to `j` as an entry, with the reports on the way. -/
structure DenotesEntry (i : Input) (e : Entry Run) (rs : List (Report Run)) (j : Input) : Prop where
  place : e.place = ⟨i.position, j.position⟩
  taken : ∃ ts, i.Takes ts j ∧ ts ≠ [] ∧
    entryAt? (ts.map Terminal.kind) = some (e.map fun _ => ())
  follows : entryAt? i.kinds = some (e.map fun _ => ())
  reports : ∃ versions, (∀ r ∈ versions, r.cause.OfVersion) ∧
    rs = (if e.isUnnamed then [⟨.missingPlatform, Run.token i.position⟩] else []) ++ versions

/-- What is reported where no entry is read. -/
def DenotesNone (i : Input) (rs : List (Report Run)) : Prop :=
  rs = [] ∨ (∃ place, rs = [⟨.leftover .availability, place⟩]) ∨
    rs = [⟨.missingPlatform, Run.token i.position⟩] ∧ ∀ v, i.kind ≠ .number v

theorem leftovers_denotes (stop : TagSet) (i : Input) :
    (leftovers .availability stop false).Ensures i fun _ rs _ => DenotesNone i rs := by
  rw [ensures_leftovers]
  exact ⟨fun _ => .inl rfl, fun n _ _ => .inr (.inl ⟨_, rfl⟩)⟩

/-- **An entry is what its tokens say.** -/
theorem entryHere?_denotes (resume : TagSet) (i : Input) :
    (entryHere? resume).Ensures i fun e? rs j =>
      match e? with
      | none => DenotesNone i rs
      | some e => DenotesEntry i e rs j := by
  rw [entryHere?, ensures_unlessIllegal]
  refine ⟨fun _ => leftovers_denotes _ i, fun _ => ?_⟩
  simp only [ensures_bind, ensures_position, ensures_kind, List.nil_append]
  split
  · rename_i hk
    obtain ⟨t, ht, htkind, hkinds⟩ := Input.takes_next hk (by simp)
    simp only [ensures_bind, ensures_next, ensures_runFrom, ensures_pure, List.append_nil]
    refine ⟨rfl, ⟨[t], ht, List.cons_ne_nil t [], ?_⟩, ?_, [], List.forall_mem_nil _, rfl⟩
    · rw [List.map_singleton, htkind]
      rfl
    · rw [hkinds]
      rfl
  · rename_i name hk
    obtain ⟨t, ht, htkind, hkinds⟩ := Input.takes_next hk (by simp)
    simp only [ensures_bind, ensures_next, ensures_runFrom, ensures_pure, List.nil_append,
      List.append_nil]
    refine (version?_denotes _).mono fun v? rs j hversion => ?_
    obtain ⟨ts, hts, hrs, numbers, hrun, htaken, rfl⟩ := hversion
    refine ⟨rfl, ⟨t :: ts, ht.append hts, List.cons_ne_nil t ts, ?_⟩, ?_, rs, hrs, rfl⟩
    · rw [List.map_cons, htkind, entryAt?, htaken]
      rfl
    · rw [hkinds, entryAt?, hrun]
      rfl
  · rename_i v hk
    obtain ⟨-, -, -, hkinds⟩ := Input.takes_next hk (by simp)
    simp only [ensures_bind, ensures_reportHere, ensures_runFrom, ensures_pure, List.append_nil]
    refine (version?_denotes _).mono fun v? rs j hversion => ?_
    obtain ⟨ts, hts, hrs, numbers, hrun, htaken, rfl⟩ := hversion
    have hne : numbers ≠ [] := by
      rw [← hrun, hkinds]
      exact List.cons_ne_nil _ _
    refine ⟨rfl, ⟨ts, hts, ?_, entryAt?_of_dottedRun htaken hne⟩,
      entryAt?_of_dottedRun hrun hne, rs, hrs, rfl⟩
    rintro rfl
    exact hne htaken.symm
  · exact .inl rfl
  · exact .inl rfl
  · split
    · exact .inl rfl
    · rename_i hnumber _ _ _
      simp only [ensures_bind, ensures_reportHere, ensures_pure, List.append_nil]
      exact .inr (.inr ⟨rfl, hnumber⟩)

end Parser

/-! ## 3. Entries in a row -/

/-- An entry is what the terminals that it covers say, and what all terminals from there on say. -/
structure Entry.Stands (w : List Terminal) (e : Entry Run) : Prop where
  solid : e.place.Solid w.length
  taken : entryAt? (((w.take e.place.past).drop e.place.first).map Terminal.kind) =
    some (e.map fun _ => ())
  follows : entryAt? ((w.drop e.place.first).map Terminal.kind) = some (e.map fun _ => ())

/-- The report misses a name where a number stands. -/
def Report.missesName (w : List Terminal) (r : Report Run) : Bool :=
  r.cause == .missingPlatform && w[r.place.first]?.any fun t => Grammar.isNumber t.kind

/-- Entries read one behind the other, from `i` up to `j`.  Each one without a name is reported,
and what ends the entries is reported behind them. -/
structure KeepsEntries (w : List Terminal) (i : Input) (es : List (Entry Run))
    (rs : List (Report Run)) (j : Input) : Prop where
  le : i.position ≤ j.position
  stands : ∀ e ∈ es, e.Stands w
  within : ∀ e ∈ es, i.position ≤ e.place.first ∧ e.place.past ≤ j.position
  apart : es.Pairwise fun e f => e.place.past ≤ f.place.first
  unnamed : (rs.filter (Report.missesName w)).map (fun r => r.place.first) =
    (es.filter Entry.isUnnamed).map fun e => e.place.first
  behind : ∀ r ∈ rs, i.position ≤ r.place.first
  ends : ∀ r ∈ rs, r.cause.OfEntry ∨ ∀ e ∈ es, e.place.past ≤ r.place.first

section Keeping

variable {w : List Terminal} {i j k : Input} {es es' : List (Entry Run)}
  {rs rs' : List (Report Run)} {e : Entry Run}

theorem KeepsEntries.append (h : KeepsEntries w i es rs j) (hrs : ∀ r ∈ rs, r.cause.OfEntry)
    (h' : KeepsEntries w j es' rs' k) : KeepsEntries w i (es ++ es') (rs ++ rs') k := by
  refine ⟨Nat.le_trans h.le h'.le, List.forall_mem_append.mpr ⟨h.stands, h'.stands⟩,
    List.forall_mem_append.mpr ⟨fun e he => ?_, fun e he => ?_⟩,
    List.pairwise_append.mpr ⟨h.apart, h'.apart, fun e he f hf => ?_⟩, ?_,
    List.forall_mem_append.mpr ⟨h.behind, fun r hr => Nat.le_trans h.le (h'.behind r hr)⟩,
    List.forall_mem_append.mpr ⟨fun r hr => .inl (hrs r hr), fun r hr => ?_⟩⟩
  · exact ⟨(h.within e he).1, Nat.le_trans (h.within e he).2 h'.le⟩
  · exact ⟨Nat.le_trans h.le (h'.within e he).1, (h'.within e he).2⟩
  · exact Nat.le_trans (h.within e he).2 (h'.within f hf).1
  · rw [List.filter_append, List.filter_append, List.map_append, List.map_append, h.unnamed,
      h'.unnamed]
  · refine (h'.ends r hr).imp_right fun hends => List.forall_mem_append.mpr ⟨fun e he => ?_, hends⟩
    exact Nat.le_trans (h.within e he).2 (h'.behind r hr)

/-- Reading on without an entry and without a report. -/
theorem KeepsEntries.of_ahead (w : List Terminal) (h : i.Ahead j) : KeepsEntries w i [] [] j :=
  ⟨h.position_le, nofun, nofun, .nil, rfl, nofun, nofun⟩

theorem Cause.OfVersion.ofEntry {cause : Cause Run} (h : cause.OfVersion) :
    cause.OfEntry ∧ cause ≠ .missingPlatform := by
  cases cause with
  | invalidToken | missingVersion => exact ⟨trivial, nofun⟩
  | _ => exact h.elim

/-- A report about a version misses no name. -/
theorem filter_missesName_versions (h : ∀ r ∈ rs, r.cause.OfVersion) :
    rs.filter (Report.missesName w) = [] := by
  refine List.filter_eq_nil_iff.mpr fun r hr hmisses => ?_
  obtain ⟨hcause, -⟩ := Bool.and_eq_true_iff.mp hmisses
  exact (h r hr).ofEntry.2 (beq_iff_eq.mp hcause)

/-- Whether a name is missed at the next terminal can be told from its kind. -/
theorem missesName_next (hi : i.In w) :
    Report.missesName w ⟨.missingPlatform, Run.token i.position⟩ = Grammar.isNumber i.kind := by
  change (w[i.position]?.any fun t => Grammar.isNumber t.kind) = _
  rw [hi.head?, Input.kind]
  cases i.rest <;> rfl

namespace Parser

theorem DenotesEntry.stands (h : DenotesEntry i e rs j) (hi : i.In w) : e.Stands w := by
  obtain ⟨ts, ⟨hts, hposition⟩, hne, htaken⟩ := h.taken
  have hrest : w.drop i.position = ts ++ j.rest := hi.symm.trans hts
  have hlength : 0 < ts.length := List.length_pos_iff.mpr hne
  have hbetween : (w.take j.position).drop i.position = ts := by
    rw [List.drop_take, hrest, hposition, Nat.add_sub_cancel_left, List.take_left]
  have hle : ts.length ≤ w.length - i.position := by
    rw [← List.length_drop, hrest, List.length_append]
    exact Nat.le_add_right _ _
  have hlt : i.position < j.position := by omega
  have hpast : j.position ≤ w.length := by omega
  constructor
  · rw [h.place]
    exact ⟨hlt, hpast⟩
  · rw [h.place, hbetween, htaken]
  · rw [h.place, ← h.follows, Input.kinds, hi]

/-- An entry is without a name exactly if a number begins it. -/
theorem DenotesEntry.isUnnamed_eq (h : DenotesEntry i e rs j) :
    e.isUnnamed = Grammar.isNumber i.kind := by
  have hfollows := h.follows
  unfold entryAt? at hfollows
  split at hfollows
  case h_1 hkinds | h_2 hkinds | h_3 hkinds =>
    rw [Input.kind_of_kinds hkinds]
    exact congrArg Entry.isUnnamed (Option.some.inj hfollows).symm
  case h_4 => cases hfollows

/-- An entry alone is kept, and nothing ends the entries there. -/
theorem DenotesEntry.keeps (h : DenotesEntry i e rs j) (hi : i.In w)
    (hmoves : Moves Cause.Inner i rs j) :
    KeepsEntries w i [e] rs j ∧ ∀ r ∈ rs, r.cause.OfEntry := by
  have hposition := hmoves.ahead.position_le
  have hplaced := hmoves.placed
  have hstands := h.stands hi
  have hunnamed := h.isUnnamed_eq
  have hmisses := missesName_next hi
  obtain ⟨versions, hversions, rfl⟩ := h.reports
  have hcauses : ∀ r ∈ (if e.isUnnamed then [⟨.missingPlatform, Run.token i.position⟩] else []) ++
      versions, r.cause.OfEntry := by
    refine List.forall_mem_append.mpr ⟨fun r hr => ?_, fun r hr => (hversions r hr).ofEntry.1⟩
    split at hr
    · rw [List.mem_singleton.mp hr]
      trivial
    · exact absurd hr List.not_mem_nil
  refine ⟨⟨hposition, List.forall_mem_singleton.mpr hstands, List.forall_mem_singleton.mpr ?_,
    List.pairwise_singleton _ _, ?_, fun r hr => (hplaced r hr).1, fun r hr => .inl (hcauses r hr)⟩,
    hcauses⟩
  · rw [h.place]
    exact ⟨Nat.le_refl _, Nat.le_refl _⟩
  · rw [List.filter_append, filter_missesName_versions hversions, List.append_nil]
    cases hname : e.isUnnamed with
    | false => simp [hname]
    | true =>
      rw [← hunnamed, hname] at hmisses
      rw [if_pos rfl, List.filter_cons_of_pos hmisses, List.filter_cons_of_pos hname, List.map_cons,
        List.map_cons, h.place]
      rfl

theorem DenotesNone.keeps (h : DenotesNone i rs) (hi : i.In w) (hmoves : Moves Cause.Inner i rs j) :
    KeepsEntries w i [] rs j := by
  refine ⟨hmoves.ahead.position_le, nofun, nofun, .nil, ?_, fun r hr => (hmoves.placed r hr).1,
    fun r _ => .inr nofun⟩
  rcases h with rfl | ⟨place, rfl⟩ | ⟨rfl, hnumber⟩
  · rfl
  · rfl
  · have hmisses : Grammar.isNumber i.kind = false := by
      cases hk : i.kind with
      | number v => exact absurd hk (hnumber v)
      | _ => rfl
    rw [List.filter_cons_of_neg (by simp [missesName_next hi, hmisses])]
    rfl

/-! ## 4. Queries -/

theorem entryHere?_keeps (resume : TagSet) (hi : i.In w) :
    (entryHere? resume).Ensures i fun e? rs j =>
      KeepsEntries w i e?.toList rs j ∧ (e?.isSome → ∀ r ∈ rs, r.cause.OfEntry) := by
  refine ((entryHere?_reads resume i).and (entryHere?_denotes resume i)).mono
    fun e? rs j ⟨hreads, hmeans⟩ => ?_
  cases e? with
  | none => exact ⟨DenotesNone.keeps hmeans hi hreads.1, nofun⟩
  | some e =>
    obtain ⟨hkeeps, hrs⟩ := DenotesEntry.keeps hmeans hi hreads.1
    exact ⟨hkeeps, fun _ => hrs⟩

theorem entryBehindComma?_keeps (resume : TagSet) (hi : i.In w) :
    (entryBehindComma? resume).Ensures i fun e? rs j =>
      KeepsEntries w i e?.toList rs j ∧ (e?.isSome → ∀ r ∈ rs, r.cause.OfEntry) := by
  rw [entryBehindComma?, ensures_unlessIllegal]
  refine ⟨fun _ => ?_, fun _ => ?_⟩
  · have hmoves := leftovers_moves (C := Cause.Inner) (c := .availability) trivial
      (resume.insert (.fixed .rparen)) false i
    exact (hmoves.and (leftovers_denotes _ i)).mono fun _ rs j h =>
      ⟨h.2.keeps hi h.1, fun hsome => absurd hsome Bool.false_ne_true⟩
  simp only [ensures_bind, ensures_eat, ↓reduceIte, Bool.false_eq_true, List.nil_append]
  refine ⟨fun _ => ?_, fun _ => ⟨.of_ahead w (.refl i), fun h => absurd h Bool.false_ne_true⟩⟩
  refine (entryHere?_keeps resume hi.next).mono fun e? rs j hj => ?_
  obtain ⟨hkeeps, hrs⟩ := hj
  exact ⟨(KeepsEntries.of_ahead w i.ahead_next).append (List.forall_mem_nil _) hkeeps, hrs⟩

theorem entries_keeps (resume : TagSet) (hi : i.In w) :
    (entries resume).Ensures i fun es rs j => KeepsEntries w i es rs j := by
  have hloop : ∀ j, (collect (entryBehindComma? resume)).Ensures j fun es rs k =>
      j.In w → KeepsEntries w j es rs k := by
    refine ensures_collect fun j => ?_
    have hadv := entryBehindComma?_advances resume _ j (Nat.le_refl _)
    have hitem : (entryBehindComma? resume).Ensures j fun e? rs k => j.In w →
        KeepsEntries w j e?.toList rs k ∧ (e?.isSome → ∀ r ∈ rs, r.cause.OfEntry) :=
      fun hj => entryBehindComma?_keeps resume hj
    refine ((hadv.and (entryBehindComma?_reads resume j)).and hitem).mono
      fun e? rs k hk => ?_
    obtain ⟨⟨hlt, hreads⟩, hkeeps⟩ := hk
    cases e? with
    | none => exact fun hj => (hkeeps hj).1
    | some e =>
      refine ⟨hlt rfl, fun es rs' l hrest hj => ?_⟩
      obtain ⟨hfirst, hrs⟩ := hkeeps hj
      exact hfirst.append (hrs rfl) (hrest (hj.ahead hreads.1.ahead))
  simp only [entries, ensures_bind, ensures_check, ↓reduceIte, Bool.false_eq_true,
    List.nil_append, ensures_reportHere, ensures_pure, List.append_nil]
  refine ⟨fun hclose => ?_, fun _ => ?_⟩
  · have hnumber : ∀ v, i.kind ≠ .number v := fun v => by simp [hclose]
    have hmoves : Moves Cause.Inner i [⟨.missingPlatform, Run.token i.position⟩] i :=
      .here trivial trivial
    exact DenotesNone.keeps (.inr (.inr ⟨rfl, hnumber⟩)) hi hmoves
  · refine ((entryHere?_reads resume i).and (entryHere?_keeps resume hi)).mono
      fun e? rs j hj => ?_
    obtain ⟨hreads, hkeeps, hrs⟩ := hj
    cases e? with
    | none =>
      simp only [ensures_pure, List.append_nil]
      exact hkeeps
    | some e =>
      simp only [ensures_bind, ensures_pure, List.append_nil]
      refine (hloop j).mono fun es rs' k hrest => ?_
      exact hkeeps.append (hrs rfl) (hrest (hi.ahead hreads.1.ahead))

/-- What is kept of a query that is read from `i` up to `j`.  Its entries stand behind the opening
parenthesis, and what ends them is reported behind them. -/
structure KeepsQuery (w : List Terminal) (i : Input) (q : Query Run) (rs : List (Report Run))
    (j : Input) : Prop where
  stands : ∀ e ∈ q.entries, e.Stands w
  opened : q.entries ≠ [] → i.next.kind = .fixed .lparen
  within : ∀ e ∈ q.entries, i.next.position < e.place.first ∧ e.place.past ≤ j.position
  apart : q.entries.Pairwise fun e f => e.place.past ≤ f.place.first
  unnamed : (rs.filter (Report.missesName w)).map (fun r => r.place.first) =
    (q.entries.filter Entry.isUnnamed).map fun e => e.place.first
  ends : ∀ r ∈ rs, r.cause.OfEntry ∨ ∀ e ∈ q.entries, e.place.past ≤ r.place.first

/-- **A query keeps its entries,** however it ends. -/
theorem query_keeps (resume : TagSet) (hi : i.In w) :
    (query resume).Ensures i (KeepsQuery w i) := by
  simp only [query, ensures_bind, ensures_position, ensures_kind, ensures_next, ensures_eat,
    ↓reduceIte, Bool.false_eq_true, List.nil_append, ensures_runFrom, ensures_pure,
    List.append_nil]
  refine ⟨fun hopen => ?_, fun _ => ?_⟩
  · have hlt := Input.position_lt_next (Input.rest_ne_nil hopen)
    refine (entries_keeps resume hi.next.next).mono fun es rs k h => ?_
    have hwithin : ∀ {l : Input}, k.position ≤ l.position → ∀ e ∈ es,
        i.next.position < e.place.first ∧ e.place.past ≤ l.position := fun hle e he =>
      ⟨Nat.lt_of_lt_of_le hlt (h.within e he).1, Nat.le_trans (h.within e he).2 hle⟩
    refine ⟨fun _ => ?_, fun _ => ?_⟩
    · exact ⟨h.stands, fun _ => hopen, hwithin k.ahead_next.position_le, h.apart, h.unnamed, h.ends⟩
    · rw [ensures_unclosed]
      refine ⟨h.stands, fun _ => hopen, hwithin (Nat.le_add_right _ _), h.apart, ?_,
        List.forall_mem_append.mpr ⟨h.ends, List.forall_mem_singleton.mpr (.inr ?_)⟩⟩
      · rw [List.filter_append, ← h.unnamed]
        exact congrArg _ (List.append_nil _)
      · exact fun e he => (h.within e he).2
  · rw [ensures_reportHere]
    exact ⟨List.forall_mem_nil _, fun hne => absurd rfl hne, List.forall_mem_nil _, .nil, rfl,
      List.forall_mem_singleton.mpr (.inr (List.forall_mem_nil _))⟩

end Parser

end Keeping

end PlatformGate
