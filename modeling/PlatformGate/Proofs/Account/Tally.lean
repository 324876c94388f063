/-
# The tally of keywords

An availability keyword begins a query, stands among leftovers, or is skipped in the search for the
end of a header behind a query that is not closed.  Nothing else takes one.  A course keeps a tally:
each keyword that it passes counts exactly once, as one of the three (`Course.tally_eq`).

Where a query is not closed, that is reported where the search begins, and the report names the
opening parenthesis.  So the report tells which query is meant, as queries stand behind each other.
-/
import PlatformGate.Proofs.Account.Quotes

namespace PlatformGate

open Terminal

/-! ## 1. The tally -/

/-- One for an index in the range, zero for any other. -/
def within (lo hi n : Nat) : Nat := if lo ≤ n ∧ n < hi then 1 else 0

section Within

variable {lo mid hi n : Nat}

theorem within_self : within lo lo n = 0 := by
  rw [within, if_neg (by omega)]

theorem within_add (h : lo ≤ mid) (h' : mid ≤ hi) :
    within lo mid n + within mid hi n = within lo hi n := by
  unfold within
  split <;> split <;> split <;> omega

end Within

/-- The query begins with the `n`th token. -/
def Asked.begins (n : Nat) (a : Asked) : Bool := a.query.place.first == n

/-- The `n`th token was skipped behind the query. -/
def Asked.skips (n : Nat) (a : Asked) : Bool :=
  decide (a.search ≤ n) && decide (n < a.query.place.past)

/-- The `n`th token is among the leftovers that are reported. -/
def Report.takes (n : Nat) (r : Report Run) : Bool :=
  r.cause.code.isOfLeftovers && decide (r.place.first ≤ n) && decide (n < r.place.past)

/-- How often the `n`th token begins a query, is among leftovers, or was skipped. -/
def tally (n : Nat) (rs : List (Report Run)) (as : List Asked) : Nat :=
  as.countP (Asked.begins n) + rs.countP (Report.takes n) + as.countP (Asked.skips n)

section Tally

variable {n : Nat} {rs rs' : List (Report Run)} {as : List Asked} {r : Report Run} {a : Asked}

/-- What is reported within a query adds to the tally of what follows. -/
theorem tally_append : tally n (rs ++ rs') as = tally n rs [] + tally n rs' as := by
  unfold tally
  rw [List.countP_append, List.countP_nil, List.countP_nil]
  omega

theorem tally_asked : tally n rs (a :: as) =
    within a.query.place.first (a.query.place.first + 1) n +
      within a.search a.query.place.past n + tally n rs as := by
  unfold tally within
  simp only [List.countP_cons, Asked.begins, Asked.skips, Bool.and_eq_true, decide_eq_true_eq,
    beq_iff_eq]
  have heq : a.query.place.first ≤ n ∧ n < a.query.place.first + 1 ↔ a.query.place.first = n := by
    omega
  simp only [heq]
  omega

theorem tally_leftovers (h : r.cause.code.isOfLeftovers = true) :
    tally n (r :: rs) as = within r.place.first r.place.past n + tally n rs as := by
  unfold tally within
  simp only [List.countP_cons, Report.takes, h, Bool.true_and, Bool.and_eq_true, decide_eq_true_eq]
  omega

theorem tally_other (h : r.cause.code.isOfLeftovers = false) :
    tally n (r :: rs) as = tally n rs as := by
  unfold tally
  simp [Report.takes, h]

end Tally

theorem Cause.InPassing.isOfLeftovers {ρ : Type} {cause : Cause ρ} (h : cause.InPassing) :
    cause.code.isOfLeftovers = false := by
  have hquotes := cause.quotes_code.trans h.not_quotes
  exact (Bool.or_eq_false_iff.mp hquotes).2

section Steps

variable {w : List Terminal} {i : Input} {n m : Nat}

/-- No keyword is passed with a terminal that is none. -/
theorem Input.In.within_next (hi : i.In w) (hkeyword : keywordAt w n = true)
    (hkind : i.kind.isAvailability = false) :
    within i.next.position m n = within i.position m n := by
  have hne : n ≠ i.position := by
    rintro rfl
    rw [hi.keywordAt_eq, hkind] at hkeyword
    exact Bool.false_ne_true hkeyword
  by_cases hrest : i.rest = []
  · unfold Input.next
    rw [hrest]
  · rw [Input.position_next hrest]
    unfold within
    split <;> split <;> omega

theorem Input.position_next_of_isAvailability (h : i.kind.isAvailability = true) :
    i.next.position = i.position + 1 :=
  Input.position_next (Input.rest_ne_nil_of_isAvailability h)

/-- A quotation passes no keyword unless it is of leftovers. -/
theorem Report.QuotesNext.tally_eq {r : Report Run} {rs : List (Report Run)} {as : List Asked}
    (h : r.QuotesNext i m) (hi : i.In w) (hkeyword : keywordAt w n = true) :
    tally n (r :: rs) as = within i.position (i.position + m) n + tally n rs as := by
  cases h with
  | invalid hkind =>
    have hnone := hi.within_next (m := i.position + 1) hkeyword (by rw [hkind]; rfl)
    rw [Input.position_next (Input.rest_ne_nil_of_kind (by rw [hkind]; nofun)), within_self] at hnone
    rw [← hnone, Nat.zero_add]
    exact tally_other rfl
  | @stray c => exact tally_leftovers (by cases c <;> rfl)
  | @captured c => exact tally_leftovers (by cases c <;> rfl)

end Steps

namespace Course

variable {w : List Terminal} {i j : Input} {rs : List (Report Run)} {as : List Asked} {n : Nat}

/-- **Each keyword that is passed counts once.**  The induction is on the course; the four steps that
take a terminal each add the range that they pass. -/
theorem tally_eq (h : Course i rs as j) (hi : i.In w) (hkeyword : keywordAt w n = true) :
    tally n rs as = within i.position j.position n := by
  induction h with
  | nil => exact within_self.symm
  | read hkind _ ih => rw [ih hi.next, hi.within_next hkeyword hkind]
  | remark hcause _ _ ih => rw [tally_other hcause.isOfLeftovers, ih hi]
  | @quote i j m r rs as hr hrest ih =>
    rw [hr.tally_eq hi hkeyword, ih (hi.skip m)]
    exact within_add (Nat.le_add_right _ _) hrest.ahead.position_le
  | @query i k j q rs rs' as hkind _ hplace hinner hrest ihinner ih =>
    have hnext := Input.position_next_of_isAvailability hkind
    have hle : i.position + 1 ≤ k.position := hnext ▸ hinner.ahead.position_le
    have hle' := hrest.ahead.position_le
    rw [tally_asked, tally_append, ihinner hi.next, ih (hi.next.ahead hinner.ahead), hplace, hnext,
      within_self, within_add hle hle']
    exact within_add (Nat.le_succ _) (Nat.le_trans hle hle')
  | @search i k j m q rs rs' as hkind hopen _ hplace hstatus hm hinner hrest ihinner ih =>
    have hnext := Input.position_next_of_isAvailability hkind
    have hk : k.In w := hi.next.next.ahead hinner.ahead
    have hskip : within k.position (k.skip m).position n + _ = within k.position j.position n :=
      within_add (Nat.le_add_right _ _) hrest.ahead.position_le
    have hopen' := hi.next.within_next (m := k.position) hkeyword (by rw [hopen]; rfl)
    have hle : i.position + 1 ≤ k.position :=
      hnext ▸ (i.next.ahead_next.trans hinner.ahead).position_le
    have hle' := (Input.ahead_skip hm).trans hrest.ahead |>.position_le
    rw [tally_asked, tally_append, ihinner hi.next.next, tally_other rfl, ih (hk.skip m), hplace,
      hopen', hnext]
    have hsum := within_add (n := n) (Nat.le_add_right i.position 1) (Nat.le_trans hle hle')
    have hsum' := within_add (n := n) hle hle'
    change within i.position (i.position + 1) n + within k.position (k.skip m).position n + _ = _
    omega

end Course

/-! ## 2. Queries and what is reported about them -/

/-- The report that the query is not closed. -/
def Asked.unclosed (a : Asked) : Report Run :=
  ⟨.unclosed .availability (Run.token (a.query.place.first + 1)), Run.token a.search⟩

/-- A query between two indexes that begins with a keyword.  Where terminals were skipped behind it,
it is incomplete and reported not to be closed. -/
structure Asked.Placed (w : List Terminal) (rs : List (Report Run)) (lo hi : Nat) (a : Asked) :
    Prop where
  keyword : keywordAt w a.query.place.first = true
  lower : lo ≤ a.query.place.first
  solid : a.query.place.first < a.search
  inside : a.search ≤ a.query.place.past
  upper : a.query.place.past ≤ hi
  skips : a.search < a.query.place.past →
    a.query.status = .incomplete ∧ a.unclosed ∈ rs ∧ a.query.place.first + 1 < a.query.place.past

theorem Asked.Placed.mono {w : List Terminal} {rs rs' : List (Report Run)} {lo lo' hi hi' : Nat}
    {a : Asked} (h : a.Placed w rs lo hi) (hrs : rs ⊆ rs') (hlo : lo' ≤ lo) (hhi : hi ≤ hi') :
    a.Placed w rs' lo' hi' where
  keyword := h.keyword
  lower := Nat.le_trans hlo h.lower
  solid := h.solid
  inside := h.inside
  upper := Nat.le_trans h.upper hhi
  skips hlt := by
    obtain ⟨hstatus, hr, hopener⟩ := h.skips hlt
    exact ⟨hstatus, hrs hr, hopener⟩

section Asked

variable {w : List Terminal} {i k : Input} {q : Query Run} {rs : List (Report Run)}

/-- A query that begins with the next terminal. -/
theorem Asked.placed_of {search past stop : Nat} (hi : i.In w) (hkind : i.kind.isAvailability = true)
    (hplace : q.place = ⟨i.position, past⟩) (hsolid : i.position < search) (hinside : search ≤ past)
    (hupper : past ≤ stop)
    (hskips : search < past →
      q.status = .incomplete ∧ (Asked.mk q search).unclosed ∈ rs ∧ i.position + 1 < past) :
    (Asked.mk q search).Placed w rs i.position stop := by
  obtain ⟨entries, negated, status, place⟩ := q
  obtain rfl : place = _ := hplace
  exact ⟨hi.keywordAt_eq.trans hkind, Nat.le_refl _, hsolid, hinside, hupper, hskips⟩

/-- What is reported where a query is not closed, said of the query. -/
theorem Asked.unclosed_eq {n : Nat} (hkind : i.kind.isAvailability = true)
    (hplace : q.place = ⟨i.position, k.position + n⟩) :
    (Asked.mk q k.position).unclosed =
      ⟨.unclosed .availability (Run.token i.next.position), Run.token k.position⟩ := by
  rw [unclosed, Input.position_next_of_isAvailability hkind, hplace]

/-- The keyword of a query and its parenthesis take two indexes. -/
theorem Input.Ahead.lt_of_opener (h : i.next.next.Ahead k) (hkind : i.kind.isAvailability = true)
    (hopen : i.next.kind = .fixed .lparen) : i.position + 1 < k.position := by
  have hnext := Input.position_next_of_isAvailability hkind
  have hle := h.position_le
  rw [Input.position_next (Input.rest_ne_nil_of_kind (by rw [hopen]; nofun))] at hle
  omega

end Asked

namespace Course

variable {w : List Terminal} {i j : Input} {rs : List (Report Run)} {as : List Asked}

theorem placed (h : Course i rs as j) (hi : i.In w) :
    ∀ a ∈ as, a.Placed w rs i.position j.position := by
  induction h with
  | nil => exact fun a ha => absurd ha List.not_mem_nil
  | @read i j rs as _ _ ih =>
    intro a ha
    exact (ih hi.next a ha).mono (List.Subset.refl _) i.ahead_next.position_le (Nat.le_refl _)
  | remark _ _ _ ih =>
    intro a ha
    exact (ih hi a ha).mono (List.subset_cons_self _ _) (Nat.le_refl _) (Nat.le_refl _)
  | @quote i j m r rs as _ _ ih =>
    intro a ha
    exact (ih (hi.skip m) a ha).mono (List.subset_cons_self _ _) (Nat.le_add_right _ _)
      (Nat.le_refl _)
  | @query i k j q rs rs' as hkind _ hplace hinner hrest _ ih =>
    have hnext := Input.position_next_of_isAvailability hkind
    have hlt : i.position + 1 ≤ k.position := hnext ▸ hinner.ahead.position_le
    refine List.forall_mem_cons.mpr ⟨?_, fun a ha => ?_⟩
    · exact Asked.placed_of hi hkind hplace hlt (Nat.le_refl _) hrest.ahead.position_le
        fun hskips => absurd hskips (Nat.lt_irrefl _)
    · exact (ih (hi.next.ahead hinner.ahead) a ha).mono (List.subset_append_right _ _)
        (Nat.le_of_lt hlt) (Nat.le_refl _)
  | @search i k j m q rs rs' as hkind hopen _ hplace hstatus _ hinner hrest _ ih =>
    have hlt := hinner.ahead.lt_of_opener hkind hopen
    have hskip : k.position ≤ k.position + m := Nat.le_add_right _ _
    have hk : k.In w := hi.next.next.ahead hinner.ahead
    refine List.forall_mem_cons.mpr ⟨?_, fun a ha => ?_⟩
    · refine Asked.placed_of hi hkind hplace (Nat.lt_of_succ_lt hlt) hskip hrest.ahead.position_le
        fun _ => ⟨hstatus, ?_, Nat.lt_of_lt_of_le hlt hskip⟩
      rw [Asked.unclosed_eq hkind hplace]
      exact List.mem_append_right _ List.mem_cons_self
    · refine (ih (hk.skip m) a ha).mono (fun r hr => ?_) ?_ (Nat.le_refl _)
      · exact List.mem_append_right _ (List.mem_cons_of_mem _ hr)
      · exact Nat.le_trans (Nat.le_of_lt (Nat.lt_of_succ_lt hlt)) hskip

/-- The queries stand behind each other. -/
theorem apart (h : Course i rs as j) (hi : i.In w) :
    as.Pairwise fun a b => a.query.place.past ≤ b.query.place.first := by
  induction h with
  | nil => exact .nil
  | read _ _ ih => exact ih hi.next
  | remark _ _ _ ih => exact ih hi
  | @quote i j m _ _ _ _ _ ih => exact ih (hi.skip m)
  | query _ _ hplace hinner hrest _ ih =>
    have hk := hi.next.ahead hinner.ahead
    refine List.pairwise_cons.mpr ⟨fun a ha => ?_, ih hk⟩
    rw [hplace]
    exact (hrest.placed hk a ha).lower
  | @search i k j m _ _ _ _ _ _ _ hplace _ _ hinner hrest _ ih =>
    have hk : k.In w := hi.next.next.ahead hinner.ahead
    refine List.pairwise_cons.mpr ⟨fun a ha => ?_, ih (hk.skip m)⟩
    rw [hplace]
    exact (hrest.placed (hk.skip m) a ha).lower

/-- **Only a query that was read is reported not to be closed.** -/
theorem exists_asked (h : Course i rs as j) {r : Report Run} (hr : r ∈ rs) {opener : Run}
    (hcause : r.cause = .unclosed .availability opener) :
    ∃ a ∈ as, r = a.unclosed ∧ a.query.place.first + 1 < a.query.place.past := by
  induction h with
  | nil => exact absurd hr List.not_mem_nil
  | read _ _ ih => exact ih hr
  | remark hpassing _ _ ih =>
    rcases List.mem_cons.mp hr with rfl | hr
    · rw [hcause] at hpassing
      exact hpassing.elim
    · exact ih hr
  | quote hquotes _ ih =>
    rcases List.mem_cons.mp hr with rfl | hr
    · have hquoted := hquotes.quotes
      rw [hcause] at hquoted
      exact absurd hquoted nofun
    · exact ih hr
  | query _ _ _ _ _ ihinner ih =>
    rcases List.mem_append.mp hr with hr | hr
    · obtain ⟨a, ha, -⟩ := ihinner hr
      exact absurd ha List.not_mem_nil
    · obtain ⟨a, ha, heq⟩ := ih hr
      exact ⟨a, List.mem_cons_of_mem _ ha, heq⟩
  | @search i k j m q rs rs' as hkind hopen _ hplace _ _ hinner _ ihinner ih =>
    rcases List.mem_append.mp hr with hr | hr
    · obtain ⟨a, ha, -⟩ := ihinner hr
      exact absurd ha List.not_mem_nil
    · rcases List.mem_cons.mp hr with rfl | hr
      · have hlt := hinner.ahead.lt_of_opener hkind hopen
        refine ⟨⟨q, k.position⟩, List.mem_cons_self, (Asked.unclosed_eq hkind hplace).symm, ?_⟩
        rw [hplace]
        exact Nat.lt_of_lt_of_le hlt (Nat.le_add_right _ _)
      · obtain ⟨a, ha, heq⟩ := ih hr
        exact ⟨a, List.mem_cons_of_mem _ ha, heq⟩

end Course

end PlatformGate
