/-
# Runs that tile a stretch of a source

Runs tile a stretch when they stand behind each other, none is empty, and together they go from its
first terminal to its end.  What is tiled here are the rows of a block or of the top level: its
statements, and the leftovers that were reported between them.

A parser sees a stretch of the source and gives some of all reports.  `Whole.Part` is the view from
there: what was reported earlier lies in front of the stretch, and what is reported later lies
behind it.  So whether leftovers lie between two terminals can be asked of all reports
(`Whole.own`), and the answer is found where the two terminals were read.
-/
import PlatformGate.Proofs.Parse.Motion
import PlatformGate.Proofs.Parse.Places

namespace PlatformGate

/-! ## 1. Tiles -/

namespace Run

/-- Whether the first run is a part of the second. -/
def liesIn (r s : Run) : Bool := decide (s.first ≤ r.first) && decide (r.past ≤ s.past)

/-- Whether the run is a part of a stretch and of none of its statements. -/
def isOwn (p : Run) (stmts : List Run) (r : Run) : Bool :=
  r.liesIn p && stmts.all fun s => !r.liesIn s

/-- The runs stand behind each other from one index up to another, and none is empty. -/
def Tile : Nat → Nat → List Run → Prop
  | lo, hi, [] => lo = hi
  | lo, hi, r :: rs => r.first = lo ∧ r.first < r.past ∧ Tile r.past hi rs

variable {lo mid hi : Nat} {rs rs' : List Run}

theorem liesIn_iff {r s : Run} : r.liesIn s = true ↔ s.first ≤ r.first ∧ r.past ≤ s.past := by
  simp [liesIn]

theorem isOwn_iff {p r : Run} {stmts : List Run} :
    isOwn p stmts r = true ↔
      (p.first ≤ r.first ∧ r.past ≤ p.past) ∧
        ∀ s ∈ stmts, ¬ (s.first ≤ r.first ∧ r.past ≤ s.past) := by
  simp only [isOwn, Bool.and_eq_true, liesIn_iff, List.all_eq_true, Bool.not_eq_true',
    ← Bool.not_eq_true]

theorem tile_one (h : lo < hi) : Tile lo hi [⟨lo, hi⟩] := ⟨rfl, h, rfl⟩

theorem Tile.append (h : Tile lo mid rs) (h' : Tile mid hi rs') : Tile lo hi (rs ++ rs') := by
  induction rs generalizing lo with
  | nil =>
    obtain rfl : lo = mid := h
    exact h'
  | cons r rs ih =>
    obtain ⟨hfirst, hlt, hrest⟩ := h
    exact ⟨hfirst, hlt, ih hrest⟩

theorem Tile.le (h : Tile lo hi rs) : lo ≤ hi := by
  induction rs generalizing lo with
  | nil => exact Nat.le_of_eq h
  | cons r rs ih =>
    obtain ⟨hfirst, hlt, hrest⟩ := h
    have := ih hrest
    omega

/-- Tiles lie between the two indexes. -/
theorem Tile.bounds (h : Tile lo hi rs) :
    ∀ r ∈ rs, lo ≤ r.first ∧ r.first < r.past ∧ r.past ≤ hi := by
  induction rs generalizing lo with
  | nil =>
    intro r hr
    exact absurd hr (List.not_mem_nil)
  | cons s rs ih =>
    obtain ⟨hfirst, hlt, hrest⟩ := h
    have hle := hrest.le
    intro r hr
    rcases List.mem_cons.mp hr with rfl | hr
    · omega
    · have := ih hrest r hr
      omega

end Run

/-! ## 2. A source and all that was reported -/

/-- The terminals of a source and all reports about it, in order. -/
structure Whole where
  terminals : List Terminal
  reports : List (Report Run)

/-- If the report is about leftovers, they stand in front of the index. -/
def Report.InFront (n : Nat) (r : Report Run) : Prop :=
  ∀ c, r.cause = .leftover c → r.place.first < r.place.past ∧ r.place.past ≤ n

/-- If the report is about leftovers, they stand behind the index. -/
def Report.Behind (n : Nat) (r : Report Run) : Prop :=
  ∀ c, r.cause = .leftover c → r.place.first < r.place.past ∧ n ≤ r.place.first

theorem Report.Placed.leftover {lo hi : Nat} {r : Report Run} (h : r.Placed lo hi) {c : Construct}
    (hc : r.cause = .leftover c) :
    lo ≤ r.place.first ∧ r.place.first < r.place.past ∧ r.place.past ≤ hi := by
  obtain ⟨hlo, -, hplace⟩ := h
  rw [hc] at hplace
  exact ⟨hlo, hplace⟩

theorem Report.Placed.inFront {lo hi : Nat} {r : Report Run} (h : r.Placed lo hi) :
    r.InFront hi := by
  intro c hc
  have := h.leftover hc
  omega

theorem Report.Placed.behind {lo hi : Nat} {r : Report Run} (h : r.Placed lo hi) :
    r.Behind lo := by
  intro c hc
  have := h.leftover hc
  omega

theorem Report.InFront.mono {n m : Nat} {r : Report Run} (h : r.InFront n) (hle : n ≤ m) :
    r.InFront m := by
  intro c hc
  have := h c hc
  omega

theorem Report.Behind.mono {n m : Nat} {r : Report Run} (h : r.Behind n) (hle : m ≤ n) :
    r.Behind m := by
  intro c hc
  have := h c hc
  omega

namespace Whole

variable {w : Whole}

/-- The leftovers that were found in a construct. -/
def leftovers (w : Whole) (c : Construct) : List Run :=
  (w.reports.filter fun r => r.cause == .leftover c).map Report.place

/-- The leftovers in a stretch that are no part of the given statements. -/
def own (w : Whole) (c : Construct) (p : Run) (stmts : List Run) : List Run :=
  (w.leftovers c).filter (Run.isOwn p stmts)

/-- The statements and the leftovers between them tile the stretch. -/
def Tiled (w : Whole) (c : Construct) (p : Run) (stmts : List Run) : Prop :=
  ∃ tiles, tiles.Perm (stmts ++ w.own c p stmts) ∧ Run.Tile p.first p.past tiles

/-- A terminal with the given property stands at the index. -/
def At (w : Whole) (n : Nat) (P : Terminal → Prop) : Prop := ∃ t, w.terminals[n]? = some t ∧ P t

/-- The block that opens at `opener` and ends at `past` closes at `stop`: a `}` stands there, or the
source ends and the opening brace is reported. -/
def Closes (w : Whole) (opener stop past : Nat) : Prop :=
  past = stop + 1 ∧ w.At stop (fun t => t.kind = .fixed .rbrace) ∨
    past = stop ∧ stop = w.terminals.length ∧
      ∃ r ∈ w.reports, r.cause = .unclosed .block (Run.token opener)

/-- A block as it should be.  Between its braces the statements and the leftovers of the block tile
all there is, and each statement begins a line or follows the opening brace. -/
structure Braced (w : Whole) (stmts : List Run) (p : Run) : Prop where
  opens : w.At p.first fun t => t.kind = .fixed .lbrace
  inner : ∃ stop, w.Closes p.first stop p.past ∧
    ∃ tiles, tiles.Perm (stmts ++ w.own .block p stmts) ∧ Run.Tile (p.first + 1) stop tiles
  lines : ∀ s ∈ stmts, w.At s.first (fun t => t.lineStart = true) ∨ s.first = p.first + 1

/-- Leftovers do not cross the index. -/
def Cut (w : Whole) (n : Nat) : Prop := ∀ r ∈ w.reports, r.InFront n ∨ r.Behind n

theorem mem_leftovers {c : Construct} {p : Run} :
    p ∈ w.leftovers c ↔ ∃ r ∈ w.reports, r.cause = .leftover c ∧ r.place = p := by
  simp [leftovers, and_assoc]

/-! ## 3. A part of the whole -/

/-- The reports `rs` were given between `i` and `j`.  The ones before lie in front of `i`, and the
ones after behind `j`. -/
structure Part (w : Whole) (i : Input) (rs : List (Report Run)) (j : Input) : Prop where
  rest_eq : i.rest = w.terminals.drop i.position
  position_le : i.position ≤ w.terminals.length
  split : ∃ before behind, w.reports = before ++ (rs ++ behind) ∧
    (∀ r ∈ before, r.InFront i.position) ∧ ∀ r ∈ behind, r.Behind j.position

section Parts

variable {C C' : Cause Run → Prop} {i j k : Input} {rs rs' : List (Report Run)}

/-- The first half of a part. -/
theorem Part.left (h : w.Part i (rs ++ rs') k) (hrs' : Moves C j rs' k) : w.Part i rs j := by
  obtain ⟨before, behind, heq, hbefore, hbehind⟩ := h.split
  have hle := hrs'.ahead.position_le
  refine ⟨h.rest_eq, h.position_le, before, rs' ++ behind, ?_, hbefore, ?_⟩
  · rw [heq, List.append_assoc]
  · intro r hr
    rcases List.mem_append.mp hr with hr | hr
    · exact (hrs'.placed r hr).behind
    · exact (hbehind r hr).mono hle

/-- The second half of a part. -/
theorem Part.right (h : w.Part i (rs ++ rs') k) (hrs : Moves C i rs j) : w.Part j rs' k := by
  obtain ⟨before, behind, heq, hbefore, hbehind⟩ := h.split
  have hle := hrs.ahead.position_le
  have hstop := hrs.ahead.stop_eq
  obtain ⟨ts, hts, hposition⟩ := hrs.ahead
  constructor
  · have hdrop : j.rest = i.rest.drop ts.length := by rw [hts, List.drop_left]
    rw [hdrop, h.rest_eq, List.drop_drop, hposition]
  · have hlength := congrArg List.length h.rest_eq
    have hposition_le := h.position_le
    rw [List.length_drop] at hlength
    omega
  · refine ⟨before ++ rs, behind, ?_, ?_, hbehind⟩
    · rw [heq, List.append_assoc, List.append_assoc]
    · intro r hr
      rcases List.mem_append.mp hr with hr | hr
      · exact (hbefore r hr).mono hle
      · exact (hrs.placed r hr).inFront

/-- A part without what is read silently in front of it. -/
theorem Part.behind_ahead (h : w.Part i rs k) (hij : i.Ahead j) : w.Part j rs k :=
  have hsplit : w.Part i ([] ++ rs) k := h
  hsplit.right (.of_ahead (C := fun _ => True) hij)

/-- Leftovers do not cross the index where a part begins. -/
theorem Part.cut (h : w.Part i rs j) (hrs : Moves C i rs j) : w.Cut i.position := by
  obtain ⟨before, behind, heq, hbefore, hbehind⟩ := h.split
  have hle := hrs.ahead.position_le
  intro r hr
  rw [heq] at hr
  rcases List.mem_append.mp hr with hr | hr
  · exact .inl (hbefore r hr)
  · rcases List.mem_append.mp hr with hr | hr
    · exact .inr (hrs.placed r hr).behind
    · exact .inr ((hbehind r hr).mono hle)

theorem Part.mem (h : w.Part i rs j) {r : Report Run} (hr : r ∈ rs) : r ∈ w.reports := by
  obtain ⟨before, behind, heq, -, -⟩ := h.split
  rw [heq]
  exact List.mem_append_right _ (List.mem_append_left _ hr)

/-- **Leftovers between two terminals were reported where these were read.** -/
theorem Part.mem_of_liesIn (h : w.Part i rs j) {r : Report Run} (hr : r ∈ w.reports)
    {c : Construct} (hc : r.cause = .leftover c)
    (hin : r.place.liesIn ⟨i.position, j.position⟩ = true) : r ∈ rs := by
  obtain ⟨before, behind, heq, hbefore, hbehind⟩ := h.split
  obtain ⟨hlo, hhi⟩ := Run.liesIn_iff.mp hin
  have hlo : i.position ≤ r.place.first := hlo
  have hhi : r.place.past ≤ j.position := hhi
  rw [heq] at hr
  rcases List.mem_append.mp hr with hr | hr
  · have := hbefore r hr c hc
    omega
  · rcases List.mem_append.mp hr with hr | hr
    · exact hr
    · have := hbehind r hr c hc
      omega

/-! ## 4. Leftovers of a stretch -/

/-- Where no leftovers were reported there are none. -/
theorem Part.own_eq_nil (h : w.Part i rs j) {c : Construct}
    (hrs : ∀ r ∈ rs, r.cause ≠ .leftover c) (stmts : List Run) :
    w.own c ⟨i.position, j.position⟩ stmts = [] := by
  unfold own
  rw [List.filter_eq_nil_iff]
  intro p hp hin
  obtain ⟨r, hr, hc, rfl⟩ := mem_leftovers.mp hp
  exact hrs r (h.mem_of_liesIn hr hc (Bool.and_eq_true_iff.mp hin).1) hc

/-- No leftovers stand between one terminal and itself. -/
theorem own_point {n : Nat} (hcut : w.Cut n) (c : Construct) (stmts : List Run) :
    w.own c ⟨n, n⟩ stmts = [] := by
  unfold own
  rw [List.filter_eq_nil_iff]
  intro p hp hin
  obtain ⟨r, hr, hc, rfl⟩ := mem_leftovers.mp hp
  obtain ⟨hlo, hhi⟩ : n ≤ r.place.first ∧ r.place.past ≤ n := (Run.isOwn_iff.mp hin).1
  rcases hcut r hr with hfront | hbehind
  · have := hfront c hc
    omega
  · have := hbehind c hc
    omega

/-- A line begins where a part begins. -/
theorem Part.at_lineStart (h : w.Part i rs j) (hline : i.atLineStart = true) :
    w.At i.position fun t => t.lineStart = true := by
  unfold Input.atLineStart at hline
  rw [h.rest_eq, List.head?_drop] at hline
  unfold At
  cases hget : w.terminals[i.position]? with
  | none =>
    rw [hget] at hline
    exact absurd hline (by decide)
  | some t =>
    rw [hget] at hline
    exact ⟨t, rfl, hline⟩

/-- The kind of the terminal where a part begins. -/
theorem Part.at_kind (h : w.Part i rs j) (hne : i.rest ≠ []) :
    w.At i.position fun t => t.kind = i.kind := by
  obtain ⟨t, ts, hts⟩ := List.exists_cons_of_ne_nil hne
  refine ⟨t, ?_, (Input.kind_eq_head hts).symm⟩
  rw [← List.head?_drop, ← h.rest_eq, hts]
  rfl

/-- Where nothing is left the source ends. -/
theorem Part.position_eq (h : w.Part i rs j) (hnil : i.rest = []) :
    i.position = w.terminals.length := by
  have hle := h.position_le
  have hdrop := h.rest_eq
  rw [hnil] at hdrop
  exact Nat.le_antisymm hle (List.drop_eq_nil_iff.mp hdrop.symm)

/-- In front of a stretch and behind it there are no leftovers of the stretch. -/
theorem filter_isOwn_eq_nil {c : Construct} {lo hi : Nat} {stmts : List Run}
    (hrs : ∀ r ∈ rs, r.InFront lo ∨ r.Behind hi) :
    ((rs.filter fun r => r.cause == .leftover c).map Report.place).filter
      (Run.isOwn ⟨lo, hi⟩ stmts) = [] := by
  rw [List.filter_eq_nil_iff]
  intro p hp hin
  obtain ⟨r, hr, rfl⟩ := List.mem_map.mp hp
  obtain ⟨hr, hc⟩ := List.mem_filter.mp hr
  obtain ⟨hlo, hhi⟩ : lo ≤ r.place.first ∧ r.place.past ≤ hi := (Run.isOwn_iff.mp hin).1
  rcases hrs r hr with hfront | hbehind
  · have := hfront c (beq_iff_eq.mp hc)
    omega
  · have := hbehind c (beq_iff_eq.mp hc)
    omega

/-- Leftovers that take up a stretch are its only leftovers. -/
theorem Part.own_leftover {c : Construct}
    (h : w.Part i [⟨.leftover c, ⟨i.position, j.position⟩⟩] j) :
    w.own c ⟨i.position, j.position⟩ [] = [⟨i.position, j.position⟩] := by
  obtain ⟨before, behind, heq, hbefore, hbehind⟩ := h.split
  unfold own leftovers
  rw [heq]
  simp only [List.filter_append, List.map_append]
  rw [filter_isOwn_eq_nil fun r hr => .inl (hbefore r hr),
    filter_isOwn_eq_nil fun r hr => .inr (hbehind r hr)]
  simp [Run.isOwn, Run.liesIn]

end Parts

/-- A list filtered by a condition that holds in one of two ways. -/
theorem filter_perm_append {α : Type} {p q q' : α → Bool} (l : List α)
    (h : ∀ x ∈ l, (p x = true ↔ q x = true) ∧ ¬ q' x = true ∨
      ¬ q x = true ∧ (p x = true ↔ q' x = true)) :
    (l.filter p).Perm (l.filter q ++ l.filter q') := by
  induction l with
  | nil => exact .refl _
  | cons x l ih =>
    have ih := ih fun y hy => h y (List.mem_cons_of_mem x hy)
    simp only [List.filter_cons]
    rcases h x List.mem_cons_self with ⟨hq, hq'⟩ | ⟨hq, hq'⟩
    · by_cases hp : p x = true
      · rw [if_pos hp, if_pos (hq.mp hp), if_neg hq']
        exact ih.cons x
      · rw [if_neg hp, if_neg fun hx => hp (hq.mpr hx), if_neg hq']
        exact ih
    · by_cases hp : p x = true
      · rw [if_pos hp, if_neg hq, if_pos (hq'.mp hp)]
        exact (ih.cons x).trans List.perm_middle.symm
      · rw [if_neg hp, if_neg hq, if_neg fun hx => hp (hq'.mpr hx)]
        exact ih

/-- **At a cut the leftovers of a stretch fall in two.** -/
theorem own_append {lo mid hi : Nat} (hcut : w.Cut mid) (hlo : lo ≤ mid) (hhi : mid ≤ hi)
    (c : Construct) (ss ss' : List Run) (hss : ∀ s ∈ ss, s.past ≤ mid)
    (hss' : ∀ s ∈ ss', mid ≤ s.first) :
    (w.own c ⟨lo, hi⟩ (ss ++ ss')).Perm (w.own c ⟨lo, mid⟩ ss ++ w.own c ⟨mid, hi⟩ ss') := by
  apply filter_perm_append
  intro p hp
  obtain ⟨r, hr, hc, rfl⟩ := mem_leftovers.mp hp
  simp only [Run.isOwn_iff, List.mem_append]
  rcases hcut r hr with hfront | hbehind
  · left
    have hplace := hfront c hc
    constructor
    · constructor
      · rintro ⟨hin, hout⟩
        exact ⟨by omega, fun s hs => hout s (.inl hs)⟩
      · rintro ⟨hin, hout⟩
        refine ⟨by omega, ?_⟩
        rintro s (hs | hs)
        · exact hout s hs
        · have := hss' s hs
          omega
    · rintro ⟨hin, -⟩
      omega
  · right
    have hplace := hbehind c hc
    constructor
    · rintro ⟨hin, -⟩
      omega
    · constructor
      · rintro ⟨hin, hout⟩
        exact ⟨by omega, fun s hs => hout s (.inr hs)⟩
      · rintro ⟨hin, hout⟩
        refine ⟨by omega, ?_⟩
        rintro s (hs | hs)
        · have := hss s hs
          omega
        · exact hout s hs

/-- Where nothing is left over at both ends of a stretch, all leftovers are between the ends. -/
theorem own_inner {lo mid stop hi : Nat} (hmid : w.Cut mid) (hstop : w.Cut stop) (hlo : lo ≤ mid)
    (hle : mid ≤ stop) (hhi : stop ≤ hi) {c : Construct} {ss : List Run}
    (hss : ∀ s ∈ ss, mid ≤ s.first ∧ s.past ≤ stop) (hfront : w.own c ⟨lo, mid⟩ [] = [])
    (hback : w.own c ⟨stop, hi⟩ [] = []) :
    (w.own c ⟨lo, hi⟩ ss).Perm (w.own c ⟨mid, stop⟩ ss) := by
  have h := own_append hmid hlo (Nat.le_trans hle hhi) c [] ss (by simp)
    fun s hs => (hss s hs).1
  have h' := own_append hstop hle hhi c ss [] (fun s hs => (hss s hs).2) (by simp)
  rw [List.nil_append, hfront, List.nil_append] at h
  rw [List.append_nil, hback, List.append_nil] at h'
  exact h.trans h'

/-! ## 5. Tiled stretches -/

section Stretches

variable {i j : Input} {c : Construct}

/-- Where nothing is read there is nothing to tile. -/
theorem Part.tiled_nil (h : w.Part i [] i) : w.Tiled c ⟨i.position, i.position⟩ [] := by
  refine ⟨[], ?_, rfl⟩
  rw [h.own_eq_nil (by simp)]
  exact .refl _

/-- Leftovers tile what they take. -/
theorem Part.tiled_leftover (h : w.Part i [⟨.leftover c, ⟨i.position, j.position⟩⟩] j)
    (hlt : i.position < j.position) : w.Tiled c ⟨i.position, j.position⟩ [] := by
  refine ⟨[⟨i.position, j.position⟩], ?_, Run.tile_one hlt⟩
  rw [h.own_leftover]
  exact .refl _

/-- A statement tiles what it takes.  Whatever was reported inside is a part of it. -/
theorem tiled_stmt {lo hi : Nat} (hlt : lo < hi) : w.Tiled c ⟨lo, hi⟩ [⟨lo, hi⟩] := by
  have hown : w.own c ⟨lo, hi⟩ [⟨lo, hi⟩] = [] := by
    unfold own
    rw [List.filter_eq_nil_iff]
    intro r _ hr
    obtain ⟨hin, hout⟩ := Run.isOwn_iff.mp hr
    exact hout _ (List.mem_singleton_self _) hin
  refine ⟨[⟨lo, hi⟩], ?_, Run.tile_one hlt⟩
  rw [hown]
  exact .refl _

end Stretches

/-- Two tiled stretches, one behind the other. -/
theorem Tiled.append {c : Construct} {lo mid hi : Nat} {ss ss' : List Run}
    (h : w.Tiled c ⟨lo, mid⟩ ss) (h' : w.Tiled c ⟨mid, hi⟩ ss') (hcut : w.Cut mid) :
    w.Tiled c ⟨lo, hi⟩ (ss ++ ss') := by
  obtain ⟨tiles, hperm, htile⟩ := h
  obtain ⟨tiles', hperm', htile'⟩ := h'
  have hss : ∀ s ∈ ss, s.past ≤ mid := by
    intro s hs
    exact (htile.bounds s (hperm.mem_iff.mpr (List.mem_append_left _ hs))).2.2
  have hss' : ∀ s ∈ ss', mid ≤ s.first := by
    intro s hs
    exact (htile'.bounds s (hperm'.mem_iff.mpr (List.mem_append_left _ hs))).1
  refine ⟨tiles ++ tiles', ?_, htile.append htile'⟩
  have hown := own_append hcut htile.le htile'.le c _ _ hss hss'
  have hall := hperm.append hperm'
  have hswap := (List.perm_append_comm_assoc (w.own c ⟨lo, mid⟩ ss) ss'
    (w.own c ⟨mid, hi⟩ ss')).append_left ss
  rw [List.append_assoc] at hall
  rw [List.append_assoc]
  exact hall.trans (hswap.trans ((hown.symm.append_left ss').append_left ss))

end Whole

end PlatformGate
