/-
# Spans begin and end between characters

Every token of a source, the end of file among them, begins and ends where one character ends and
the next begins; and the tokens begin in the order in which they stand.  So the span of a run of
tokens cuts a slice out of the source (`Run.cuts_locate`), and runs that stand behind each other have
spans that do (`Run.stop_locate_le`).
-/
import PlatformGate.Proofs.Token.Quoted

namespace PlatformGate

variable {source : String}

/-! ## 1. Boundaries -/

namespace Text

/-- So many bytes are the length of some first characters of the text. -/
def IsBoundary (text : String) (k : Nat) : Prop := ∃ ds, ds <+: text.toList ∧ k = byteLength ds

variable {text : String} {m n : Nat}

theorem IsBoundary.le (h : IsBoundary text n) : n ≤ byteLength text.toList := by
  obtain ⟨ds, ⟨more, hmore⟩, rfl⟩ := h
  rw [← hmore, byteLength_append]
  exact Nat.le_add_right _ _

/-- **Between two boundaries there is a slice.** -/
theorem IsBoundary.exists_slice (hm : IsBoundary text m) (hn : IsBoundary text n) (h : m ≤ n) :
    ∃ quoted, slice? text m n = some quoted := by
  obtain ⟨ds, hds, rfl⟩ := hm
  obtain ⟨es, hes, rfl⟩ := hn
  obtain ⟨kept, rfl⟩ := prefix_of_byteLength_le hds hes h
  exact ⟨_, slice?_between hes⟩

end Text

/-! ## 2. Tokens -/

/-- The span cuts a slice out of the text. -/
structure Span.Cuts (text : String) (p : Span) : Prop where
  ordered : p.start ≤ p.stop
  inside : p.stop ≤ Text.byteLength text.toList
  starts : Text.IsBoundary text p.start
  stops : Text.IsBoundary text p.stop

namespace Token

variable {t u : Token String}

theorem cuts_ofSource (ht : t ∈ ofSource source) : t.span.Cuts source := by
  have hend : Text.IsBoundary source (Text.byteLength source.toList) :=
    ⟨source.toList, List.prefix_refl _, rfl⟩
  obtain ⟨layout, heq⟩ := ofSource_eq_append_point source
  rw [heq] at ht
  rcases List.mem_append.mp ht with ht | ht
  · obtain ⟨ds, text, hspells⟩ := spells_beforeEnd ht
    have hsolid := (inOrder_beforeEnd source).solid t ht
    have hstop : Text.IsBoundary source t.span.stop := ⟨_, hspells.stands, hspells.stop⟩
    have hstart : Text.IsBoundary source t.span.start :=
      ⟨ds, (List.prefix_append ds text).trans hspells.stands, hspells.start⟩
    exact ⟨Nat.le_of_lt hsolid, hstop.le, hstart, hstop⟩
  · obtain rfl := List.mem_singleton.mp ht
    exact ⟨Nat.le_refl _, Nat.le_refl _, hend, hend⟩

/-- The tokens stand behind each other, and the end of file behind them all. -/
theorem apart_ofSource (source : String) :
    (ofSource source).Pairwise fun t u => t.span.stop ≤ u.span.start := by
  obtain ⟨layout, heq⟩ := ofSource_eq_append_point source
  have hin : ∀ t ∈ beforeEnd source, t ∈ ofSource source := fun t ht => (List.mem_filter.mp ht).1
  rw [heq]
  refine List.pairwise_append.mpr ⟨(inOrder_beforeEnd source).apart, List.pairwise_singleton _ _, ?_⟩
  intro t ht u hu
  obtain rfl := List.mem_singleton.mp hu
  exact (cuts_ofSource (hin t ht)).inside

theorem length_ofSource (source : String) :
    (ofSource source).length = (beforeEnd source).length + 1 := by
  rw [Terminal.length_ofSource, terminals_ofSource, List.length_map]

theorem getElem?_ofSource {n : Nat} (ht : (beforeEnd source)[n]? = some t) :
    (ofSource source)[n]? = some t := by
  obtain ⟨eof, heq, -⟩ := ofSource_eq_append source
  rw [heq, List.getElem?_append_left (List.getElem?_eq_some_iff.mp ht).1, ht]

theorem stop_le_start {i j : Nat} (ht : (ofSource source)[i]? = some t)
    (hu : (ofSource source)[j]? = some u) (hij : i < j) : t.span.stop ≤ u.span.start := by
  obtain ⟨hi, rfl⟩ := List.getElem?_eq_some_iff.mp ht
  obtain ⟨hj, rfl⟩ := List.getElem?_eq_some_iff.mp hu
  exact List.pairwise_iff_getElem.mp (apart_ofSource source) i j hi hj hij

theorem start_le_start {i j : Nat} (ht : (ofSource source)[i]? = some t)
    (hu : (ofSource source)[j]? = some u) (hij : i ≤ j) : t.span.start ≤ u.span.start := by
  rcases Nat.lt_or_eq_of_le hij with hlt | rfl
  · have hordered := (cuts_ofSource (List.mem_of_getElem? ht)).ordered
    exact Nat.le_trans hordered (stop_le_start ht hu hlt)
  · obtain rfl := Option.some.inj (ht.symm.trans hu)
    exact Nat.le_refl _

end Token

/-! ## 3. Runs -/

namespace Run

variable {r s : Run} {t u : Token String}

theorem start_locate (ht : (Token.ofSource source)[r.first]? = some t) :
    (r.locate source).start = t.span.start := by
  unfold locate toSpan
  simp only [List.getElem?_toArray, List.getElem?_map, ht, Option.map_some, Option.getD_some]
  split <;> rfl

theorem stop_locate (hlt : r.first < r.past) (hu : (Token.ofSource source)[r.past - 1]? = some u) :
    (r.locate source).stop = u.span.stop := by
  unfold locate toSpan
  simp [hlt, hu]

theorem stop_locate_point (h : ¬ r.first < r.past) :
    (r.locate source).stop = (r.locate source).start := by
  unfold locate toSpan
  simp [h, Span.point]

/-- **The span of a run cuts a slice out of the source.** -/
theorem cuts_locate (hfirst : r.first < (Token.ofSource source).length)
    (hpast : r.past ≤ (Token.ofSource source).length) : (r.locate source).Cuts source := by
  have ht := List.getElem?_eq_getElem hfirst
  have hcuts := Token.cuts_ofSource (List.mem_of_getElem? ht)
  have hstart := start_locate ht
  by_cases hlt : r.first < r.past
  · have hu := List.getElem?_eq_getElem (l := Token.ofSource source) (i := r.past - 1) (by omega)
    have hcuts' := Token.cuts_ofSource (List.mem_of_getElem? hu)
    have hle := Token.start_le_start ht hu (by omega)
    have hstop := stop_locate hlt hu
    refine ⟨?_, hstop ▸ hcuts'.inside, hstart ▸ hcuts.starts, hstop ▸ hcuts'.stops⟩
    rw [hstart, hstop]
    exact Nat.le_trans hle hcuts'.ordered
  · have hstop := (stop_locate_point hlt).trans hstart
    refine ⟨?_, ?_, hstart ▸ hcuts.starts, hstop ▸ hcuts.starts⟩
    · exact Nat.le_of_eq (hstart.trans hstop.symm)
    · rw [hstop]
      exact hcuts.starts.le

theorem Solid.exists_slice (h : r.Solid (Token.beforeEnd source).length) :
    ∃ text, Text.slice? source (r.locate source).start (r.locate source).stop = some text := by
  obtain ⟨hlt, hpast⟩ := h
  have hlength := Token.length_ofSource source
  have hcuts : (r.locate source).Cuts source := cuts_locate (by omega) (by omega)
  exact hcuts.starts.exists_slice hcuts.stops hcuts.ordered

/-- A run, also one at the end of file, begins no later than a token if its span does. -/
theorem start_locate_le_iff {n : Nat} (hr : r.first ≤ (Token.beforeEnd source).length)
    (ht : (Token.beforeEnd source)[n]? = some t) :
    (r.locate source).start ≤ t.span.start ↔ r.first ≤ n := by
  have hlength := Token.length_ofSource source
  have hu := List.getElem?_eq_getElem (l := Token.ofSource source) (i := r.first) (by omega)
  have ht' := Token.getElem?_ofSource ht
  rw [start_locate hu]
  refine ⟨fun hle => Nat.le_of_not_lt fun hlt => ?_, Token.start_le_start hu ht'⟩
  have hsolid := (Token.inOrder_beforeEnd source).solid t (List.mem_of_getElem? ht)
  have hstop := Token.stop_le_start ht' hu hlt
  omega

/-- **A run that begins where a token does begins with that token.** -/
theorem first_eq_of_start {n : Nat} (hr : r.first ≤ (Token.beforeEnd source).length)
    (ht : (Token.beforeEnd source)[n]? = some t) (h : (r.locate source).start = t.span.start) :
    r.first = n := by
  have hle := (start_locate_le_iff hr ht).mp (Nat.le_of_eq h)
  have hu := List.getElem?_eq_getElem
    (Nat.lt_of_le_of_lt hle (List.getElem?_eq_some_iff.mp ht).1)
  have hstart := start_locate (Token.getElem?_ofSource hu)
  have hge := ((Token.inOrder_beforeEnd source).le_iff ht hu).1.mp
    (Nat.le_of_eq (h.symm.trans hstart))
  exact Nat.le_antisymm hle hge

/-- **Runs that begin in order have spans that do.** -/
theorem start_locate_mono (h : r.first ≤ s.first) (hs : s.first < (Token.ofSource source).length) :
    (r.locate source).start ≤ (s.locate source).start := by
  have ht := List.getElem?_eq_getElem (Nat.lt_of_le_of_lt h hs)
  have hu := List.getElem?_eq_getElem hs
  rw [start_locate ht, start_locate hu]
  exact Token.start_le_start ht hu h

/-- **Runs behind each other have spans behind each other.** -/
theorem stop_locate_le (hle : r.first ≤ r.past) (hrs : r.past ≤ s.first)
    (hs : s.first < (Token.ofSource source).length) :
    (r.locate source).stop ≤ (s.locate source).start := by
  by_cases hlt : r.first < r.past
  · have hu := List.getElem?_eq_getElem (l := Token.ofSource source) (i := r.past - 1) (by omega)
    have ht := List.getElem?_eq_getElem hs
    rw [stop_locate hlt hu, start_locate ht]
    exact Token.stop_le_start hu ht (by omega)
  · rw [stop_locate_point hlt]
    exact start_locate_mono (Nat.le_trans hle hrs) hs

theorem Solid.stop_le_start (hr : r.Solid (Token.beforeEnd source).length)
    (hs : s.Solid (Token.beforeEnd source).length) (h : r.past ≤ s.first) :
    (r.locate source).stop ≤ (s.locate source).start := by
  have hlength := Token.length_ofSource source
  obtain ⟨hlt, hle⟩ := hs
  exact stop_locate_le (Nat.le_of_lt hr.1) h (by omega)

end Run

end PlatformGate
