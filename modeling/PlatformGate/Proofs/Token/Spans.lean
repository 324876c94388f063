/-
# The spans of tokens

Every token in front of the end of file covers something, and ends where the next begins or earlier.
So the tokens that a run covers can be told from its span (`Run.covers_locate_iff`).
-/
import PlatformGate.Proofs.Token.Kinds
import PlatformGate.Syntax.Run

namespace PlatformGate

/-! ## 1. Lexemes are not empty -/

theorem Text.byteLength_pos {cs : List Char} (h : cs ≠ []) : 0 < byteLength cs := by
  obtain ⟨c, cs, rfl⟩ := List.exists_cons_of_ne_nil h
  have hpos := c.utf8Size_pos
  rw [byteLength_cons]
  omega

namespace Lexeme

theorem text_ne_nil_of_mem_scanFrom {l : Lexeme} (shape : Shape) {taken : List Char}
    (h : taken ≠ []) (cs : List Char) (hl : l ∈ scanFrom shape taken cs) : l.text ≠ [] := by
  induction cs generalizing shape taken with
  | nil =>
    obtain rfl := List.mem_singleton.mp hl
    simpa using h
  | cons c cs ih =>
    rw [scanFrom] at hl
    cases hc : shape.extend? c with
    | some longer =>
      rw [hc] at hl
      exact ih longer (List.cons_ne_nil c taken) hl
    | none =>
      rw [hc] at hl
      rcases List.mem_cons.mp hl with rfl | hl
      · simpa using h
      · exact ih _ (List.cons_ne_nil c []) hl

theorem text_ne_nil_of_mem_scan {l : Lexeme} {cs : List Char} (h : l ∈ scan cs) : l.text ≠ [] := by
  cases cs with
  | nil => exact absurd h List.not_mem_nil
  | cons c cs => exact text_ne_nil_of_mem_scanFrom _ (List.cons_ne_nil c []) cs h

end Lexeme

/-! ## 2. Tokens in order -/

/-- The first span reaches at least as far as the second, to both sides. -/
def Span.covers (s t : Span) : Bool := decide (s.start ≤ t.start) && decide (t.stop ≤ s.stop)

theorem Span.covers_iff {s t : Span} : s.covers t = true ↔ s.start ≤ t.start ∧ t.stop ≤ s.stop := by
  simp [covers]

namespace Token

/-- The tokens of a source in front of the end of file. -/
def beforeEnd (source : String) : List (Token String) :=
  (ofSource source).filter fun t => t.kind != .endOfFile

theorem ofSource_eq_append (source : String) :
    ∃ t, ofSource source = beforeEnd source ++ [t] ∧ t.kind = .endOfFile := by
  obtain ⟨ts, t, heq, ht, hts⟩ := exists_ofSource source
  refine ⟨t, ?_, ht⟩
  have hfilter : ts.filter (fun t => t.kind != .endOfFile) = ts :=
    List.filter_eq_self.mpr fun u hu => bne_iff_ne.mpr (hts u hu)
  unfold beforeEnd
  rw [heq, List.filter_append, hfilter, List.filter_cons_of_neg (by simp [ht]), List.filter_nil,
    List.append_nil]

/-- What a reader sees are the tokens in front of the end of file. -/
theorem terminals_ofSource (source : String) :
    Terminal.ofTokens (ofSource source) = (beforeEnd source).map Terminal.ofToken := by
  obtain ⟨t, heq, ht⟩ := ofSource_eq_append source
  rw [heq, Terminal.ofTokens_append ht]
  intro u hu
  exact bne_iff_ne.mp (List.mem_filter.mp hu).2

/-- Tokens that stand behind each other, none of them empty. -/
structure InOrder {ν : Type} (ts : List (Token ν)) : Prop where
  apart : ts.Pairwise fun t u => t.span.stop ≤ u.span.start
  solid : ∀ t ∈ ts, t.span.start < t.span.stop

theorem inOrder_ofLexemes (ls : List Lexeme) (hls : ∀ l ∈ ls, l.text ≠ []) (offset : Nat)
    (pending : Layout) :
    let ts := (ofLexemes offset pending ls).filter fun t => t.kind != .endOfFile
    InOrder ts ∧ ∀ t ∈ ts, offset ≤ t.span.start := by
  induction ls generalizing offset pending with
  | nil => exact ⟨⟨.nil, by simp [ofLexemes]⟩, by simp [ofLexemes]⟩
  | cons l ls ih =>
    have hpos := Text.byteLength_pos (hls l List.mem_cons_self)
    have ih := ih (fun l' hl' => hls l' (List.mem_cons_of_mem l hl'))
    rw [ofLexemes]
    cases hmark : l.shape.mark? with
    | some mark =>
      obtain ⟨horder, hfrom⟩ := ih (offset + Text.byteLength l.text) (pending.union mark)
      refine ⟨horder, fun t ht => ?_⟩
      have := hfrom t ht
      omega
    | none =>
      obtain ⟨horder, hfrom⟩ := ih (offset + Text.byteLength l.text) Layout.none
      have hkind : (l.kind != .endOfFile) = true := bne_iff_ne.mpr l.kind_ne_endOfFile
      dsimp only
      rw [List.filter_cons_of_pos (by exact hkind)]
      refine ⟨⟨List.pairwise_cons.mpr ⟨hfrom, horder.apart⟩, ?_⟩, ?_⟩
      · intro t ht
        rcases List.mem_cons.mp ht with rfl | ht
        · exact Nat.lt_add_of_pos_right hpos
        · exact horder.solid t ht
      · intro t ht
        rcases List.mem_cons.mp ht with rfl | ht
        · exact Nat.le_refl _
        · have := hfrom t ht
          omega

/-- **The tokens of a source stand behind each other,** and none is empty. -/
theorem inOrder_beforeEnd (source : String) : InOrder (beforeEnd source) :=
  (inOrder_ofLexemes _ (fun _ => Lexeme.text_ne_nil_of_mem_scan) 0 Layout.atLineStart).1

section Indexed

variable {ν : Type} {ts : List (Token ν)} {i j : Nat} {t u : Token ν}

theorem InOrder.stop_le_start (h : InOrder ts) (ht : ts[i]? = some t) (hu : ts[j]? = some u)
    (hij : i < j) : t.span.stop ≤ u.span.start := by
  obtain ⟨hi, rfl⟩ := List.getElem?_eq_some_iff.mp ht
  obtain ⟨hj, rfl⟩ := List.getElem?_eq_some_iff.mp hu
  exact List.pairwise_iff_getElem.mp h.apart i j hi hj hij

theorem InOrder.lt (h : InOrder ts) (ht : ts[i]? = some t) (hu : ts[j]? = some u) (hij : i < j) :
    t.span.start < u.span.start ∧ t.span.stop < u.span.stop := by
  have ht' := h.solid t (List.mem_of_getElem? ht)
  have hu' := h.solid u (List.mem_of_getElem? hu)
  have hapart := h.stop_le_start ht hu hij
  omega

/-- Tokens begin and end in the order in which they stand. -/
theorem InOrder.le_iff (h : InOrder ts) (ht : ts[i]? = some t) (hu : ts[j]? = some u) :
    (t.span.start ≤ u.span.start ↔ i ≤ j) ∧ (t.span.stop ≤ u.span.stop ↔ i ≤ j) := by
  rcases Nat.lt_trichotomy i j with hlt | rfl | hlt
  · have := h.lt ht hu hlt
    omega
  · obtain rfl : t = u := Option.some.inj (ht.symm.trans hu)
    omega
  · have := h.lt hu ht hlt
    omega

end Indexed

end Token

/-! ## 3. Runs of tokens -/

/-- The run covers some of `n` tokens. -/
def Run.Solid (n : Nat) (r : Run) : Prop := r.first < r.past ∧ r.past ≤ n

/-- Where the runs of a source stand. -/
def Run.locate (source : String) (r : Run) : Span :=
  r.toSpan ((Token.ofSource source).map Token.span).toArray

section Located

variable {source : String} {r s : Run} {t u : Token String}

/-- A run begins with its first token and ends with its last. -/
theorem Run.locate_eq (hlt : r.first < r.past) (ht : (Token.beforeEnd source)[r.first]? = some t)
    (hu : (Token.beforeEnd source)[r.past - 1]? = some u) :
    r.locate source = ⟨t.span.start, u.span.stop⟩ := by
  obtain ⟨eof, heq, -⟩ := Token.ofSource_eq_append source
  have hfirst := List.getElem?_eq_some_iff.mp ht
  have hlast := List.getElem?_eq_some_iff.mp hu
  have ht' : (Token.ofSource source)[r.first]? = some t := by
    rw [heq, List.getElem?_append_left hfirst.1, ht]
  have hu' : (Token.ofSource source)[r.past - 1]? = some u := by
    rw [heq, List.getElem?_append_left hlast.1, hu]
  unfold locate toSpan
  simp [hlt, ht', hu']

theorem Run.Solid.exists_tokens (h : r.Solid (Token.beforeEnd source).length) :
    ∃ t u, (Token.beforeEnd source)[r.first]? = some t ∧
      (Token.beforeEnd source)[r.past - 1]? = some u ∧
      r.locate source = ⟨t.span.start, u.span.stop⟩ := by
  obtain ⟨hlt, hle⟩ := h
  have ht := List.getElem?_eq_getElem (l := Token.beforeEnd source) (i := r.first) (by omega)
  have hu := List.getElem?_eq_getElem (l := Token.beforeEnd source) (i := r.past - 1) (by omega)
  exact ⟨_, _, ht, hu, locate_eq hlt ht hu⟩

/-- The run of some tokens among those of a source, from the first to the last. -/
theorem Run.locate_split {head rest back : List (Token String)} {first : Token String}
    (h : Token.beforeEnd source = head ++ first :: (rest ++ back)) :
    let r : Run := ⟨head.length, head.length + (rest.length + 1)⟩
    r.Solid (Token.beforeEnd source).length ∧
      r.locate source = ⟨first.span.start, (rest.getLastD first).span.stop⟩ := by
  have hindex : ∀ n, (Token.beforeEnd source)[head.length + n]? = (first :: (rest ++ back))[n]? := by
    intro n
    rw [h, List.getElem?_append_right (Nat.le_add_right _ _), Nat.add_sub_cancel_left]
  have hlast : (Token.beforeEnd source)[head.length + rest.length]? =
      some (rest.getLastD first) := by
    rw [hindex, ← List.cons_append, List.getElem?_append_left (Nat.lt_succ_self _),
      List.getLastD_eq_getLast?, ← List.getLast?_cons, List.getLast?_eq_getElem?]
    rfl
  have hlt : head.length < head.length + (rest.length + 1) :=
    Nat.lt_add_of_pos_right (Nat.succ_pos _)
  exact ⟨⟨hlt, Nat.le_of_pred_lt (List.getElem?_eq_some_iff.mp hlast).1⟩,
    locate_eq hlt (hindex 0) hlast⟩

/-- A run that covers a token has a span that covers something. -/
theorem Run.Solid.start_lt_stop (h : r.Solid (Token.beforeEnd source).length) :
    (r.locate source).start < (r.locate source).stop := by
  obtain ⟨t, u, ht, hu, heq⟩ := h.exists_tokens
  have horder := Token.inOrder_beforeEnd source
  have hsolid := horder.solid t (List.mem_of_getElem? ht)
  have hlt := h.1
  have hle := (horder.le_iff ht hu).2.mpr (by omega)
  rw [heq]
  exact Nat.lt_of_lt_of_le hsolid hle

/-- **A span covers another exactly if its run does.** -/
theorem Run.covers_locate_iff (hr : r.Solid (Token.beforeEnd source).length)
    (hs : s.Solid (Token.beforeEnd source).length) :
    (s.locate source).covers (r.locate source) = true ↔ s.first ≤ r.first ∧ r.past ≤ s.past := by
  obtain ⟨t, u, ht, hu, heq⟩ := hr.exists_tokens
  obtain ⟨t', u', ht', hu', heq'⟩ := hs.exists_tokens
  have horder := Token.inOrder_beforeEnd source
  have hrlt := hr.1
  have hslt := hs.1
  rw [Span.covers_iff, heq, heq', (horder.le_iff ht' ht).1, (horder.le_iff hu hu').2]
  omega

end Located

end PlatformGate
