/-
# A text below another

No lexeme goes on over a line break.  So of two texts with a newline between them, the tokens are
those of the first without its end of file, and those of the second further on
(`Token.ofSource_below`).  All that the first text changes in the second is what stands in front of
its first token: a newline now does.
-/
import PlatformGate.Proofs.Token.Spans
import PlatformGate.Proofs.Writing.Cuts

namespace PlatformGate

/-! ## 1. Lexemes -/

theorem Fixed.newline_not_mem_spelling (f : Fixed) : '\n' ∉ f.spelling.toList := by
  cases f <;> decide

/-- Every lexeme ends in front of a newline. -/
theorem Shape.extend?_newline (s : Shape) : s.extend? '\n' = none := by
  cases s with
  | single b =>
    have hnone : Fixed.ofSpelling? (String.ofList [b, '\n']) = none := by
      cases hf : Fixed.ofSpelling? (String.ofList [b, '\n']) with
      | none => rfl
      | some f =>
        have hspelling := Fixed.ofSpelling?_eq_some_iff.mp hf
        apply absurd _ f.newline_not_mem_spelling
        rw [hspelling, String.toList_ofList]
        exact List.mem_cons_of_mem b (List.mem_singleton_self _)
    have hslash : (b == '/' && '\n' == '/') = false := Bool.and_false _
    simp only [extend?, hslash, hnone, Option.isSome_none, Bool.false_eq_true, if_false]
  | _ => rfl

namespace Lexeme

theorem scanFrom_below (shape : Shape) (taken cs ds : List Char) :
    scanFrom shape taken (cs ++ '\n' :: ds) = scanFrom shape taken cs ++ scan ('\n' :: ds) := by
  induction cs generalizing shape taken with
  | nil =>
    rw [List.nil_append, scanFrom, scanFrom, shape.extend?_newline]
    rfl
  | cons c cs ih =>
    rw [List.cons_append, scanFrom, scanFrom]
    cases shape.extend? c with
    | some longer => exact ih longer (c :: taken)
    | none => exact congrArg (⟨shape, taken.reverse⟩ :: ·) (ih _ [c])

/-- **Two texts with a newline between them are cut one by one.** -/
theorem scan_below (cs ds : List Char) :
    scan (cs ++ '\n' :: ds) = scan cs ++ ⟨.newline, ['\n']⟩ :: scan ds := by
  rw [← scan_newline]
  cases cs with
  | nil => rfl
  | cons c cs => exact scanFrom_below _ [c] cs ds

end Lexeme

/-! ## 2. Tokens -/

/-- The span further on by some bytes. -/
def Span.shift (k : Nat) (s : Span) : Span := ⟨s.start + k, s.stop + k⟩

namespace Token

/-- The token further on by some bytes. -/
def shift {ν : Type} (k : Nat) (t : Token ν) : Token ν := { t with span := t.span.shift k }

theorem ofLexemes_shift (k offset : Nat) (pending : Layout) (ls : List Lexeme) :
    ofLexemes (offset + k) pending ls = (ofLexemes offset pending ls).map (shift k) := by
  induction ls generalizing offset pending with
  | nil => rfl
  | cons l ls ih =>
    have hstop : offset + k + Text.byteLength l.text = offset + Text.byteLength l.text + k := by
      omega
    rw [ofLexemes, ofLexemes]
    cases l.shape.mark? with
    | some mark =>
      dsimp only
      rw [hstop, ih]
    | none =>
      dsimp only
      rw [hstop, ih, List.map_cons]
      rfl

/-- The tokens of lexemes and more lexemes.  Those behind begin where the end of file was. -/
theorem ofLexemes_append (offset : Nat) (pending : Layout) (ls : List Lexeme) :
    ∃ ts left, ofLexemes offset pending ls =
        ts ++ [⟨.endOfFile, Span.point (offset + Text.byteLength (ls.flatMap Lexeme.text)), left⟩] ∧
      ∀ ms, ofLexemes offset pending (ls ++ ms) =
        ts ++ ofLexemes (offset + Text.byteLength (ls.flatMap Lexeme.text)) left ms := by
  induction ls generalizing offset pending with
  | nil => exact ⟨[], pending, rfl, fun _ => rfl⟩
  | cons l ls ih =>
    have hstop : offset + Text.byteLength ((l :: ls).flatMap Lexeme.text) =
        offset + Text.byteLength l.text + Text.byteLength (ls.flatMap Lexeme.text) := by
      rw [List.flatMap_cons, Text.byteLength_append, Nat.add_assoc]
    rw [hstop, ofLexemes]
    cases hmark : l.shape.mark? with
    | some mark =>
      obtain ⟨ts, left, heq, happend⟩ := ih (offset + Text.byteLength l.text) (pending.union mark)
      refine ⟨ts, left, heq, fun ms => ?_⟩
      rw [List.cons_append, ofLexemes, hmark]
      exact happend ms
    | none =>
      obtain ⟨ts, left, heq, happend⟩ := ih (offset + Text.byteLength l.text) Layout.none
      dsimp only
      rw [heq]
      refine ⟨_ :: ts, left, rfl, fun ms => ?_⟩
      rw [List.cons_append, ofLexemes, hmark]
      exact congrArg (_ :: ·) (happend ms)

/-- What is pending changes only the layout of the first token. -/
theorem ofLexemes_pending (offset : Nat) (p q : Layout) (ls : List Lexeme)
    (hp : p.lineStart = true) (hq : q.lineStart = true) :
    ∃ t u ts, ofLexemes offset p ls = t :: ts ∧ ofLexemes offset q ls = u :: ts ∧
      u.kind = t.kind ∧ u.span = t.span ∧
      t.layout.lineStart = true ∧ u.layout.lineStart = true := by
  induction ls generalizing offset p q with
  | nil => exact ⟨_, _, [], rfl, rfl, rfl, rfl, hp, hq⟩
  | cons l ls ih =>
    rw [ofLexemes, ofLexemes]
    cases l.shape.mark? with
    | some mark =>
      apply ih
      · simp [Layout.union, hp]
      · simp [Layout.union, hq]
    | none => exact ⟨_, _, _, rfl, rfl, rfl, rfl, hp, hq⟩

/-- **The tokens of a text below another** are those of the first, without its end of file, and
those of the second further on.  In front of the second stands a newline. -/
theorem ofSource_below (before after : String) :
    ∃ t u us, ofSource after = t :: us ∧
      ofSource (before ++ "\n" ++ after) =
        beforeEnd before ++ u :: us.map (shift (Text.byteLength before.toList + 1)) ∧
      u.kind = t.kind ∧ u.span = t.span.shift (Text.byteLength before.toList + 1) ∧
      t.layout.lineStart = true ∧ u.layout.lineStart = true := by
  obtain ⟨ts, left, heq, happend⟩ :=
    ofLexemes_append 0 Layout.atLineStart (Lexeme.scan before.toList)
  rw [Lexeme.flatMap_text_scan, Nat.zero_add] at heq happend
  have hbefore : beforeEnd before = ts := by
    obtain ⟨eof, hsource, -⟩ := ofSource_eq_append before
    unfold ofSource at hsource
    exact (List.append_inj_left' (heq.symm.trans hsource) rfl).symm
  have hchars : (before ++ "\n" ++ after).toList = before.toList ++ '\n' :: after.toList := by
    rw [String.toList_append, String.toList_append, List.append_assoc]
    rfl
  have hbehind := happend (⟨.newline, ['\n']⟩ :: Lexeme.scan after.toList)
  rw [ofLexemes] at hbehind
  have hshift := ofLexemes_shift (Text.byteLength before.toList + 1) 0 Layout.atLineStart
    (Lexeme.scan after.toList)
  obtain ⟨t, u, us, ht, hu, hkind, hspan, hline, hline'⟩ :=
    ofLexemes_pending (Text.byteLength before.toList + 1) Layout.atLineStart
      (left.union { newline := true, lineStart := true }) (Lexeme.scan after.toList) rfl
      (by simp [Layout.union])
  rw [Nat.zero_add, ht] at hshift
  obtain ⟨first, rest, hafter, rfl, rfl⟩ := List.map_eq_cons_iff.mp hshift.symm
  refine ⟨first, u, rest, hafter, ?_, hkind, hspan, hline, hline'⟩
  unfold ofSource
  rw [hchars, Lexeme.scan_below, hbehind, hbefore]
  exact congrArg (ts ++ ·) hu

/-- The spans of a text below another. -/
theorem spans_below (before after : String) :
    (ofSource (before ++ "\n" ++ after)).map span = (beforeEnd before).map span ++
      ((ofSource after).map span).map (Span.shift (Text.byteLength before.toList + 1)) := by
  obtain ⟨t, u, us, hafter, hjoined, -, hspan, -⟩ := ofSource_below before after
  rw [hjoined, hafter, List.map_append, List.map_cons, List.map_cons, List.map_cons, hspan,
    List.map_map, List.map_map]
  rfl

end Token

namespace Terminal

theorem ofTokens_cons {t : Token String} (h : t.kind ≠ .endOfFile) (ts : List (Token String)) :
    ofTokens (t :: ts) = ofToken t :: ofTokens ts := by
  have hkind : (t.kind != .endOfFile) = true := bne_iff_ne.mpr h
  simp [ofTokens, hkind]

theorem ofTokens_shift (k : Nat) (ts : List (Token String)) :
    ofTokens (ts.map (Token.shift k)) = ofTokens ts := by
  unfold ofTokens
  rw [List.takeWhile_map, List.map_map]
  rfl

theorem ofTokens_beforeEnd_append (source : String) (ts : List (Token String)) :
    ofTokens (Token.beforeEnd source ++ ts) = ofTokens (Token.ofSource source) ++ ofTokens ts := by
  have hsolid : ∀ t ∈ Token.beforeEnd source, (t.kind != .endOfFile) = true :=
    fun t ht => (List.mem_filter.mp ht).2
  rw [Token.terminals_ofSource, ofTokens, List.takeWhile_append_of_pos hsolid, List.map_append]
  rfl

/-- **What a reader sees of a text below another.**  The first terminal of the second text begins a
line in either. -/
theorem ofTokens_below (before after : String)
    (h : ∀ t ∈ (Token.ofSource after).head?, t.kind ≠ .endOfFile) :
    ∃ t u ts, ofTokens (Token.ofSource after) = t :: ts ∧
      ofTokens (Token.ofSource (before ++ "\n" ++ after)) =
        ofTokens (Token.ofSource before) ++ u :: ts ∧
      u.kind = t.kind ∧ t.lineStart = true ∧ u.lineStart = true := by
  obtain ⟨t, u, us, hafter, hjoined, hkind, -, hline, hline'⟩ := Token.ofSource_below before after
  rw [hafter] at h
  have ht : t.kind ≠ .endOfFile := h t rfl
  have hu : u.kind ≠ .endOfFile := hkind ▸ ht
  refine ⟨ofToken t, ofToken u, ofTokens us, ?_, ?_, hkind, hline, hline'⟩
  · rw [hafter, ofTokens_cons ht]
  · rw [hjoined, ofTokens_beforeEnd_append, ofTokens_cons hu, ofTokens_shift]

end Terminal

/-! ## 3. Slices -/

namespace Text

theorem splitBytes?_below (cs ds : List Char) (n : Nat) :
    splitBytes? (byteLength cs + n) (cs ++ ds) =
      (splitBytes? n ds).map fun p => (cs ++ p.1, p.2) := by
  induction cs with
  | nil => simp
  | cons c cs ih =>
    have hpos := c.utf8Size_pos
    obtain ⟨m, hm⟩ : ∃ m, byteLength (c :: cs) + n = m + 1 :=
      ⟨c.utf8Size + byteLength cs + n - 1, by rw [byteLength_cons]; omega⟩
    rw [hm, List.cons_append, splitBytes?]
    rw [byteLength_cons] at hm
    have hsub : m + 1 - c.utf8Size = byteLength cs + n := by omega
    rw [if_pos (by omega), hsub, ih, Option.map_map]
    rfl

/-- **A slice of a text is a slice of a longer one,** further on. -/
theorem slice?_below (before after : String) (start stop : Nat) :
    slice? (before ++ after) (start + byteLength before.toList)
      (stop + byteLength before.toList) = slice? after start stop := by
  have hsub : stop + byteLength before.toList - (start + byteLength before.toList) =
      stop - start := by
    omega
  have hsplit := splitBytes?_below before.toList after.toList start
  rw [Nat.add_comm] at hsplit
  unfold slice?
  rw [hsub, String.toList_append, hsplit]
  by_cases hle : start ≤ stop
  · rw [if_pos hle, if_pos (by omega)]
    cases splitBytes? start after.toList <;> rfl
  · rw [if_neg hle, if_neg (by omega)]

end Text

end PlatformGate
