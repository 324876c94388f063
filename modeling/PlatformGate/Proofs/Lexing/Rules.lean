/-
# The rules of the lexer

A rule says which texts are written for one sort of token or trivium, without saying how they are
found.  A lexeme comes to its text character by character, and its shape says by which rule
(`Shape.Spells`); so a text is one lexeme exactly if its characters spell a shape
(`Lexeme.isWhole_iff`).

The lexemes of a text are whole, and each ends where it takes no more.  That is all there is to know
about them, so proofs about a text that is cut go by `Lexeme.scan_induction`.
-/
import PlatformGate.Proofs.Writing.Typeset

namespace PlatformGate

/-! ## 1. Rules -/

/-- The rules by which a text is cut. -/
inductive LexRule
  | fixed (f : Fixed)
  | word
  /-- A `#` with a word behind it. -/
  | poundWord
  | number
  | blanks
  | newline
  /-- Two slashes and the rest of their line. -/
  | comment
  deriving DecidableEq

/-- An ASCII letter or an underscore, then ASCII letters, digits and underscores. -/
def IsWord (text : List Char) : Prop :=
  ∃ c more, text = c :: more ∧ Shape.isWordStart c = true ∧ ∀ d ∈ more, Shape.isWordPart d = true

/-- The texts that are written by the rule. -/
def LexRule.Matches : LexRule → List Char → Prop
  | fixed f, text => text = f.spelling.toList
  | word, text => IsWord text
  | poundWord, text => ∃ name, text = '#' :: name ∧ IsWord name
  | number, text => ∃ c more, text = c :: more ∧ c.isDigit = true ∧
      ∀ d ∈ more, (d.isDigit || d == '_') = true
  | blanks, text => text ≠ [] ∧ ∀ c ∈ text, Shape.isBlank c = true
  | newline, text => text = ['\n']
  | comment, text => ∃ more, text = '/' :: '/' :: more ∧ '\n' ∉ more

theorem IsWord.ne_nil {text : List Char} (h : IsWord text) : text ≠ [] := by
  obtain ⟨c, more, rfl, -⟩ := h
  exact List.cons_ne_nil c more

/-- A number consists of digits and underscores. -/
theorem LexRule.Matches.isDigit_or {text : List Char} (h : LexRule.number.Matches text) :
    ∀ c ∈ text, c.isDigit = true ∨ c = '_' := by
  obtain ⟨c, more, rfl, hc, hmore⟩ := h
  refine List.forall_mem_cons.mpr ⟨.inl hc, fun d hd => ?_⟩
  simpa using hmore d hd

/-- No rule matches the empty text. -/
theorem LexRule.Matches.ne_nil {r : LexRule} {text : List Char} (h : r.Matches text) :
    text ≠ [] := by
  cases r with
  | fixed f =>
    rw [show text = _ from h]
    cases f <;> decide
  | word => exact IsWord.ne_nil h
  | poundWord | comment =>
    obtain ⟨_, rfl, -⟩ := h
    exact List.cons_ne_nil _ _
  | number =>
    obtain ⟨_, _, rfl, -⟩ := h
    exact List.cons_ne_nil _ _
  | blanks => exact h.1
  | newline =>
    rw [show text = _ from h]
    exact List.cons_ne_nil _ _

/-! ## 2. Shapes and what they spell -/

/-- The texts of the lexemes of a shape. -/
def Shape.Spells : Shape → List Char → Prop
  | blank, text => LexRule.blanks.Matches text
  | newline, text => LexRule.newline.Matches text
  | comment, text => LexRule.comment.Matches text
  | word, text => LexRule.word.Matches text
  | pound, text => text = ['#']
  | poundWord, text => LexRule.poundWord.Matches text
  | digits, text => LexRule.number.Matches text
  | single c, text => text = [c] ∧ ofFirst c = single c
  | pair, text => ∃ b c f, text = [b, c] ∧ ofFirst b = single b ∧ (LexRule.fixed f).Matches text

namespace Shape

/-- The first character of a lexeme spells its shape. -/
theorem spells_ofFirst (c : Char) : (ofFirst c).Spells [c] := by
  unfold ofFirst
  split
  · rename_i hblank
    exact ⟨List.cons_ne_nil _ _, by simpa using hblank⟩
  · split
    · rename_i hnewline
      rw [beq_iff_eq.mp hnewline]
      rfl
    · split
      · rename_i hstart
        exact ⟨c, [], rfl, hstart, nofun⟩
      · split
        · rename_i hdigit
          exact ⟨c, [], rfl, hdigit, nofun⟩
        · split
          · rename_i hpound
            rw [beq_iff_eq.mp hpound]
            rfl
          · refine ⟨rfl, ?_⟩
            simp_all [ofFirst]

theorem isWord_singleton {c : Char} (h : isWordStart c = true) : IsWord [c] :=
  ⟨c, [], rfl, h, nofun⟩

theorem isWord_concat {text : List Char} {c : Char} (h : IsWord text) (hc : isWordPart c = true) :
    IsWord (text ++ [c]) := by
  obtain ⟨d, more, rfl, hd, hmore⟩ := h
  refine ⟨d, more ++ [c], rfl, hd, ?_⟩
  exact List.forall_mem_append.mpr ⟨hmore, by simpa using hc⟩

/-- **One more character spells the longer shape.** -/
theorem Spells.concat {shape longer : Shape} {text : List Char} {c : Char} (h : shape.Spells text)
    (hc : shape.extend? c = some longer) : longer.Spells (text ++ [c]) := by
  cases shape with
  | newline | pair => cases hc
  | blank =>
    obtain ⟨hblank, rfl⟩ : isBlank c = true ∧ blank = longer := by simpa [extend?] using hc
    refine ⟨List.append_ne_nil_of_left_ne_nil h.1 _, ?_⟩
    exact List.forall_mem_append.mpr ⟨h.2, by simpa using hblank⟩
  | comment =>
    obtain ⟨hne, rfl⟩ : c ≠ '\n' ∧ comment = longer := by simpa [extend?] using hc
    obtain ⟨more, rfl, hmore⟩ := h
    refine ⟨more ++ [c], rfl, ?_⟩
    simpa [hmore] using hne.symm
  | word =>
    obtain ⟨hpart, rfl⟩ : isWordPart c = true ∧ word = longer := by simpa [extend?] using hc
    exact isWord_concat h hpart
  | pound =>
    obtain ⟨hstart, rfl⟩ : isWordStart c = true ∧ poundWord = longer := by
      simpa [extend?] using hc
    rw [show text = ['#'] from h]
    exact ⟨[c], rfl, isWord_singleton hstart⟩
  | poundWord =>
    obtain ⟨hpart, rfl⟩ : isWordPart c = true ∧ poundWord = longer := by simpa [extend?] using hc
    obtain ⟨name, rfl, hname⟩ := h
    exact ⟨name ++ [c], rfl, isWord_concat hname hpart⟩
  | digits =>
    simp only [extend?, Option.ite_none_right_eq_some, Option.some.injEq] at hc
    obtain ⟨hpart, rfl⟩ := hc
    obtain ⟨d, more, rfl, hd, hmore⟩ := h
    refine ⟨d, more ++ [c], rfl, hd, ?_⟩
    exact List.forall_mem_append.mpr ⟨hmore, by simpa using hpart⟩
  | single b =>
    obtain ⟨rfl, hb⟩ := h
    rw [extend?] at hc
    split at hc
    · rename_i hslashes
      obtain ⟨rfl, rfl⟩ : b = '/' ∧ c = '/' := by simpa using hslashes
      cases hc
      exact ⟨[], rfl, List.not_mem_nil⟩
    · split at hc
      · rename_i hspelling
        cases hc
        obtain ⟨f, hf⟩ := Option.isSome_iff_exists.mp hspelling
        refine ⟨b, c, f, rfl, hb, ?_⟩
        change [b, c] = f.spelling.toList
        rw [Fixed.ofSpelling?_eq_some_iff.mp hf, String.toList_ofList]
      · cases hc

end Shape

/-! ## 3. Whole lexemes -/

namespace Lexeme

/-- The text of the lexeme is cut as that lexeme. -/
def IsWhole (l : Lexeme) : Prop := scan l.text = [l]

theorem spells_of_mem_scanFrom {l : Lexeme} {shape : Shape} {taken cs : List Char}
    (h : shape.Spells taken.reverse) (hl : l ∈ scanFrom shape taken cs) :
    l.shape.Spells l.text := by
  induction cs generalizing shape taken with
  | nil =>
    obtain rfl := List.mem_singleton.mp hl
    exact h
  | cons c cs ih =>
    rw [scanFrom] at hl
    cases hc : shape.extend? c with
    | some longer =>
      rw [hc] at hl
      refine ih ?_ hl
      rw [List.reverse_cons]
      exact h.concat hc
    | none =>
      rw [hc] at hl
      rcases List.mem_cons.mp hl with rfl | hl
      · exact h
      · exact ih (Shape.spells_ofFirst c) hl

/-- **Every lexeme spells its shape.** -/
theorem spells_of_mem_scan {l : Lexeme} {cs : List Char} (hl : l ∈ scan cs) :
    l.shape.Spells l.text := by
  cases cs with
  | nil => exact absurd hl List.not_mem_nil
  | cons c cs => exact spells_of_mem_scanFrom (Shape.spells_ofFirst c) hl

theorem IsWhole.spells {l : Lexeme} (h : l.IsWhole) : l.shape.Spells l.text := by
  have hmem : l ∈ scan l.text := by
    rw [h]
    exact List.mem_singleton_self l
  exact spells_of_mem_scan hmem

theorem IsWhole.ne_nil {l : Lexeme} (h : l.IsWhole) : l.text ≠ [] := by
  intro hnil
  unfold IsWhole at h
  rw [hnil] at h
  cases h

theorem isWhole_word {text : List Char} (h : IsWord text) : IsWhole ⟨.word, text⟩ := by
  obtain ⟨c, more, rfl, hstart, hmore⟩ := h
  have hsteady : ∀ d ∈ more, Shape.extend? .word d = some .word := by
    intro d hd
    simp [Shape.extend?, hmore d hd]
  unfold IsWhole
  rw [scan, Shape.ofFirst_of_isWordStart hstart]
  exact scanFrom_steady hsteady [c]

/-- **What spells a shape is one lexeme of that shape.** -/
theorem isWhole_of_spells {shape : Shape} {text : List Char} (h : shape.Spells text) :
    IsWhole ⟨shape, text⟩ := by
  unfold IsWhole
  cases shape with
  | blank =>
    obtain ⟨hne, hblank⟩ := h
    obtain ⟨c, more, rfl⟩ := List.exists_cons_of_ne_nil hne
    have hsteady : ∀ d ∈ more, Shape.extend? .blank d = some .blank := by
      intro d hd
      simp [Shape.extend?, hblank d (List.mem_cons_of_mem c hd)]
    rw [scan, Shape.ofFirst, hblank c List.mem_cons_self, if_pos rfl]
    exact scanFrom_steady hsteady [c]
  | newline =>
    rw [show text = _ from h]
    decide
  | comment =>
    obtain ⟨more, rfl, hmore⟩ := h
    have hsteady : ∀ d ∈ more, Shape.extend? .comment d = some .comment := by
      intro d hd
      have hne : d ≠ '\n' := fun heq => hmore (heq ▸ hd)
      simp [Shape.extend?, hne]
    exact scanFrom_steady hsteady ['/', '/']
  | word => exact isWhole_word h
  | pound =>
    rw [show text = _ from h]
    decide
  | poundWord =>
    obtain ⟨_, rfl, c, more, rfl, hstart, hmore⟩ := h
    have hsteady : ∀ d ∈ more, Shape.extend? .poundWord d = some .poundWord := by
      intro d hd
      simp [Shape.extend?, hmore d hd]
    have hfirst : Shape.ofFirst '#' = .pound := by decide
    rw [scan, hfirst, scanFrom, Shape.extend?, if_pos hstart]
    exact scanFrom_steady hsteady [c, '#']
  | digits =>
    obtain ⟨c, more, rfl, hdigit, hmore⟩ := h
    have hsteady : ∀ d ∈ more, Shape.extend? .digits d = some .digits := by
      intro d hd
      rw [Shape.extend?, if_pos (hmore d hd)]
    rw [scan, Shape.ofFirst_of_isDigit hdigit]
    exact scanFrom_steady hsteady [c]
  | single c =>
    obtain ⟨rfl, hc⟩ := h
    rw [scan, hc]
    rfl
  | pair =>
    obtain ⟨b, c, f, rfl, hb, hf⟩ := h
    have hspelling : Fixed.ofSpelling? (String.ofList [b, c]) = some f := by
      rw [show [b, c] = f.spelling.toList from hf, String.ofList_toList, Fixed.ofSpelling?_spelling]
    have hslashes : (b == '/' && c == '/') = false := by
      rw [← Bool.not_eq_true]
      intro hboth
      obtain ⟨rfl, rfl⟩ : b = '/' ∧ c = '/' := by simpa using hboth
      exact absurd hspelling (by cases f <;> decide)
    rw [scan, hb, scanFrom, Shape.extend?, hslashes, hspelling]
    rfl

/-- **A text is one lexeme exactly if it spells the shape.** -/
theorem isWhole_iff {l : Lexeme} : l.IsWhole ↔ l.shape.Spells l.text :=
  ⟨IsWhole.spells, isWhole_of_spells⟩

/-! ## 4. How a text is cut -/

/-- The lexeme takes nothing of what stands behind it. -/
def StopsAt (l : Lexeme) (rest : List Char) : Prop := ∀ c ∈ rest.head?, l.shape.extend? c = none

theorem IsWhole.scan_append {l : Lexeme} (h : l.IsWhole) {rest : List Char}
    (hrest : l.StopsAt rest) :
    scan (l.text ++ rest) = l :: scan rest := Lexeme.scan_append h hrest

theorem exists_scanFrom_cut (shape : Shape) (taken cs : List Char) :
    ∃ last more rest, cs = more ++ rest ∧
      scanFrom shape taken more = [⟨last, taken.reverse ++ more⟩] ∧
      ∀ c ∈ rest.head?, last.extend? c = none := by
  induction cs generalizing shape taken with
  | nil => exact ⟨shape, [], [], rfl, by simp [scanFrom], nofun⟩
  | cons c cs ih =>
    cases hc : shape.extend? c with
    | some longer =>
      obtain ⟨last, more, rest, rfl, hmore, hrest⟩ := ih longer (c :: taken)
      refine ⟨last, c :: more, rest, rfl, ?_, hrest⟩
      rw [scanFrom, hc]
      simpa using hmore
    | none =>
      refine ⟨shape, [], c :: cs, rfl, by simp [scanFrom], ?_⟩
      rintro d ⟨⟩
      exact hc

/-- A text begins with a whole lexeme that takes no more. -/
theorem exists_cut {cs : List Char} (h : cs ≠ []) :
    ∃ (l : Lexeme) (rest : List Char), cs = l.text ++ rest ∧ l.IsWhole ∧ l.StopsAt rest := by
  obtain ⟨c, cs, rfl⟩ := List.exists_cons_of_ne_nil h
  obtain ⟨last, more, rest, rfl, hmore, hrest⟩ := exists_scanFrom_cut (Shape.ofFirst c) [c] cs
  exact ⟨⟨last, c :: more⟩, rest, rfl, hmore, hrest⟩

/-- **Induction along the lexemes of a text.**  What holds of the empty text, and passes from what
stands behind a lexeme to the text with that lexeme in front, holds of every text. -/
theorem scan_induction {motive : List Char → Prop} (nil : motive [])
    (cons : ∀ (l : Lexeme) (rest : List Char), l.IsWhole → l.StopsAt rest → motive rest →
      motive (l.text ++ rest)) (cs : List Char) : motive cs := by
  suffices H : ∀ (n : Nat) (cs : List Char), cs.length < n → motive cs from
    H _ cs (Nat.lt_succ_self _)
  intro n
  induction n with
  | zero => exact fun cs h => absurd h (Nat.not_lt_zero _)
  | succ n ih =>
    intro cs hlt
    by_cases hnil : cs = []
    · rw [hnil]
      exact nil
    · obtain ⟨l, rest, rfl, hwhole, hstops⟩ := exists_cut hnil
      have hpos := List.length_pos_iff.mpr hwhole.ne_nil
      rw [List.length_append] at hlt
      exact cons l rest hwhole hstops (ih rest (by omega))

end Lexeme

end PlatformGate
