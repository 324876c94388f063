/-
# Where a lexer cuts

The lexer takes as much as it can, so a lexeme ends in front of a character that it does not take,
and what comes behind that character does not matter (`Lexeme.scan_append`).  Trivia are what may
stand between tokens: blanks, newlines and line comments.  They leave no tokens
(`Lexeme.kinds_scan_trivia`).
-/
import PlatformGate.Proofs.Token.Kinds

namespace PlatformGate

/-! ## 1. Where a lexeme ends -/

namespace Lexeme

theorem scanFrom_ne_nil (shape : Shape) (taken cs : List Char) : scanFrom shape taken cs ≠ [] := by
  induction cs generalizing shape taken with
  | nil => simp [scanFrom]
  | cons c cs ih =>
    rw [scanFrom]
    cases shape.extend? c with
    | some longer => exact ih _ _
    | none => exact List.cons_ne_nil _ _

/-- A lexeme of one shape throughout takes all that this shape takes. -/
theorem scanFrom_steady {shape : Shape} {text : List Char}
    (h : ∀ c ∈ text, shape.extend? c = some shape) (taken : List Char) :
    scanFrom shape taken text = [⟨shape, taken.reverse ++ text⟩] := by
  induction text generalizing taken with
  | nil => simp [scanFrom]
  | cons c cs ih =>
    rw [scanFrom, h c List.mem_cons_self]
    simpa using ih (fun d hd => h d (List.mem_cons_of_mem c hd)) (c :: taken)

theorem scanFrom_append {shape last : Shape} {text rest : List Char} (taken : List Char)
    (h : scanFrom shape taken text = [⟨last, taken.reverse ++ text⟩])
    (hrest : ∀ c ∈ rest.head?, last.extend? c = none) :
    scanFrom shape taken (text ++ rest) = ⟨last, taken.reverse ++ text⟩ :: scan rest := by
  induction text generalizing shape taken with
  | nil =>
    obtain rfl : shape = last := by simpa [scanFrom] using h
    cases rest with
    | nil => simp [scanFrom, scan]
    | cons c cs =>
      rw [List.nil_append, scanFrom, hrest c rfl]
      simp [scan]
  | cons c cs ih =>
    rw [scanFrom] at h
    rw [List.cons_append, scanFrom]
    cases hc : shape.extend? c with
    | some longer =>
      simp only [hc] at h ⊢
      simpa using ih (c :: taken) (by simpa using h)
    | none =>
      simp only [hc] at h
      exact absurd (List.cons.inj h).2 (scanFrom_ne_nil _ _ _)

/-- **A lexeme ends in front of a character that it does not take,** whatever comes behind. -/
theorem scan_append {shape : Shape} {text rest : List Char} (h : scan text = [⟨shape, text⟩])
    (hrest : ∀ c ∈ rest.head?, shape.extend? c = none) :
    scan (text ++ rest) = ⟨shape, text⟩ :: scan rest := by
  cases text with
  | nil => exact absurd h (by simp [scan])
  | cons c cs => exact scanFrom_append [c] h hrest

/-- A lexeme holds all that was taken for it. -/
theorem exists_scanFrom_eq_cons (shape : Shape) (taken cs : List Char) :
    ∃ last more ls, scanFrom shape taken cs = ⟨last, taken.reverse ++ more⟩ :: ls := by
  induction cs generalizing shape taken with
  | nil => exact ⟨shape, [], [], by simp [scanFrom]⟩
  | cons c cs ih =>
    rw [scanFrom]
    cases shape.extend? c with
    | some longer =>
      obtain ⟨last, more, ls, h⟩ := ih longer (c :: taken)
      exact ⟨last, c :: more, ls, by simpa using h⟩
    | none => exact ⟨shape, [], scanFrom (Shape.ofFirst c) [c] cs, by simp⟩

theorem scanFrom_append_longer {shape last longer : Shape} {text : List Char} {c : Char}
    (taken cs : List Char)
    (h : scanFrom shape taken text = [⟨last, taken.reverse ++ text⟩])
    (hc : last.extend? c = some longer) :
    ∃ l ls, scanFrom shape taken (text ++ c :: cs) = l :: ls ∧
      (taken.reverse ++ text).length < l.text.length := by
  induction text generalizing shape taken with
  | nil =>
    obtain rfl : shape = last := by simpa [scanFrom] using h
    obtain ⟨last, more, ls, hmore⟩ := exists_scanFrom_eq_cons longer (c :: taken) cs
    rw [List.nil_append, scanFrom, hc]
    exact ⟨_, _, hmore, by simp⟩
  | cons d ds ih =>
    rw [scanFrom] at h
    rw [List.cons_append, scanFrom]
    cases hd : shape.extend? d with
    | some longer' =>
      simp only [hd] at h ⊢
      simpa using ih (d :: taken) (by simpa using h)
    | none =>
      simp only [hd] at h
      exact absurd (List.cons.inj h).2 (scanFrom_ne_nil _ _ _)

/-- Two texts that are cut where they meet do not merge: the first takes nothing of the second. -/
theorem extend?_eq_none_of_scan_append {shape : Shape} {text cs : List Char} {c : Char}
    (h : scan text = [⟨shape, text⟩]) (hcut : scan (text ++ c :: cs) = scan text ++ scan (c :: cs)) :
    shape.extend? c = none := by
  cases hc : shape.extend? c with
  | none => rfl
  | some longer =>
    cases text with
    | nil => exact absurd h (by simp [scan])
    | cons d ds =>
      obtain ⟨l, ls, hscan, hlt⟩ := scanFrom_append_longer [d] cs h hc
      have hl : l = ⟨shape, d :: ds⟩ := by
        have hcons := hscan.symm.trans (hcut.trans (by rw [h]))
        exact (List.cons.inj hcons).1
      rw [hl] at hlt
      exact absurd hlt (by simp)

end Lexeme

/-! ## 2. Trivia -/

/-- What may stand between tokens. -/
inductive Trivium
  /-- A space, a tab or a carriage return. -/
  | blank (c : Char) (h : Shape.isBlank c = true)
  | newline
  /-- A line comment, with the newline that ends it. -/
  | comment (text : List Char) (h : '\n' ∉ text)

namespace Trivium

def text : Trivium → List Char
  | blank c _ => [c]
  | newline => ['\n']
  | comment text _ => '/' :: '/' :: text ++ ['\n']

/-- A single space. -/
def space : Trivium := blank ' ' (by decide)

/-- The characters that trivia begin with. -/
def starts : List Char := [' ', '\t', '\r', '\n', '/']

theorem mem_starts_of_head? {t : Trivium} {c : Char} {rest : List Char}
    (h : c ∈ (t.text ++ rest).head?) : c ∈ starts := by
  cases t with
  | blank d hd =>
    obtain rfl : d = c := by simpa [text] using h
    simp only [Shape.isBlank, Bool.or_eq_true, beq_iff_eq] at hd
    rcases hd with (rfl | rfl) | rfl <;> decide
  | newline =>
    obtain rfl : '\n' = c := by simpa [text] using h
    decide
  | comment cs hcs =>
    obtain rfl : '/' = c := by simpa [text] using h
    decide

end Trivium

/-- What stands between two tokens. -/
abbrev Trivia := List Trivium

namespace Trivia

def text (g : Trivia) : List Char := g.flatMap Trivium.text

theorem text_cons (t : Trivium) (g : Trivia) : text (t :: g) = t.text ++ text g :=
  List.flatMap_cons

end Trivia

namespace Lexeme

/-- Blanks are read together with what blanks there are behind them. -/
theorem kinds_scanFrom_blank (taken cs : List Char) :
    kinds (scanFrom .blank taken cs) = kinds (scan cs) := by
  induction cs generalizing taken with
  | nil => rfl
  | cons c cs ih =>
    rw [scan, scanFrom]
    by_cases hc : Shape.isBlank c = true
    · simp only [Shape.extend?, Shape.ofFirst, hc, if_true]
      rw [ih, ih]
    · simp only [Shape.extend?, hc, if_false, Bool.false_eq_true]
      rfl

theorem scan_newline (cs : List Char) : scan ('\n' :: cs) = ⟨.newline, ['\n']⟩ :: scan cs :=
  have hwhole : scan ['\n'] = [⟨.newline, ['\n']⟩] := by decide
  scan_append hwhole fun _ _ => rfl

theorem scan_comment {text : List Char} (h : '\n' ∉ text) (cs : List Char) :
    scan ('/' :: '/' :: text ++ '\n' :: cs) =
      ⟨.comment, '/' :: '/' :: text⟩ :: ⟨.newline, ['\n']⟩ :: scan cs := by
  have hwhole : scan ('/' :: '/' :: text) = [⟨.comment, '/' :: '/' :: text⟩] := by
    have hsteady : ∀ c ∈ text, Shape.extend? .comment c = some .comment := by
      intro c hc
      have hne : c ≠ '\n' := fun heq => h (heq ▸ hc)
      simp [Shape.extend?, hne]
    exact scanFrom_steady hsteady ['/', '/']
  rw [scan_append hwhole (by simp [Shape.extend?]), scan_newline]

/-- **Trivia leave no tokens.** -/
theorem kinds_scan_trivia (g : Trivia) (cs : List Char) :
    kinds (scan (g.text ++ cs)) = kinds (scan cs) := by
  induction g with
  | nil => rfl
  | cons t g ih =>
    rw [Trivia.text_cons, List.append_assoc, ← ih]
    cases t with
    | blank c hc =>
      have hscan : scan (c :: (Trivia.text g ++ cs)) =
          scanFrom .blank [c] (Trivia.text g ++ cs) := by
        rw [scan, Shape.ofFirst, hc, if_pos rfl]
      exact (congrArg kinds hscan).trans (kinds_scanFrom_blank _ _)
    | newline => exact (congrArg kinds (scan_newline (Trivia.text g ++ cs))).trans rfl
    | comment text htext =>
      have hscan := scan_comment htext (Trivia.text g ++ cs)
      simp only [Trivium.text, List.append_assoc, List.cons_append, List.nil_append] at hscan ⊢
      exact (congrArg kinds hscan).trans rfl

end Lexeme

end PlatformGate
