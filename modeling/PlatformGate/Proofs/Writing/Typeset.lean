/-
# Writing tokens

A text is typeset when tokens are written one behind the other with trivia between them: blanks,
newlines and line comments.  `Typesetting.kinds_tokens` says that such a text is read as the tokens
that were written, and nothing else.

Trivia may be left out, except between two tokens that would merge.  Whether two tokens merge is
asked of the lexer itself: it is whether their texts, put together, are cut at another place.
-/
import PlatformGate.Proofs.Writing.Cuts

namespace PlatformGate

/-! ## 1. Tokens as they are written -/

/-- A word that is free to name something: an ASCII letter or an underscore, then letters, digits
and underscores, and neither a keyword nor `_`. -/
structure Identifier where
  first : Char
  more : List Char
  begins : Shape.isWordStart first = true
  goesOn : ∀ c ∈ more, Shape.isWordPart c = true
  free : Fixed.ofSpelling? (String.ofList (first :: more)) = none

def Identifier.name (i : Identifier) : String := String.ofList (i.first :: i.more)

/-- A token as it is written.  A slash is left out, since a comment behind it would be another
comment. -/
inductive Spelling
  | fixed (f : Fixed) (h : f ≠ .slash)
  | identifier (i : Identifier)
  | number (n : Nat) (h : n < Lexeme.valueBound)

namespace Spelling

def text : Spelling → List Char
  | fixed f _ => f.spelling.toList
  | identifier i => i.name.toList
  | number n _ => (toString n).toList

def kind : Spelling → Kind String
  | fixed f _ => .fixed f
  | identifier i => .word i.name
  | number n _ => .number n

/-- Written one right behind the other, the tokens are not read as these two. -/
def Merges (s t : Spelling) : Prop :=
  Lexeme.scan (s.text ++ t.text) ≠ Lexeme.scan s.text ++ Lexeme.scan t.text

end Spelling

namespace Lexeme

/-- A text is written for a token of some kind: it is one lexeme and no trivia, the token has that
kind, and trivia behind it are not taken for a part of it. -/
structure Writes (shape : Shape) (text : List Char) (k : Kind String) : Prop where
  whole : scan text = [⟨shape, text⟩]
  solid : shape.mark? = none
  kind_eq : (⟨shape, text⟩ : Lexeme).kind = k
  refuses : (Trivium.starts.all fun c => (shape.extend? c).isNone) = true

theorem Writes.refuses_of_mem {shape : Shape} {text : List Char} {k : Kind String}
    (h : Writes shape text k) {c : Char} (hc : c ∈ Trivium.starts) : shape.extend? c = none :=
  Option.isNone_iff_eq_none.mp (List.all_eq_true.mp h.refuses c hc)

end Lexeme

/-- The shape of the lexeme that a fixed token is. -/
def Fixed.shape (f : Fixed) : Shape :=
  ((Lexeme.scan f.spelling.toList).map Lexeme.shape).headD .newline

theorem Fixed.writes {f : Fixed} (h : f ≠ .slash) :
    Lexeme.Writes f.shape f.spelling.toList (.fixed f) where
  whole := by cases f <;> decide
  solid := by cases f <;> decide
  kind_eq := by
    unfold Lexeme.kind
    rw [String.ofList_toList, Fixed.ofSpelling?_spelling]
  refuses := by
    cases f with
    | slash => exact absurd rfl h
    | _ => decide

theorem Shape.ofFirst_of_isWordStart {c : Char} (h : isWordStart c = true) : ofFirst c = word := by
  have hblank : isBlank c = false := by
    cases hc : isBlank c with
    | false => rfl
    | true =>
      simp only [isBlank, Bool.or_eq_true, beq_iff_eq] at hc
      rcases hc with (rfl | rfl) | rfl <;> exact absurd h (by decide)
  have hnewline : (c == '\n') = false := by
    cases hc : c == '\n' with
    | false => rfl
    | true =>
      obtain rfl := beq_iff_eq.mp hc
      exact absurd h (by decide)
  simp [ofFirst, hblank, hnewline, h]

theorem Identifier.writes (i : Identifier) : Lexeme.Writes .word i.name.toList (.word i.name) where
  whole := by
    have hsteady : ∀ c ∈ i.more, Shape.extend? .word c = some .word := by
      intro c hc
      simp [Shape.extend?, i.goesOn c hc]
    unfold Identifier.name
    rw [String.toList_ofList, Lexeme.scan, Shape.ofFirst_of_isWordStart i.begins]
    exact Lexeme.scanFrom_steady hsteady [i.first]
  solid := rfl
  kind_eq := by
    have hfree : Fixed.ofSpelling? i.name = none := i.free
    unfold Lexeme.kind
    rw [String.ofList_toList, hfree]
  refuses := by decide

/-! ## 2. Numbers -/

namespace Lexeme

theorem digits_toString (n : Nat) : ∀ c ∈ (toString n).toList, c.isDigit = true := by
  intro c hc
  rw [Nat.toString_eq_ofList_toDigits, String.toList_ofList] at hc
  exact Nat.isDigit_of_mem_toDigits (by decide) (by decide) hc

theorem toString_ne_nil (n : Nat) : (toString n).toList ≠ [] := by
  rw [Nat.toString_eq_ofList_toDigits, String.toList_ofList]
  exact Nat.toDigits_ne_nil

/-- The decimal digits of a number have its value. -/
theorem value_toString (n : Nat) : value (toString n).toList = n := by
  unfold value digit
  rw [List.filter_eq_self.mpr (digits_toString n), ← Nat.ofDigitChars_eq_foldl,
    Nat.toString_eq_ofList_toDigits, String.toList_ofList]
  exact Nat.ofDigitChars_ten_toDigits

end Lexeme

theorem Shape.ofFirst_of_isDigit {c : Char} (h : c.isDigit = true) : ofFirst c = digits := by
  have hletter : c.isAlpha = false := by
    have hnine : c.toNat ≤ 57 := (Char.isDigit_iff_toNat.mp h).2
    cases hc : c.isAlpha with
    | false => rfl
    | true =>
      rcases Bool.or_eq_true_iff.mp hc with hupper | hlower
      · have hle : 'A'.val ≤ c.val := (of_decide_eq_true hupper).1
        have hletter : 65 ≤ c.toNat := UInt32.le_iff_toNat_le.mp hle
        omega
      · have hle : 'a'.val ≤ c.val := of_decide_eq_true (Bool.and_eq_true_iff.mp hlower).1
        have hletter : 97 ≤ c.toNat := UInt32.le_iff_toNat_le.mp hle
        omega
  have hother : ∀ d ∈ [' ', '\t', '\r', '\n', '_'], (c == d) = false := by
    intro d hd
    cases hc : c == d with
    | false => rfl
    | true =>
      obtain rfl := beq_iff_eq.mp hc
      simp only [List.mem_cons, List.not_mem_nil, or_false] at hd
      rcases hd with rfl | rfl | rfl | rfl | rfl <;> exact absurd h (by decide)
  simp [ofFirst, isBlank, isWordStart, hletter, hother, h]

/-- No fixed token begins with a digit. -/
theorem Fixed.ofSpelling?_eq_none_of_isDigit {c : Char} (h : c.isDigit = true) (cs : List Char) :
    ofSpelling? (String.ofList (c :: cs)) = none := by
  cases hf : ofSpelling? (String.ofList (c :: cs)) with
  | none => rfl
  | some f =>
    have hhead : ∀ g : Fixed, g.spelling.toList.head?.any Char.isDigit = false := by
      intro g
      cases g <;> decide
    have hdigit := hhead f
    rw [ofSpelling?_eq_some_iff.mp hf, String.toList_ofList] at hdigit
    exact absurd (h.symm.trans hdigit) (by decide)

theorem Lexeme.writes_toString {n : Nat} (h : n < valueBound) :
    Writes .digits (toString n).toList (.number n) := by
  obtain ⟨c, cs, hcs⟩ := List.exists_cons_of_ne_nil (toString_ne_nil n)
  have hdigits : ∀ d ∈ c :: cs, d.isDigit = true := by
    intro d hd
    exact digits_toString n d (hcs ▸ hd)
  have hfirst := hdigits c List.mem_cons_self
  constructor
  · have hsteady : ∀ d ∈ cs, Shape.extend? .digits d = some .digits := by
      intro d hd
      simp [Shape.extend?, hdigits d (List.mem_cons_of_mem c hd)]
    rw [hcs, scan, Shape.ofFirst_of_isDigit hfirst]
    exact scanFrom_steady hsteady [c]
  · rfl
  · have hnone := Fixed.ofSpelling?_eq_none_of_isDigit hfirst cs
    unfold kind
    simp only [hcs, hnone]
    rw [numberKind_eq fun d hd => .inl (hdigits d hd), ← hcs, value_toString, if_pos h]
  · decide

namespace Spelling

/-- The shape of the lexeme that is written. -/
def shape : Spelling → Shape
  | fixed f _ => f.shape
  | identifier _ => .word
  | number _ _ => .digits

theorem writes (s : Spelling) : Lexeme.Writes s.shape s.text s.kind := by
  cases s with
  | fixed f h => exact Fixed.writes h
  | identifier i => exact i.writes
  | number n h => exact Lexeme.writes_toString h

theorem text_ne_nil (s : Spelling) : s.text ≠ [] := by
  intro hnil
  have hwhole := s.writes.whole
  rw [hnil] at hwhole
  exact absurd hwhole (by simp [Lexeme.scan])

/-- The lexeme of the first of two tokens that do not merge ends where the second begins. -/
theorem refuses_of_not_merges {s t : Spelling} (h : ¬ s.Merges t) {rest : List Char} :
    ∀ c ∈ (t.text ++ rest).head?, s.shape.extend? c = none := by
  intro c hc
  obtain ⟨d, ds, hds⟩ := List.exists_cons_of_ne_nil t.text_ne_nil
  obtain rfl : d = c := by simpa [hds] using hc
  have hcut := Decidable.not_not.mp h
  rw [hds] at hcut
  exact Lexeme.extend?_eq_none_of_scan_append s.writes.whole hcut

end Spelling

/-! ## 3. Typeset texts -/

/-- The text of tokens with trivia in front of each and behind the last. -/
def typeset : List (Trivia × Spelling) → Trivia → List Char
  | [], tail => tail.text
  | (gap, s) :: line, tail => gap.text ++ s.text ++ typeset line tail

/-- Trivia stand between any two neighbours that would merge. -/
def Apart : List (Trivia × Spelling) → Prop
  | a :: b :: line => (b.1 = [] → ¬ a.2.Merges b.2) ∧ Apart (b :: line)
  | _ => True

/-- A choice of trivia for some tokens. -/
structure Typesetting (ts : List Spelling) where
  /-- The tokens, each with the trivia in front of it. -/
  line : List (Trivia × Spelling)
  tail : Trivia
  tokens : line.map Prod.snd = ts
  apart : Apart line

theorem Apart.tail {a : Trivia × Spelling} {line : List (Trivia × Spelling)}
    (h : Apart (a :: line)) : Apart line := by
  cases line with
  | nil => trivial
  | cons b line => exact h.2

/-- Nothing behind a token is taken for a part of it. -/
theorem Apart.refuses {gap : Trivia} {s : Spelling} {line : List (Trivia × Spelling)}
    {tail : Trivia} (h : Apart ((gap, s) :: line)) :
    ∀ c ∈ (typeset line tail).head?, s.shape.extend? c = none := by
  have htrivia : ∀ t : Trivium, ∀ rest, ∀ c ∈ (t.text ++ rest).head?,
      s.shape.extend? c = none :=
    fun t rest c hc => s.writes.refuses_of_mem (Trivium.mem_starts_of_head? hc)
  cases line with
  | nil =>
    cases tail with
    | nil => simp [typeset, Trivia.text]
    | cons t tail => exact htrivia t _
  | cons b line =>
    obtain ⟨gap', t⟩ := b
    cases gap' with
    | nil => exact Spelling.refuses_of_not_merges (h.1 rfl)
    | cons t' gap' =>
      simp only [typeset, Trivia.text_cons, List.append_assoc]
      exact htrivia t' _

theorem kinds_typeset {line : List (Trivia × Spelling)} (h : Apart line) (tail : Trivia) :
    Lexeme.kinds (Lexeme.scan (typeset line tail)) = line.map fun p => p.2.kind := by
  induction line with
  | nil =>
    have hend := Lexeme.kinds_scan_trivia tail []
    rw [List.append_nil] at hend
    exact hend
  | cons a line ih =>
    obtain ⟨gap, s⟩ := a
    have hs := s.writes
    rw [typeset, List.append_assoc, Lexeme.kinds_scan_trivia, Lexeme.scan_append hs.whole h.refuses]
    unfold Lexeme.kinds at ih ⊢
    rw [List.filter_cons_of_pos (by simp [hs.solid]), List.map_cons, List.map_cons, hs.kind_eq,
      ih h.tail]

namespace Typesetting

variable {ts : List Spelling}

/-- The text that comes of it. -/
def text (l : Typesetting ts) : String := String.ofList (typeset l.line l.tail)

/-- **What was typeset is read back,** token by token. -/
theorem kinds_tokens (l : Typesetting ts) :
    (Token.ofSource l.text).map Token.kind = ts.map Spelling.kind ++ [.endOfFile] := by
  have hkinds : l.line.map (fun p => p.2.kind) = ts.map Spelling.kind := by
    rw [← congrArg (List.map Spelling.kind) l.tokens, List.map_map]
    rfl
  unfold Token.ofSource text
  rw [Token.kinds_ofLexemes, String.toList_ofList, kinds_typeset l.apart, hkinds]

/-- Tokens can always be typeset: with a space in front of each. -/
def spaced (ts : List Spelling) : Typesetting ts where
  line := ts.map fun s => ([.space], s)
  tail := []
  tokens := by
    rw [List.map_map]
    exact List.map_id ts
  apart := by
    induction ts with
    | nil => trivial
    | cons s ts ih =>
      cases ts with
      | nil => trivial
      | cons t ts => exact ⟨nofun, ih⟩

instance : Inhabited (Typesetting ts) := ⟨spaced ts⟩

end Typesetting

end PlatformGate
