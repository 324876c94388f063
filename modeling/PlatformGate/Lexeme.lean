/-
# Lexemes

A text is cut into lexemes by an automaton without backtracking: a lexeme takes characters as long
as its shape allows one more, and the next lexeme begins with the first character refused.  Since
every shape reached on the way is a lexeme in its own right, taking all that can be taken is the
longest match.  `flatMap_text_scan` says that nothing of the text is lost.

Numbers are read in 64 bits: digit by digit, with a multiplication and an addition that are given up
where the result would not fit.  What was read of a number never exceeds the number, so neither can
fail unless the whole number is too large (`le_valueFrom`), and what is read is exact at any length
(`checkedValue?_eq`).
-/
import PlatformGate.Token.Kind

namespace PlatformGate

/-! ## 1. Shapes -/

/-- How far a lexeme has come, which decides the characters it may still take. -/
inductive Shape
  /-- Spaces, tabs and carriage returns. -/
  | blank
  | newline
  /-- Two slashes and the rest of their line. -/
  | comment
  | word
  /-- A `#` alone. -/
  | pound
  /-- A `#` with a word behind it. -/
  | poundWord
  | digits
  /-- Any other character, alone. -/
  | single (c : Char)
  /-- A spelling of two characters. -/
  | pair
  deriving DecidableEq, Repr, Inhabited

namespace Shape

/-- White space inside a line. -/
def isBlank (c : Char) : Bool := c == ' ' || c == '\t' || c == '\r'

/-- Words begin with an ASCII letter or an underscore. -/
def isWordStart (c : Char) : Bool := c.isAlpha || c == '_'

/-- Words go on with ASCII letters, ASCII digits and underscores. -/
def isWordPart (c : Char) : Bool := c.isAlphanum || c == '_'

/-- The shape of a lexeme that consists of its first character. -/
def ofFirst (c : Char) : Shape :=
  if isBlank c then blank
  else if c == '\n' then newline
  else if isWordStart c then word
  else if c.isDigit then digits
  else if c == '#' then pound
  else single c

/-- The shape after one more character, if the lexeme takes it. -/
def extend? : Shape → Char → Option Shape
  | blank, c => if isBlank c then some blank else none
  | newline, _ => none
  | comment, c => if c == '\n' then none else some comment
  | word, c => if isWordPart c then some word else none
  | pound, c => if isWordStart c then some poundWord else none
  | poundWord, c => if isWordPart c then some poundWord else none
  | digits, c => if c.isDigit || c == '_' then some digits else none
  | single b, c =>
    if b == '/' && c == '/' then some comment
    else if (Fixed.ofSpelling? (String.ofList [b, c])).isSome then some pair
    else none
  | pair, _ => none

end Shape

/-! ## 2. Cutting a text -/

/-- A piece of the text with its shape. -/
structure Lexeme where
  shape : Shape
  text : List Char
  deriving DecidableEq, Repr, Inhabited

namespace Lexeme

/-- The lexemes of a text of which `taken`, last character first, is already part of a lexeme. -/
def scanFrom (shape : Shape) (taken : List Char) : List Char → List Lexeme
  | [] => [⟨shape, taken.reverse⟩]
  | c :: cs =>
    match shape.extend? c with
    | some longer => scanFrom longer (c :: taken) cs
    | none => ⟨shape, taken.reverse⟩ :: scanFrom (Shape.ofFirst c) [c] cs

/-- The lexemes of a text. -/
def scan : List Char → List Lexeme
  | [] => []
  | c :: cs => scanFrom (Shape.ofFirst c) [c] cs

theorem flatMap_text_scanFrom (shape : Shape) (taken cs : List Char) :
    (scanFrom shape taken cs).flatMap text = taken.reverse ++ cs := by
  induction cs generalizing shape taken with
  | nil => simp [scanFrom]
  | cons c cs ih =>
    rw [scanFrom]
    split
    · rw [ih]
      simp
    · rw [List.flatMap_cons, ih]
      simp

/-- The lexemes of a text make up the text. -/
theorem flatMap_text_scan (cs : List Char) : (scan cs).flatMap text = cs := by
  cases cs with
  | nil => rfl
  | cons c cs => simp [scan, flatMap_text_scanFrom]

/-! ## 3. Numbers -/

/-- The number that a digit stands for. -/
def digit (c : Char) : Nat := c.toNat - '0'.toNat

/-- The value of a number: its decimal digits without the underscores between them. -/
def value (digits : List Char) : Nat :=
  (digits.filter Char.isDigit).foldl (fun n c => 10 * n + digit c) 0

/-- Numbers stay below this bound, two to the power of 64. -/
def valueBound : Nat := 18446744073709551616

/-- The product, if it fits in 64 bits. -/
def checkedMul? (a b : UInt64) : Option UInt64 :=
  if a.toNat * b.toNat < valueBound then some (a * b) else none

/-- The sum, if it fits in 64 bits. -/
def checkedAdd? (a b : UInt64) : Option UInt64 :=
  if a.toNat + b.toNat < valueBound then some (a + b) else none

/-- One more character behind what was read.  An underscore stands for nothing. -/
def checkedStep? (n : UInt64) (c : Char) : Option UInt64 :=
  if c = '_' then some n
  else if c.isDigit then do
    let tens ← checkedMul? n 10
    checkedAdd? tens (UInt64.ofNat (digit c))
  else none

/-- What a text says in 64 bits, if it is a number and fits. -/
def checkedValue? (text : List Char) : Option UInt64 := text.foldlM checkedStep? 0

/-- The value of digits behind others that had the value `n`. -/
def valueFrom (n : Nat) (text : List Char) : Nat :=
  (text.filter Char.isDigit).foldl (fun n c => 10 * n + digit c) n

theorem valueFrom_digit {c : Char} (hc : c.isDigit = true) (n : Nat) (text : List Char) :
    valueFrom n (c :: text) = valueFrom (10 * n + digit c) text := by
  rw [valueFrom, List.filter_cons_of_pos hc]
  rfl

theorem valueFrom_underscore (n : Nat) (text : List Char) :
    valueFrom n ('_' :: text) = valueFrom n text := rfl

/-- **What was read never exceeds the number.** -/
theorem le_valueFrom (n : Nat) (text : List Char) : n ≤ valueFrom n text := by
  unfold valueFrom
  generalize text.filter Char.isDigit = digits
  induction digits generalizing n with
  | nil => exact Nat.le_refl n
  | cons c digits ih => exact Nat.le_trans (by omega) (ih (10 * n + digit c))

theorem digit_lt_ten {c : Char} (hc : c.isDigit = true) : digit c < 10 := by
  have hnine : c.toNat ≤ 57 := (Char.isDigit_iff_toNat.mp hc).2
  have hzero : '0'.toNat = 48 := rfl
  unfold digit
  omega

theorem toNat_ofNat_of_lt {n : Nat} (h : n < valueBound) : (UInt64.ofNat n).toNat = n :=
  UInt64.toNat_ofNat_of_lt h

theorem toNat_lt_valueBound (n : UInt64) : n.toNat < valueBound := UInt64.toNat_lt n

/-- A digit more is read exactly if the result fits. -/
theorem checkedStep?_digit {c : Char} (hc : c.isDigit = true) (n : UInt64) :
    checkedStep? n c =
      if 10 * n.toNat + digit c < valueBound then some (UInt64.ofNat (10 * n.toNat + digit c))
      else none := by
  have hne : c ≠ '_' := by
    rintro rfl
    cases hc
  have hten : (10 : UInt64).toNat = 10 := rfl
  have hlt := digit_lt_ten hc
  have hdigit : (UInt64.ofNat (digit c)).toNat = digit c :=
    toNat_ofNat_of_lt (Nat.lt_trans hlt (by decide))
  rw [checkedStep?, if_neg hne, if_pos hc, checkedMul?, hten]
  by_cases htens : n.toNat * 10 < valueBound
  · -- the product fits, and what decides is the sum
    have hproduct : (n * 10).toNat = n.toNat * 10 := by
      rw [UInt64.toNat_mul, hten]
      exact Nat.mod_eq_of_lt htens
    have hsum : n * 10 + UInt64.ofNat (digit c) = UInt64.ofNat (n.toNat * 10 + digit c) := by
      rw [UInt64.ofNat_add, UInt64.ofNat_mul, UInt64.ofNat_toNat]
      rfl
    rw [if_pos htens, Option.bind_eq_bind, Option.bind_some, checkedAdd?, hproduct, hdigit, hsum,
      Nat.mul_comm]
  · rw [if_neg htens, if_neg (by omega)]
    rfl

/-- **What is read is exact,** and reading fails only if the number does not fit. -/
theorem foldlM_checkedStep? {text : List Char} (h : ∀ c ∈ text, c.isDigit = true ∨ c = '_')
    (n : UInt64) : text.foldlM checkedStep? n =
      if valueFrom n.toNat text < valueBound then some (UInt64.ofNat (valueFrom n.toNat text))
      else none := by
  induction text generalizing n with
  | nil =>
    have hvalue : valueFrom n.toNat [] = n.toNat := rfl
    rw [hvalue, if_pos (toNat_lt_valueBound n), UInt64.ofNat_toNat]
    rfl
  | cons c text ih =>
    obtain ⟨hc, htext⟩ := List.forall_mem_cons.mp h
    rw [List.foldlM_cons]
    rcases hc with hc | rfl
    · rw [checkedStep?_digit hc, valueFrom_digit hc]
      by_cases hfits : 10 * n.toNat + digit c < valueBound
      · rw [if_pos hfits, Option.bind_eq_bind, Option.bind_some, ih htext, toNat_ofNat_of_lt hfits]
      · -- what does not fit now never does again
        have hle := le_valueFrom (10 * n.toNat + digit c) text
        rw [if_neg hfits, if_neg (by omega)]
        rfl
    · rw [valueFrom_underscore]
      exact ih htext n

/-- **A number is read exactly** in 64 bits, at any length. -/
theorem checkedValue?_eq {text : List Char} (h : ∀ c ∈ text, c.isDigit = true ∨ c = '_') :
    checkedValue? text =
      if value text < valueBound then some (UInt64.ofNat (value text)) else none :=
  foldlM_checkedStep? h 0

/-- The kind of a number: it is invalid if it does not fit. -/
def numberKind (text : List Char) : Kind String :=
  match checkedValue? text with
  | some n => .number n.toNat
  | none => .invalid

theorem numberKind_eq {text : List Char} (h : ∀ c ∈ text, c.isDigit = true ∨ c = '_') :
    numberKind text = if value text < valueBound then .number (value text) else .invalid := by
  rw [numberKind, checkedValue?_eq h]
  by_cases hfits : value text < valueBound
  · rw [if_pos hfits, if_pos hfits]
    exact congrArg Kind.number (toNat_ofNat_of_lt hfits)
  · rw [if_neg hfits, if_neg hfits]

/-! ## 4. Kinds -/

/-- The kind of token that the lexeme is.  A fixed spelling comes before all else. -/
def kind (l : Lexeme) : Kind String :=
  match Fixed.ofSpelling? (String.ofList l.text) with
  | some f => .fixed f
  | none =>
    match l.shape with
    | .word => .word (String.ofList l.text)
    | .poundWord => .poundWord (String.ofList l.text.tail)
    | .digits => numberKind l.text
    | _ => .invalid

end Lexeme

end PlatformGate
