/-
# The longest match

The lexer never looks back: a lexeme takes what it can take.  This is the longest match over the
rules, because every text that a rule matches is a whole lexeme (`LexRule.Matches.isWhole`), and
nothing longer than a lexeme that has stopped is whole (`Lexeme.IsWhole.length_le`).

Rules of the same length are told apart by kinds alone: a fixed spelling comes before words
(`Kind.Of`).  What is left over is a single character that begins nothing, and a number that is too
large (`Token.maximal_munch`).
-/
import Mathlib.Algebra.Group.Nat.Defs
import PlatformGate.Proofs.Lexing.Gaps
import PlatformGate.Proofs.Names.Numbering

namespace PlatformGate

/-! ## 1. Rules and lexemes -/

/-- The shape of the lexemes that are written by the rule. -/
def LexRule.shape : LexRule → Shape
  | fixed f => f.shape
  | word => .word
  | poundWord => .poundWord
  | number => .digits
  | blanks => .blank
  | newline => .newline
  | comment => .comment

/-- **What a rule matches is a whole lexeme.** -/
theorem LexRule.Matches.isWhole {r : LexRule} {text : List Char} (h : r.Matches text) :
    Lexeme.IsWhole ⟨r.shape, text⟩ := by
  cases r with
  | fixed f =>
    rw [show text = f.spelling.toList from h]
    unfold Lexeme.IsWhole
    cases f <;> decide
  | word | poundWord | number | blanks | newline | comment => exact Lexeme.isWhole_of_spells h

namespace Lexeme

section Whole

variable {l : Lexeme} {r : LexRule} {rest : List Char}

/-- A rule that matches the text of a whole lexeme is a rule for its shape. -/
theorem IsWhole.shape_eq (h : l.IsWhole) (hr : r.Matches l.text) : l.shape = r.shape := by
  have hsame : [l] = [⟨r.shape, l.text⟩] := h.symm.trans hr.isWhole
  exact congrArg shape (List.cons.inj hsame).1

/-- **No rule matches more than a lexeme that has stopped.** -/
theorem IsWhole.length_le (h : l.IsWhole) (hstops : l.StopsAt rest) {other : List Char}
    (hother : other <+: l.text ++ rest) (hr : r.Matches other) : other.length ≤ l.text.length := by
  rcases List.prefix_or_prefix_of_prefix hother (List.prefix_append l.text rest) with hle | hmore
  · exact hle.length_le
  · obtain ⟨more, rfl⟩ := hmore
    cases more with
    | nil => simp
    | cons c more =>
      -- The lexeme stops in front of `c`, so what the rule matches would be two lexemes.
      obtain ⟨left, hleft⟩ := (List.prefix_append_right_inj _).mp hother
      have hcut : scan (l.text ++ c :: more) = l :: scan (c :: more) := by
        refine h.scan_append ?_
        rintro d ⟨⟩
        exact hstops c (by rw [← hleft]; rfl)
      have hone := hr.isWhole
      unfold IsWhole at hone
      rw [hcut] at hone
      exact absurd (List.cons.inj hone).2 (scanFrom_ne_nil _ _ _)

end Whole

end Lexeme

/-! ## 2. Kinds -/

theorem Lexeme.valueBound_eq : valueBound = 2 ^ 64 := by decide

/-- The kind that a text has by the rules that match it.  Words are free of fixed spellings. -/
inductive Kind.Of (text : List Char) : Kind String → Prop
  | fixed (f : Fixed) (h : (LexRule.fixed f).Matches text) : Of text (.fixed f)
  | word (free : ∀ f, ¬ (LexRule.fixed f).Matches text) (h : LexRule.word.Matches text) :
    Of text (.word (String.ofList text))
  | poundWord (free : ∀ f, ¬ (LexRule.fixed f).Matches text) (h : LexRule.poundWord.Matches text) :
    Of text (.poundWord (String.ofList text.tail))
  | number (h : LexRule.number.Matches text) (hlt : Lexeme.value text < 2 ^ 64) :
    Of text (.number (Lexeme.value text))
  | tooLarge (h : LexRule.number.Matches text) (hle : 2 ^ 64 ≤ Lexeme.value text) : Of text .invalid

theorem Kind.Of.exists_rule {text : List Char} {k : Kind String} (h : Of text k) :
    ∃ r : LexRule, r.Matches text := by
  cases h with
  | fixed f h | word _ h | poundWord _ h | number h _ | tooLarge h _ => exact ⟨_, h⟩

/-- No word is empty, with the `#` or without it. -/
theorem Kind.Of.name_ne_empty {text : List Char} {k : Kind String} (h : Of text k) {name : String}
    (hname : k.name? = some name) : name ≠ "" := by
  have hne : ∀ cs : List Char, IsWord cs → String.ofList cs ≠ "" := by
    intro cs hcs hempty
    exact hcs.ne_nil (String.ofList_eq_empty_iff.mp hempty)
  cases h with
  | word free h =>
    obtain rfl := Option.some.inj hname
    exact hne _ h
  | poundWord free h =>
    obtain rfl := Option.some.inj hname
    obtain ⟨word, rfl, hword⟩ := h
    exact hne _ hword
  | fixed | number | tooLarge => cases hname

namespace Lexeme

theorem free_of_ofSpelling? {text : List Char} (h : Fixed.ofSpelling? (String.ofList text) = none)
    (f : Fixed) : ¬ (LexRule.fixed f).Matches text := by
  intro hf
  rw [show text = f.spelling.toList from hf, String.ofList_toList, Fixed.ofSpelling?_spelling] at h
  cases h

/-- **A lexeme that leaves no mark has the kind of its text,** or no rule matches it. -/
theorem IsWhole.kind_of {l : Lexeme} (h : l.IsWhole) (hsolid : l.shape.mark? = none) :
    Kind.Of l.text l.kind ∨ l.kind = .invalid ∧ ∀ r : LexRule, ¬ r.Matches l.text := by
  cases hspelling : Fixed.ofSpelling? (String.ofList l.text) with
  | some f =>
    have hkind : l.kind = .fixed f := by
      unfold kind
      rw [hspelling]
    have htext : l.text = f.spelling.toList := by
      rw [Fixed.ofSpelling?_eq_some_iff.mp hspelling, String.toList_ofList]
    rw [hkind]
    exact .inl (.fixed f htext)
  | none =>
    have hfree := free_of_ofSpelling? hspelling
    have hspells := h.spells
    have hrule : ∀ r : LexRule, r.Matches l.text → l.shape = r.shape := fun r hr => h.shape_eq hr
    obtain ⟨shape, text⟩ := l
    unfold kind
    rw [hspelling]
    cases shape with
    | blank | newline | comment => cases hsolid
    | word => exact .inl (.word hfree hspells)
    | poundWord => exact .inl (.poundWord hfree hspells)
    | digits =>
      simp only
      rw [numberKind_eq hspells.isDigit_or, valueBound_eq]
      split
      · rename_i hlt
        exact .inl (.number hspells hlt)
      · rename_i hnot
        exact .inl (.tooLarge hspells (Nat.le_of_not_lt hnot))
    | pair =>
      obtain ⟨_, _, f, _, _, hf⟩ := hspells
      exact absurd hf (hfree f)
    | pound | single =>
      -- Only fixed tokens are single characters, and this is none of them.
      refine .inr ⟨rfl, fun r hr => ?_⟩
      cases r with
      | fixed f => exact hfree f hr
      | _ => cases hrule _ hr

/-- A lexeme that no rule matches is a single character. -/
theorem IsWhole.length_eq_one {l : Lexeme} (h : l.IsWhole)
    (hnone : ∀ r : LexRule, ¬ r.Matches l.text) :
    l.text.length = 1 := by
  have hspells := h.spells
  obtain ⟨shape, text⟩ := l
  cases shape with
  | blank => exact absurd hspells (hnone .blanks)
  | newline => exact absurd hspells (hnone .newline)
  | comment => exact absurd hspells (hnone .comment)
  | word => exact absurd hspells (hnone .word)
  | poundWord => exact absurd hspells (hnone .poundWord)
  | digits => exact absurd hspells (hnone .number)
  | pair =>
    obtain ⟨_, _, f, _, _, hf⟩ := hspells
    exact absurd hf (hnone (.fixed f))
  | pound => rw [show text = _ from hspells, List.length_singleton]
  | single c => rw [show text = [c] from hspells.1, List.length_singleton]

theorem IsWhole.kind_of_number {l : Lexeme} (h : l.IsWhole) (hr : LexRule.number.Matches l.text)
    (hle : 2 ^ 64 ≤ value l.text) : l.kind = .invalid := by
  have hshape : l.shape = .digits := h.shape_eq hr
  have hdigits := hr.isDigit_or
  obtain ⟨c, more, htext, hc, -⟩ := hr
  have hfree : Fixed.ofSpelling? (String.ofList l.text) = none := by
    rw [htext]
    exact Fixed.ofSpelling?_eq_none_of_isDigit hc more
  have hnot : ¬ value l.text < valueBound := by
    rw [valueBound_eq]
    exact Nat.not_lt_of_le hle
  unfold kind
  rw [hfree, hshape]
  exact (numberKind_eq hdigits).trans (if_neg hnot)

end Lexeme

/-! ## 3. The longest match -/

/-- No rule matches at the beginning of what is left. -/
def Unmatched (left : List Char) : Prop := ∀ text, text <+: left → ∀ r : LexRule, ¬ r.Matches text

/-- The text is the longest one at the beginning of what is left that a rule matches. -/
structure IsLongest (text left : List Char) : Prop where
  begins : text <+: left
  matched : ∃ r : LexRule, r.Matches text
  longest : ∀ other, other <+: left → (∃ r : LexRule, r.Matches other) → other.length ≤ text.length

namespace Lexeme

variable {l : Lexeme} {rest : List Char}

theorem IsWhole.isLongest (h : l.IsWhole) (hstops : l.StopsAt rest)
    (hr : ∃ r : LexRule, r.Matches l.text) : IsLongest l.text (l.text ++ rest) where
  begins := List.prefix_append l.text rest
  matched := hr
  longest := fun _ hother ⟨_, hs⟩ => h.length_le hstops hother hs

/-- Where no rule matches the lexeme, none matches anything that stands there. -/
theorem IsWhole.unmatched (h : l.IsWhole) (hstops : l.StopsAt rest)
    (hnone : ∀ r : LexRule, ¬ r.Matches l.text) : Unmatched (l.text ++ rest) := by
  intro other hother r hr
  have hle := h.length_le hstops hother hr
  have hpos := List.length_pos_iff.mpr hr.ne_nil
  have hone := h.length_eq_one hnone
  have hprefix := List.prefix_of_prefix_length_le hother (List.prefix_append l.text rest) hle
  have hsame : other = l.text := hprefix.eq_of_length (by omega)
  rw [hsame] at hr
  exact hnone r hr

/-- **A lexeme that leaves no mark is the longest match,** unless its kind is invalid; and it is
invalid where no rule matches, and where the longest match is a number that is too large. -/
theorem IsWhole.munch (h : l.IsWhole) (hsolid : l.shape.mark? = none) (hstops : l.StopsAt rest) :
    (l.kind ≠ .invalid → IsLongest l.text (l.text ++ rest) ∧ Kind.Of l.text l.kind) ∧
      (l.kind = .invalid ↔ Unmatched (l.text ++ rest) ∨
        IsLongest l.text (l.text ++ rest) ∧ LexRule.number.Matches l.text ∧
          2 ^ 64 ≤ value l.text) := by
  rcases h.kind_of hsolid with hof | ⟨hinvalid, hnone⟩
  · have hlongest := h.isLongest hstops hof.exists_rule
    refine ⟨fun _ => ⟨hlongest, hof⟩, fun hinvalid => ?_, ?_⟩
    · rw [hinvalid] at hof
      cases hof with
      | tooLarge hr hle => exact .inr ⟨hlongest, hr, hle⟩
    · rintro (hunmatched | ⟨-, hr, hle⟩)
      · obtain ⟨r, hr⟩ := hof.exists_rule
        exact absurd hr (hunmatched _ hlongest.begins r)
      · exact h.kind_of_number hr hle
  · exact ⟨fun hvalid => absurd hinvalid hvalid,
      iff_of_true hinvalid (.inl (h.unmatched hstops hnone))⟩

end Lexeme

/-! ## 4. Tokens -/

namespace Token

open Filler

/-- No token of a source names the empty text. -/
theorem names_ne_empty {source name : String} (h : name ∈ names (ofSource source)) : name ≠ "" := by
  obtain ⟨t, ht, hname⟩ := List.mem_filterMap.mp h
  have hkind : t.kind ≠ .endOfFile := by
    intro hend
    rw [hend] at hname
    cases hname
  obtain ⟨l, before, rest, hl⟩ := exists_reads (List.mem_filter.mpr ⟨ht, bne_iff_ne.mpr hkind⟩)
  rw [hl.kind_eq] at hname
  rcases hl.whole.kind_of hl.solid with hof | ⟨hinvalid, -⟩
  · exact hof.name_ne_empty hname
  · rw [hinvalid] at hname
    cases hname

/-- The texts of a source are numbered from 1 on, in the order in which they first come. -/
theorem map_nameOf_eraseDups {table : NameTable} {texts : List String} (hempty : "" ∉ texts)
    (htable : table.texts = ("" :: texts).eraseDups) :
    texts.eraseDups.map table.nameOf = (List.range' 1 texts.eraseDups.length).map Name.mk := by
  have hfilter : texts.filter (fun t => !t == "") = texts := by
    refine List.filter_eq_self.mpr fun t ht => ?_
    have hne : t ≠ "" := fun heq => hempty (heq ▸ ht)
    simp [hne]
  rw [List.eraseDups_cons, hfilter] at htable
  have hdistinct := table.distinct
  rw [htable] at hdistinct
  refine List.ext_getElem (by simp) fun i hi _ => ?_
  rw [List.length_map] at hi
  have hplace : table.texts.idxOf texts.eraseDups[i] = i + 1 := by
    have hlt : i + 1 < ("" :: texts.eraseDups).length := Nat.succ_lt_succ hi
    rw [htable]
    exact hdistinct.idxOf_getElem (i + 1) hlt
  simp [NameTable.nameOf, hplace, Nat.add_comm]

/-- **A source is cut by the longest match.**  Behind the fillers, each token but the end of file
and the invalid ones is the longest text that a rule matches, and fixed spellings come before words.
A token is invalid where no rule matches and where the number is too large.  The words of the source
have equal names exactly if their texts are equal, and the names are given from 1 on in the order in
which the texts first come. -/
theorem maximal_munch (source : String) :
    (∀ front t back, ofSource source = front ++ t :: back → t.kind ≠ .endOfFile →
      ∃ before text after fs, source.toList = before ++ (text ++ after) ∧
        t.span = ⟨Text.byteLength before, Text.byteLength (before ++ text)⟩ ∧
        Fills source (stopOf 0 front) t.span.start fs ∧
        (t.kind ≠ .invalid → IsLongest text (text ++ after) ∧ Kind.Of text t.kind) ∧
        (t.kind = .invalid ↔ Unmatched (text ++ after) ∨
          IsLongest text (text ++ after) ∧ LexRule.number.Matches text ∧
            2 ^ 64 ≤ Lexeme.value text)) ∧
    ∃ name : String → Name,
      (internAll .initial (ofSource source)).1.map kind =
        (ofSource source).map (fun t => t.kind.mapName name) ∧
      (∀ x ∈ names (ofSource source), ∀ y ∈ names (ofSource source), name x = name y ↔ x = y) ∧
      (names (ofSource source)).eraseDups.map name =
        (List.range' 1 (names (ofSource source)).eraseDups.length).map Name.mk := by
  constructor
  · intro front t back hts hkind
    have ht : t ∈ ofSource source := by simp [hts]
    obtain ⟨l, before, rest, hl⟩ := exists_reads (List.mem_filter.mpr ⟨ht, bne_iff_ne.mpr hkind⟩)
    obtain ⟨fs, hfills, -⟩ := exists_fills hts
    have hmunch := hl.whole.munch hl.solid hl.stops
    rw [← hl.kind_eq] at hmunch
    exact ⟨before, l.text, rest, fs, hl.split, hl.span_eq, hfills, hmunch⟩
  · obtain ⟨htexts, hkinds⟩ := internAll_numbered .initial (ofSource source)
    refine ⟨(internAll .initial (ofSource source)).2.nameOf, hkinds, fun x hx y hy => ?_, ?_⟩
    · have hknown : ∀ z ∈ names (ofSource source),
          z ∈ (internAll .initial (ofSource source)).2.texts := by
        intro z hz
        rw [htexts, List.mem_eraseDups]
        exact List.mem_append_right _ hz
      exact NameTable.nameOf_inj (hknown x hx) (hknown y hy)
    · exact map_nameOf_eraseDups (fun hempty => names_ne_empty hempty rfl) htexts

/-- A word that begins like a keyword is one word, longer than the keyword. -/
theorem maximal_munch_keyword :
    let source := "if_ if"
    let t : Token String := ⟨.word "if_", ⟨0, 3⟩, .atLineStart⟩
    let back : List (Token String) :=
      [⟨.fixed .ifWord, ⟨4, 6⟩, { blank := true }⟩, ⟨.endOfFile, ⟨6, 6⟩, .none⟩]
    ofSource source = [] ++ t :: back ∧ t.kind ≠ .endOfFile ∧ t.kind ≠ .invalid ∧
      ∃ before text after, source.toList = before ++ (text ++ after) ∧
        t.span = ⟨Text.byteLength before, Text.byteLength (before ++ text)⟩ ∧
        IsLongest text (text ++ after) ∧ Kind.Of text t.kind := by
  intro source t back
  have hts : ofSource source = [] ++ t :: back := by decide +kernel
  have hkind : t.kind ≠ .endOfFile := nofun
  have hvalid : t.kind ≠ .invalid := nofun
  obtain ⟨before, text, after, _, hsplit, hspan, -, hmunch, -⟩ :=
    (maximal_munch source).1 [] t back hts hkind
  exact ⟨hts, hkind, hvalid, before, text, after, hsplit, hspan, hmunch hvalid⟩

end Token

end PlatformGate
