/-
# Numbers

A number is written with decimal digits and underscores, and it is read in 64 bits
(`Lexeme.checkedValue?_eq`).  It ends where no digit and no underscore follows, so the text that is
written is the text of one token (`Lexeme.IsWhole.eq_of_append`).  What is reported about an invalid
token is told from its first character alone.  That is enough: of the invalid tokens only numbers
that are too large begin with a digit (`Lexeme.IsWhole.tooLarge_iff`).
-/
import PlatformGate.Proofs.Account.Quotes
import PlatformGate.Proofs.Lexing.Munch
import PlatformGate.Proofs.Recovery.Statements
import PlatformGate.Proofs.Tiling.Tiles

namespace PlatformGate

/-! ## 1. Where a number ends, and what it is -/

namespace Lexeme

variable {l m : Lexeme} {rest more : List Char}

/-- **A text begins with one lexeme,** if it is to stop there. -/
theorem IsWhole.eq_of_append (hl : l.IsWhole) (hlstops : l.StopsAt rest) (hm : m.IsWhole)
    (hmstops : m.StopsAt more) (h : l.text ++ rest = m.text ++ more) : l = m := by
  have hcut := hl.scan_append hlstops
  rw [h, hm.scan_append hmstops] at hcut
  exact (List.cons.inj hcut).1.symm

/-- A number stops where no digit and no underscore follows. -/
theorem stopsAt_digits {text : List Char} (h : ∀ c ∈ rest.head?, c.isDigit = false ∧ c ≠ '_') :
    StopsAt ⟨.digits, text⟩ rest := by
  intro c hc
  obtain ⟨hdigit, hne⟩ := h c hc
  simp [Shape.extend?, hdigit, hne]

/-- A number has its value for its kind, and is invalid if the value does not fit. -/
theorem kind_digits {text : List Char} (h : LexRule.number.Matches text) :
    kind ⟨.digits, text⟩ = if value text < 2 ^ 64 then .number (value text) else .invalid := by
  have hdigits := h.isDigit_or
  obtain ⟨c, more, rfl, hc, -⟩ := h
  unfold kind
  rw [Fixed.ofSpelling?_eq_none_of_isDigit hc more, ← valueBound_eq]
  exact numberKind_eq hdigits

/-- **An invalid token that begins with a digit is a number that is too large.** -/
theorem IsWhole.tooLarge_iff (h : l.IsWhole) (hsolid : l.shape.mark? = none)
    (hinvalid : l.kind = .invalid) :
    l.text.head?.any Char.isDigit = true ↔
      LexRule.number.Matches l.text ∧ 2 ^ 64 ≤ value l.text := by
  constructor
  · intro hdigit
    rcases h.kind_of hsolid with hof | ⟨-, hnone⟩
    · rw [hinvalid] at hof
      cases hof with
      | tooLarge hr hle => exact ⟨hr, hle⟩
    · -- a single character that no rule matches is no digit
      obtain ⟨c, hc⟩ := List.length_eq_one_iff.mp (h.length_eq_one hnone)
      rw [hc] at hdigit
      have hnumber : LexRule.number.Matches l.text := ⟨c, [], hc, hdigit, nofun⟩
      exact absurd hnumber (hnone .number)
  · rintro ⟨⟨c, more, hc, hdigit, -⟩, -⟩
    rw [hc]
    exact hdigit

end Lexeme

/-! ## 2. Tokens -/

namespace Token

open Lexeme

variable {source : String} {before literal after : List Char}

/-- The token that begins where a number stands is the number. -/
theorem Reads.eq_number {t : Token String} {l : Lexeme} {front rest : List Char}
    (ht : Reads source t l front rest) (hsplit : source.toList = before ++ (literal ++ after))
    (hr : LexRule.number.Matches literal) (hstart : t.span.start = Text.byteLength before)
    (hstops : ∀ c ∈ after.head?, c.isDigit = false ∧ c ≠ '_') :
    front = before ∧ l = ⟨.digits, literal⟩ := by
  have hfront : front = before := by
    refine Text.eq_of_byteLength_eq ⟨_, ht.split.symm⟩ ⟨_, hsplit.symm⟩ ?_
    rw [← hstart, ht.span_eq]
  have hsame := ht.split.symm.trans hsplit
  rw [hfront] at hsame
  refine ⟨hfront, ?_⟩
  exact ht.whole.eq_of_append ht.stops hr.isWhole (stopsAt_digits hstops)
    (List.append_cancel_left hsame)

/-- A token that begins in front of the end of the source is not the end of file. -/
theorem mem_beforeEnd {t : Token String} (ht : t ∈ ofSource source)
    (hlt : t.span.start < Text.byteLength source.toList) : t ∈ beforeEnd source := by
  obtain ⟨layout, heq⟩ := ofSource_eq_append_point source
  rw [heq] at ht
  rcases List.mem_append.mp ht with ht | ht
  · exact ht
  · rw [List.mem_singleton.mp ht] at hlt
    exact absurd hlt (Nat.lt_irrefl _)

/-- **One token covers the number,** and its kind is what the number says. -/
theorem exists_number (hsplit : source.toList = before ++ (literal ++ after))
    (hr : LexRule.number.Matches literal)
    (hstart : ∃ t ∈ ofSource source, t.span.start = Text.byteLength before)
    (hstops : ∀ c ∈ after.head?, c.isDigit = false ∧ c ≠ '_') :
    ∃ front t back, ofSource source = front ++ t :: back ∧
      (∀ u ∈ front, u.span.stop ≤ t.span.start) ∧ (∀ u ∈ back, t.span.stop ≤ u.span.start) ∧
      t.span = ⟨Text.byteLength before, Text.byteLength (before ++ literal)⟩ ∧
      t.kind = Lexeme.kind ⟨.digits, literal⟩ := by
  obtain ⟨t, ht, hstart⟩ := hstart
  have hlt : t.span.start < Text.byteLength source.toList := by
    have hpos := Text.byteLength_pos hr.ne_nil
    rw [hstart, hsplit, Text.byteLength_append, Text.byteLength_append]
    omega
  obtain ⟨l, stands, rest, hl⟩ := exists_reads (mem_beforeEnd ht hlt)
  obtain ⟨rfl, rfl⟩ := hl.eq_number hsplit hr hstart hstops
  obtain ⟨front, back, hsource⟩ := List.append_of_mem ht
  have hapart := apart_ofSource source
  rw [hsource, List.pairwise_append, List.pairwise_cons] at hapart
  obtain ⟨-, ⟨hback, -⟩, hfront⟩ := hapart
  exact ⟨front, t, back, hsource, fun u hu => hfront u hu t List.mem_cons_self, hback, hl.span_eq,
    hl.kind_eq⟩

end Token

/-! ## 3. Diagnostics -/

theorem Cause.invalidToken_of_code {ρ : Type} {cause : Cause ρ} (h : cause.code = .e0001) :
    cause = .invalidToken := by
  cases cause with
  | invalidToken => rfl
  | unclosed c | leftover c => cases c <;> cases h
  | _ => cases h

theorem Cause.message_invalidToken {ρ : Type} (text : String) :
    (invalidToken : Cause ρ).message text =
      if text.toList.head?.any Char.isDigit then s!"integer literal '{text}' is too large"
      else s!"invalid character '{text}'" := rfl

/-- No message is about a number and about a character. -/
theorem Cause.tooLarge_ne_invalid (text : String) :
    s!"integer literal '{text}' is too large" ≠ s!"invalid character '{text}'" := by
  intro h
  have hfront := congrArg (fun message : String => message.toList.take 3) h
  simp [toString] at hfront

section Diagnostics

variable {source : String} {r : Report Run}

/-- What is reported as an invalid token is one. -/
theorem Report.exists_invalid (hr : r ∈ (Whole.ofSource source).reports)
    (hcause : r.cause = .invalidToken) :
    ∃ t ∈ Token.beforeEnd source, t.kind = .invalid ∧ r.place.locate source = t.span := by
  obtain ⟨as, hcourse, -⟩ := Whole.exists_course source
  have hquotes : r.cause.quotes = true := by rw [hcause]; rfl
  obtain ⟨i, n, hnext, hi⟩ :=
    hcourse.exists_quotesNext (w := (Whole.ofSource source).terminals) rfl r hr hquotes
  cases hnext with
  | stray | captured => cases hcause
  | invalid hkind =>
    have hrest := hi.rest_eq
    have hne := Input.rest_ne_nil_of_kind (i := i) (by simp [hkind])
    rw [hrest, ne_eq, List.map_eq_nil_iff] at hne
    obtain ⟨t, ts, hts⟩ := List.exists_cons_of_ne_nil hne
    have hget : (Token.beforeEnd source)[i.position]? = some t := by
      rw [← List.head?_drop, hts]
      rfl
    rw [hts, List.map_cons] at hrest
    refine ⟨t, List.mem_of_getElem? hget, ?_, Run.locate_token hget⟩
    rw [← hkind, Input.kind_eq_head hrest]
    rfl

end Diagnostics

namespace Outcome

/-- The message about an invalid token names the reason. -/
theorem message_invalid {source : String} {limit : Nat} {d : Diagnostic}
    (hd : d ∈ (ofSource source limit).diagnostics) (hcode : d.code = .e0001) :
    ∃ t ∈ Token.ofSource source, ∃ before text after,
      t.kind = .invalid ∧ d.span = t.span ∧ source.toList = before ++ (text ++ after) ∧
        t.span = ⟨Text.byteLength before, Text.byteLength (before ++ text)⟩ ∧
        (d.message = s!"integer literal '{String.ofList text}' is too large" ↔
          LexRule.number.Matches text ∧ 2 ^ 64 ≤ Lexeme.value text) ∧
        (d.message = s!"invalid character '{String.ofList text}'" ↔
          ¬ (LexRule.number.Matches text ∧ 2 ^ 64 ≤ Lexeme.value text)) := by
  have hd := mem_diagnostics_of_limited hd
  rw [diagnostics_eq_word] at hd
  obtain ⟨r, hr, rfl⟩ := List.mem_map.mp hd
  rw [Session.code_word] at hcode
  have hcause := Cause.invalidToken_of_code hcode
  obtain ⟨t, ht, hkind, hspan⟩ := r.exists_invalid hr hcause
  obtain ⟨l, before, after, hl⟩ := Token.exists_reads ht
  have hslice : Text.slice? source t.span.start t.span.stop = some (String.ofList l.text) := by
    rw [hl.span_eq]
    refine Text.slice?_between ⟨after, ?_⟩
    rw [hl.split, List.append_assoc]
  have hmessage := Session.message_word source source r
  rw [Cause.message_map, hspan, hslice, hcause, Option.getD_some, Cause.message_invalidToken,
    String.toList_ofList] at hmessage
  have hreason := hl.whole.tooLarge_iff hl.solid (hl.kind_eq.symm.trans hkind)
  have hdiffer := Cause.tooLarge_ne_invalid (String.ofList l.text)
  refine ⟨t, (List.mem_filter.mp ht).1, before, l.text, after, hkind, hspan, hl.split, hl.span_eq,
    ?_⟩
  rw [hmessage, ← hreason]
  split
  · rename_i hdigit
    exact ⟨iff_of_true rfl hdigit, iff_of_false hdiffer (not_not_intro hdigit)⟩
  · rename_i hdigit
    exact ⟨iff_of_false hdiffer.symm hdigit, iff_of_true rfl hdigit⟩

/-- **Numbers are exact up to 64 bits.**  A number that stands where a token begins, with no digit
and no underscore behind it, is covered by one token.  That is its value, read digit by digit in 64
bits, and an invalid token if the value does not fit.  What is reported about an invalid token says
that a number is too large exactly if it is such a number, and that a character is invalid
otherwise. -/
theorem numbers_exact (source : String) :
    (∀ before literal after, source.toList = before ++ (literal ++ after) →
      LexRule.number.Matches literal →
      (∃ t ∈ Token.ofSource source, t.span.start = Text.byteLength before) →
      (∀ c ∈ after.head?, c.isDigit = false ∧ c ≠ '_') →
      (∃ front t back, Token.ofSource source = front ++ t :: back ∧
        (∀ u ∈ front, u.span.stop ≤ t.span.start) ∧ (∀ u ∈ back, t.span.stop ≤ u.span.start) ∧
        t.span = ⟨Text.byteLength before, Text.byteLength (before ++ literal)⟩ ∧
        t.kind = (if Lexeme.value literal < 2 ^ 64 then .number (Lexeme.value literal)
          else .invalid)) ∧
      Lexeme.checkedValue? literal =
        if Lexeme.value literal < 2 ^ 64 then some (UInt64.ofNat (Lexeme.value literal))
        else none) ∧
    ∀ limit, ∀ d ∈ (ofSource source limit).diagnostics, d.code = .e0001 →
      ∃ t ∈ Token.ofSource source, ∃ before text after,
        t.kind = .invalid ∧ d.span = t.span ∧ source.toList = before ++ (text ++ after) ∧
          t.span = ⟨Text.byteLength before, Text.byteLength (before ++ text)⟩ ∧
          (d.message = s!"integer literal '{String.ofList text}' is too large" ↔
            LexRule.number.Matches text ∧ 2 ^ 64 ≤ Lexeme.value text) ∧
          (d.message = s!"invalid character '{String.ofList text}'" ↔
            ¬ (LexRule.number.Matches text ∧ 2 ^ 64 ≤ Lexeme.value text)) := by
  refine ⟨fun before literal after hsplit hr hstart hstops => ⟨?_, ?_⟩,
    fun limit d hd hcode => message_invalid hd hcode⟩
  · rw [← Lexeme.kind_digits hr]
    exact Token.exists_number hsplit hr hstart hstops
  · rw [Lexeme.checkedValue?_eq hr.isDigit_or, Lexeme.valueBound_eq]

/-- The greatest number, with a zero and an underscore in front, and the number after it. -/
theorem numbers_exact_bound :
    let source := "0_18446744073709551615\n18446744073709551616"
    let d : Diagnostic :=
      { code := .e0001
        message := "integer literal '18446744073709551616' is too large"
        span := ⟨23, 43⟩ }
    (∃ t ∈ Token.ofSource source, t.span = ⟨0, 22⟩ ∧ t.kind = .number 18446744073709551615) ∧
      (∃ t ∈ Token.ofSource source, t.span = ⟨23, 43⟩ ∧ t.kind = .invalid) ∧
      d ∈ (ofSource source 0).diagnostics ∧
      ∃ t ∈ Token.ofSource source, t.kind = .invalid ∧ d.span = t.span := by
  intro source d
  have hfirst : LexRule.number.Matches "0_18446744073709551615".toList :=
    ⟨'0', "_18446744073709551615".toList, by decide +kernel, by decide,
      List.all_eq_true.mp (by decide +kernel)⟩
  have hsecond : LexRule.number.Matches "18446744073709551616".toList :=
    ⟨'1', "8446744073709551616".toList, by decide +kernel, by decide,
      List.all_eq_true.mp (by decide +kernel)⟩
  obtain ⟨hnumbers, hreported⟩ := numbers_exact source
  obtain ⟨⟨front, t, back, ht, -, -, hspan, hkind⟩, -⟩ :=
    hnumbers [] _ "\n18446744073709551616".toList (by decide +kernel) hfirst (by decide +kernel)
      (by simp)
  obtain ⟨⟨front', u, back', hu, -, -, hspan', hkind'⟩, -⟩ :=
    hnumbers "0_18446744073709551615\n".toList _ [] (by decide +kernel) hsecond (by decide +kernel)
      (by simp)
  rw [if_pos (by decide +kernel)] at hkind
  rw [if_neg (by decide +kernel)] at hkind'
  have hd : d ∈ (ofSource source 0).diagnostics := by decide +kernel
  obtain ⟨v, hv, _, _, _, hinvalid, hplace, -⟩ := hreported 0 d hd rfl
  refine ⟨⟨t, by rw [ht]; exact List.mem_append_right _ List.mem_cons_self, ?_, ?_⟩,
    ⟨u, by rw [hu]; exact List.mem_append_right _ List.mem_cons_self, ?_, hkind'⟩, hd,
    ⟨v, hv, hinvalid, hplace⟩⟩
  · exact hspan.trans (by decide +kernel)
  · exact hkind.trans (by decide +kernel)
  · exact hspan'.trans (by decide +kernel)

end Outcome

end PlatformGate
