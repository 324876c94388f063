/-
# Tokens written with spaces between them

What a token is depends on its own text and on nothing around it.  So each text alone is read as its
token, and the texts of all tokens with single spaces between them are read as these tokens again
(`Token.respaced`): no token takes a space, and a space leaves no token.
-/
import PlatformGate.Proofs.Lexing.Gaps

namespace PlatformGate

/-- No fixed spelling has a space in it. -/
theorem Fixed.space_not_mem_spelling (f : Fixed) : ' ' ∉ f.spelling.toList := by
  cases f <;> decide

/-- A token ends in front of a space. -/
theorem Shape.extend?_space {s : Shape} (h : s.mark? = none) : s.extend? ' ' = none := by
  cases s with
  | blank | comment => cases h
  | single b =>
    have hnone : Fixed.ofSpelling? (String.ofList [b, ' ']) = none := by
      cases hf : Fixed.ofSpelling? (String.ofList [b, ' ']) with
      | none => rfl
      | some f =>
        have hspelling := Fixed.ofSpelling?_eq_some_iff.mp hf
        refine absurd ?_ f.space_not_mem_spelling
        rw [hspelling, String.toList_ofList]
        exact List.mem_cons_of_mem b (List.mem_singleton_self _)
    have hslash : (b == '/' && ' ' == '/') = false := Bool.and_false _
    simp only [extend?, hslash, hnone, Option.isSome_none, Bool.false_eq_true, if_false]
  | _ => rfl

namespace Lexeme

/-- A space in front of a text leaves no token. -/
theorem kinds_scan_space (cs : List Char) : kinds (scan (' ' :: cs)) = kinds (scan cs) :=
  kinds_scanFrom_blank [' '] cs

theorem IsWhole.kinds_eq {l : Lexeme} (h : l.IsWhole) (hsolid : l.shape.mark? = none) :
    kinds (scan l.text) = [l.kind] := by
  rw [h, kinds, List.filter_cons_of_pos (by simp [hsolid])]
  rfl

/-- A token with a space behind it comes first, and what follows is read by itself. -/
theorem IsWhole.kinds_space {l : Lexeme} (h : l.IsWhole) (hsolid : l.shape.mark? = none)
    (cs : List Char) : kinds (scan (l.text ++ ' ' :: cs)) = l.kind :: kinds (scan cs) := by
  have hstops : l.StopsAt (' ' :: cs) := by
    rintro c ⟨⟩
    exact Shape.extend?_space hsolid
  have hkinds : kinds (l :: scan (' ' :: cs)) = l.kind :: kinds (scan (' ' :: cs)) := by
    unfold kinds
    rw [List.filter_cons_of_pos (by simp [hsolid]), List.map_cons]
  rw [h.scan_append hstops, hkinds, kinds_scan_space]

end Lexeme

namespace Token

/-- The text that the token covers in the source. -/
def textIn (source : String) (t : Token String) : String :=
  (Text.slice? source t.span.start t.span.stop).getD ""

theorem Reads.textIn_eq {source : String} {t : Token String} {l : Lexeme} {before rest : List Char}
    (h : Reads source t l before rest) : (t.textIn source).toList = l.text := by
  have hprefix : before ++ l.text <+: source.toList := ⟨rest, by rw [h.split, List.append_assoc]⟩
  have hslice := Text.slice?_between hprefix
  unfold textIn
  rw [h.span_eq, hslice, Option.getD_some, String.toList_ofList]

theorem map_kind_ofSource (source : String) :
    (ofSource source).map kind = Lexeme.kinds (Lexeme.scan source.toList) ++ [.endOfFile] :=
  kinds_ofLexemes 0 Layout.atLineStart _

/-- **Texts of tokens with spaces between them are read as these tokens.** -/
theorem kinds_scan_spaced {source : String} {ts : List (Token String)}
    (h : ∀ t ∈ ts, ∃ l before rest, Reads source t l before rest) :
    Lexeme.kinds (Lexeme.scan (" ".intercalate (ts.map (textIn source))).toList) =
      ts.map kind := by
  rw [String.toList_intercalate, List.map_map]
  induction ts with
  | nil => rfl
  | cons t ts ih =>
    obtain ⟨ht, hts⟩ := List.forall_mem_cons.mp h
    obtain ⟨l, before, rest, hl⟩ := ht
    have htext : (String.toList ∘ textIn source) t = l.text := hl.textIn_eq
    cases ts with
    | nil =>
      rw [List.map_singleton, List.intercalate_singleton, htext, hl.whole.kinds_eq hl.solid,
        List.map_singleton, hl.kind_eq]
    | cons u ts =>
      rw [List.map_cons, List.map_cons, List.intercalate_cons_cons, htext, List.append_assoc]
      have hspace := hl.whole.kinds_space hl.solid
        (" ".toList.intercalate ((u :: ts).map (String.toList ∘ textIn source)))
      rw [ih hts, ← hl.kind_eq] at hspace
      exact hspace

/-- **Tokens written with spaces between them are read back,** and each by itself. -/
theorem respaced (source : String) :
    (ofSource (" ".intercalate ((beforeEnd source).map (textIn source)))).map kind =
        (ofSource source).map kind ∧
      ∀ t ∈ beforeEnd source, (ofSource (t.textIn source)).map kind = [t.kind, .endOfFile] := by
  constructor
  · obtain ⟨eof, heq, heof⟩ := ofSource_eq_append source
    rw [map_kind_ofSource, kinds_scan_spaced fun t ht => exists_reads ht, heq, List.map_append,
      List.map_singleton, heof]
  · intro t ht
    obtain ⟨l, before, rest, hl⟩ := exists_reads ht
    rw [map_kind_ofSource, hl.textIn_eq, hl.whole.kinds_eq hl.solid, hl.kind_eq]
    rfl

/-- A number that is too large is one, whatever stands behind it. -/
theorem respaced_number :
    let source := "18446744073709551616_a"
    let t : Token String := ⟨.invalid, ⟨0, 21⟩, .atLineStart⟩
    t ∈ beforeEnd source ∧
      (ofSource (t.textIn source)).map kind = [.invalid, .endOfFile] := by
  intro source t
  have ht : t ∈ beforeEnd source := by decide +kernel
  exact ⟨ht, (respaced source).2 t ht⟩

end Token

end PlatformGate
