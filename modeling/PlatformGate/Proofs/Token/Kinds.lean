/-
# The kinds of the tokens of a source

The tokens of a source are its lexemes without the trivia, and an end of file behind them.  No lexeme
is an end of file; so the terminals that a reader sees are all tokens but the last.
-/
import PlatformGate.Parse.Step
import PlatformGate.Token.Reading

namespace PlatformGate

namespace Lexeme

/-- The kinds of the tokens among some lexemes. -/
def kinds (ls : List Lexeme) : List (Kind String) :=
  (ls.filter fun l => l.shape.mark?.isNone).map kind

theorem kind_ne_endOfFile (l : Lexeme) : l.kind ≠ .endOfFile := by
  unfold kind
  intro h
  split at h
  · cases h
  · split at h
    · cases h
    · cases h
    · unfold numberKind at h
      split at h <;> cases h
    · cases h

theorem endOfFile_not_mem_kinds (ls : List Lexeme) : Kind.endOfFile ∉ kinds ls := by
  intro h
  obtain ⟨l, -, hl⟩ := List.mem_map.mp h
  exact kind_ne_endOfFile l hl

end Lexeme

/-- The kinds of the tokens are those of the lexemes without the trivia, and the end of file. -/
theorem Token.kinds_ofLexemes (offset : Nat) (pending : Layout) (ls : List Lexeme) :
    (Token.ofLexemes offset pending ls).map Token.kind = Lexeme.kinds ls ++ [.endOfFile] := by
  induction ls generalizing offset pending with
  | nil => rfl
  | cons l ls ih =>
    rw [Token.ofLexemes, Lexeme.kinds]
    cases hmark : l.shape.mark? with
    | some mark =>
      rw [List.filter_cons_of_neg (by simp [hmark])]
      exact ih _ _
    | none =>
      rw [List.filter_cons_of_pos (by simp [hmark]), List.map_cons, List.map_cons]
      exact congrArg (l.kind :: ·) (ih _ _)

/-- **The end of file is the last token,** and there is no other. -/
theorem Token.exists_ofSource (source : String) :
    ∃ ts t, Token.ofSource source = ts ++ [t] ∧ t.kind = .endOfFile ∧
      ∀ u ∈ ts, u.kind ≠ .endOfFile := by
  have hkinds : (Token.ofSource source).map Token.kind = _ :=
    Token.kinds_ofLexemes 0 Layout.atLineStart (Lexeme.scan source.toList)
  obtain ⟨ts, us, heq, hts, hus⟩ := List.map_eq_append_iff.mp hkinds
  obtain ⟨t, us, rfl, ht, hnil⟩ := List.map_eq_cons_iff.mp hus
  obtain rfl := List.map_eq_nil_iff.mp hnil
  refine ⟨ts, t, heq, ht, ?_⟩
  intro u hu hend
  apply Lexeme.endOfFile_not_mem_kinds (Lexeme.scan source.toList)
  rw [← hts, ← hend]
  exact List.mem_map_of_mem hu

namespace Terminal

/-- The terminals are the tokens in front of the end of file. -/
theorem ofTokens_append {ts : List (Token String)} {t : Token String} (ht : t.kind = .endOfFile)
    (hts : ∀ u ∈ ts, u.kind ≠ .endOfFile) : ofTokens (ts ++ [t]) = ts.map ofToken := by
  unfold ofTokens
  rw [List.takeWhile_append_of_pos fun u hu => bne_iff_ne.mpr (hts u hu)]
  simp [ht]

/-- There is one token more than there are terminals. -/
theorem length_ofSource (source : String) :
    (Token.ofSource source).length = (ofTokens (Token.ofSource source)).length + 1 := by
  obtain ⟨ts, t, heq, ht, hts⟩ := Token.exists_ofSource source
  rw [heq, ofTokens_append ht hts, List.length_map, List.length_append]
  rfl

theorem kinds_ofSource (source : String) :
    (ofTokens (Token.ofSource source)).map Terminal.kind ++ [.endOfFile] =
      (Token.ofSource source).map Token.kind := by
  obtain ⟨ts, t, heq, ht, hts⟩ := Token.exists_ofSource source
  rw [heq, ofTokens_append ht hts, List.map_map, List.map_append, List.map_singleton, ht]
  rfl

end Terminal

end PlatformGate
