/-
# The parser accepts exactly its grammar

A source is read without a diagnostic if and only if its tokens are derived as a module.  From left
to right a silent reading is a derivation (`Parser.topLevel_sound`); from right to left a derivation
is read in silence (`Parser.topLevel_complete`), for which the line flags of the tokens have to be
those of a source.
-/
import PlatformGate.Proofs.Grammar.CompleteLines
import PlatformGate.Proofs.Report.Emit
import PlatformGate.Proofs.Token.Flags

namespace PlatformGate

open Grammar

/-- The terminals of a source are lined behind the first. -/
theorem lined_ofSource (source : String) :
    Lined (Terminal.ofTokens (Token.ofSource source)).tail := by
  intro t ht hline
  have htokens := Token.lined_tail_ofLexemes (Lexeme.scan source.toList) 0 Layout.atLineStart
  rw [Terminal.ofTokens, ← List.map_tail] at ht
  obtain ⟨token, htoken, rfl⟩ := List.mem_map.mp ht
  refine htokens token ?_ hline
  exact (List.takeWhile_sublist _).tail.subset htoken

namespace Outcome

/-- **A source has no diagnostics exactly if its tokens are derived as a module,** by their kinds
and line flags. -/
theorem no_diagnostics_iff_derives (source : String) :
    (ofSource source 0).diagnostics = [] ↔
      Derives (.ref .stmts) (Terminal.ofTokens (Token.ofSource source)) [] := by
  rw [diagnostics_ofSource, List.map_eq_nil_iff]
  constructor
  · intro hsilent
    have hsound := Parser.topLevel_sound (Input.start (Terminal.ofTokens (Token.ofSource source)))
    have hend := Parser.topLevel_reads (Input.start (Terminal.ofTokens (Token.ofSource source)))
    have hderives := hsound hsilent
    rw [hend.2.1] at hderives
    exact hderives
  · intro hderives
    exact (Parser.topLevel_complete (i := Input.start _) (lined_ofSource source) hderives).1

end Outcome

end PlatformGate
