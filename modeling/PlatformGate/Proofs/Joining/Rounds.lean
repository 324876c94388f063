/-
# Statements again in front of a new line

The loop over the top level gives its statements again where a line follows that begins anew, and so
does the loop over a block, if there was nothing to report.  The two loops end differently: the top
level with the source, a block with its `}`.  So the rounds are compared one by one, and the loops by
`collect_onto`.
-/
import PlatformGate.Proofs.Joining.OntoLines

namespace PlatformGate

namespace Parser

variable {α : Type} {line : List Terminal} {i : Input}

/-! ## 1. Loops -/

/-- **A loop without a report is gone through in front of the line as well,** and starts over where
it ended.  The rounds there may be those of another loop. -/
theorem collect_onto {p q : Parser (Option α)} (hp : ∀ n, AdvancesUpTo n p)
    (hq : ∀ n, AdvancesUpTo n q)
    (hround : ∀ i a, (p i).value = some a → (p i).reports = [] →
      q (i.onto line) = ⟨some a, [], (p i).next.onto line⟩)
    (hstop : ∀ i, (p i).value = none → (p i).next = i) {r : Step (List α)}
    (hquiet : (collect p i).reports = []) (hr : collect q ((collect p i).next.onto line) = r) :
    collect q (i.onto line) = ⟨(collect p i).value ++ r.value, r.reports, r.next⟩ := by
  induction hn : i.rest.length using Nat.strongRecOn generalizing i with
  | ind n ih =>
    have hloop := collect_eq (hp i.rest.length)
    rw [round, bind_apply] at hloop
    cases hvalue : (p i).value with
    | none =>
      simp only [hvalue, hstop i hvalue, pure_apply, List.append_nil] at hloop
      rw [hloop] at hr ⊢
      rw [← hr]
      rfl
    | some a =>
      have hlt : (p i).next.rest.length < i.rest.length :=
        hp _ i (Nat.le_refl _) (by rw [hvalue]; rfl)
      simp only [hvalue, bind_apply, pure_apply, List.append_nil] at hloop
      rw [hloop] at hquiet hr ⊢
      obtain ⟨hreports, hrest⟩ := List.append_eq_nil_iff.mp hquiet
      have hagain := ih _ (hn ▸ hlt) hrest hr rfl
      rw [collect_eq (hq _), round, bind_apply, hround i a hvalue hreports]
      simp only [bind_apply, pure_apply, hagain, List.nil_append, List.append_nil, List.cons_append]

/-! ## 2. Rounds over statements -/

/-- The top level stops where the source ends. -/
theorem topLevelItem?_stop (i : Input) (h : (topLevelItem? i).value = none) :
    (topLevelItem? i).next = i := by
  have hreads := topLevelItem?_reads i
  unfold Ensures at hreads
  rw [h] at hreads
  exact hreads.2.1

/-- While something is left, a round of the top level is an item. -/
theorem topLevelItem?_eq (hne : i.rest ≠ []) : topLevelItem? i =
    ⟨some (item stmt .topLevel i).value, (item stmt .topLevel i).reports,
      (item stmt .topLevel i).next⟩ := by
  obtain ⟨p, rest⟩ := i
  obtain ⟨t, ts, rfl⟩ := List.exists_cons_of_ne_nil hne
  have hitem : topLevelItem? ⟨p, t :: ts⟩ =
      (do let s ← item stmt .topLevel; return some s : Parser _) ⟨p, t :: ts⟩ := rfl
  rw [hitem]
  simp only [bind_apply, pure_apply, List.append_nil]

/-- Only while something is left does a round give something. -/
theorem rest_ne_nil_of_some {s? : Option (Stmt Run)} (h : (topLevelItem? i).value = some s?) :
    i.rest ≠ [] := by
  obtain ⟨p, rest⟩ := i
  rintro rfl
  exact absurd h nofun

theorem atEnd_onto (h : i.rest ≠ []) : atEnd (i.onto line) = ⟨false, [], i.onto line⟩ := by
  obtain ⟨t, ts, hts⟩ := List.exists_cons_of_ne_nil h
  unfold atEnd Input.onto
  rw [hts]
  rfl

section Rounds

variable (hline : Separate line)
variable {s? : Option (Stmt Run)} (hvalue : (topLevelItem? i).value = some s?)
variable (hquiet : (topLevelItem? i).reports = [])

include hline hvalue hquiet

/-- A round of the top level without a report is a round in front of the line. -/
theorem topLevelItem?_onto :
    topLevelItem? (i.onto line) = ⟨some s?, [], (topLevelItem? i).next.onto line⟩ := by
  have hne := rest_ne_nil_of_some hvalue
  rw [topLevelItem?_eq hne] at hvalue hquiet ⊢
  obtain rfl := Option.some.inj hvalue
  simp only [topLevelItem?, bind_apply, atEnd_onto hne, Bool.false_eq_true, ↓reduceIte, pure_apply,
    item_onto hline (.inl rfl) hne (stmt_carries hline i) hquiet, List.append_nil]

/-- **It is also a round of a block.** -/
theorem blockItem?_onto (opener : Nat) :
    blockItem? stmt opener (i.onto line) = ⟨some s?, [], (topLevelItem? i).next.onto line⟩ := by
  have hne := rest_ne_nil_of_some hvalue
  rw [topLevelItem?_eq hne] at hvalue hquiet ⊢
  obtain rfl := Option.some.inj hvalue
  have hclose : (i.onto line).kind ≠ .fixed .rbrace := by
    have hstart := statementStart_of_quiet hne hquiet
    rw [Input.kind_onto hne]
    intro hk
    rw [hk] at hstart
    exact absurd hstart (by decide)
  have heat : eat .rbrace (i.onto line) = ⟨false, [], i.onto line⟩ := by
    simp only [eat, beq_false_of_ne hclose, Bool.false_eq_true, ↓reduceIte]
  simp only [blockItem?, bind_apply, heat, atEnd_onto hne, Bool.false_eq_true, ↓reduceIte,
    pure_apply, item_onto hline (.inr rfl) hne (stmt_carries hline i) hquiet, List.append_nil]

end Rounds

end Parser

end PlatformGate
