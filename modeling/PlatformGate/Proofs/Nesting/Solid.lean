/-
# Complete trees

A node covers a terminal unless it stands for something that is missing.  So in a tree without a hole
every place is that of some terminals, of which the first and the last are among those of the source.
-/
import PlatformGate.Proofs.Nesting.Outline
import PlatformGate.Proofs.Printing.Marks

namespace PlatformGate

variable {n : Nat}

namespace Outline

/-- The outline is nested and ends among `n` terminals. -/
structure Among (n : Nat) (o : Outline Run) : Prop where
  nested : o.Nested
  past : o.place.past ≤ n

variable {hollow : Bool} {p : Run} {os : List (Outline Run)}

/-- A node that is not hollow covers some of the terminals. -/
theorem Among.solid (h : (node false p os).Among n) : p.Solid n := by
  obtain ⟨⟨hhollow, hrow⟩, hpast⟩ := h
  have hne : p.first ≠ p.past := fun heq => absurd (hhollow heq) Bool.false_ne_true
  exact ⟨Nat.lt_of_le_of_ne (Row.le os hrow) hne, hpast⟩

theorem Among.parts (h : (node hollow p os).Among n) : ∀ o ∈ os, o.Among n := by
  intro o ho
  obtain ⟨hnested, -, hlast⟩ := Row.bounds h.nested.2 o ho
  exact ⟨hnested, Nat.le_trans hlast h.past⟩

/-- The only part of a node. -/
theorem Among.part {o : Outline Run} (h : (node hollow p [o]).Among n) : o.Among n :=
  h.parts o (List.mem_singleton_self o)

end Outline

namespace Expr

mutual

/-- **Every place in a complete expression covers a terminal.** -/
theorem everywhere_solid : ∀ e : Expr Run, e.isComplete = true → e.outline.Among n →
    e.Everywhere (Run.Solid n)
  | int _ _, _, h | bool _ _, _, h | ident _ _, _, h | discard _, _, h => h.solid
  | error _, hc, _ => absurd hc Bool.false_ne_true
  | paren e _, hc, h | unary _ e _, hc, h => ⟨everywhere_solid e hc h.part, h.solid⟩
  | tuple es _, hc, h => ⟨everywhereAll_solid es hc h.parts, h.solid⟩
  | call c es _, hc, h => by
    obtain ⟨hc, hes⟩ := Bool.and_eq_true_iff.mp hc
    obtain ⟨hcallee, hargs⟩ := List.forall_mem_cons.mp h.parts
    exact ⟨everywhere_solid c hc hcallee, everywhereAll_solid es hes hargs, h.solid⟩
  | binary _ l r _, hc, h | assign l r _, hc, h => by
    obtain ⟨hl, hr⟩ := Bool.and_eq_true_iff.mp hc
    obtain ⟨hleft, hright⟩ := List.forall_mem_cons.mp h.parts
    exact ⟨everywhere_solid l hl hleft, everywhere_solid r hr (List.forall_mem_singleton.mp hright),
      h.solid⟩
  | ternary c t e _, hc, h => by
    obtain ⟨hc, hte⟩ := Bool.and_eq_true_iff.mp hc
    obtain ⟨ht, he⟩ := Bool.and_eq_true_iff.mp hte
    obtain ⟨hcond, hbranches⟩ := List.forall_mem_cons.mp h.parts
    obtain ⟨htrue, hfalse⟩ := List.forall_mem_cons.mp hbranches
    exact ⟨everywhere_solid c hc hcond, everywhere_solid t ht htrue,
      everywhere_solid e he (List.forall_mem_singleton.mp hfalse), h.solid⟩

theorem everywhereAll_solid : ∀ es : List (Expr Run), allComplete es = true →
    (∀ o ∈ outlines es, o.Among n) → EverywhereAll (Run.Solid n) es
  | [], _, _ => trivial
  | e :: es, hc, h => by
    obtain ⟨hc, hes⟩ := Bool.and_eq_true_iff.mp hc
    obtain ⟨hfirst, hothers⟩ := List.forall_mem_cons.mp h
    exact ⟨everywhere_solid e hc hfirst, everywhereAll_solid es hes hothers⟩

end

/-- An expression that may be left out. -/
theorem option_everywhere_solid {e? : Option (Expr Run)} (hc : e?.all isComplete = true)
    (h : ∀ o ∈ e?.toList.map outline, o.Among n) : ∀ e ∈ e?, e.Everywhere (Run.Solid n) := by
  rintro e rfl
  exact everywhere_solid e hc (h _ (List.mem_singleton_self _))

end Expr

theorem Pattern.place_solid {b : Pattern Run} (hc : b.isComplete = true)
    (h : b.outline.Among n) : b.place.Solid n := by
  cases b with
  | missing p => exact absurd hc Bool.false_ne_true
  | _ => exact h.solid

theorem Clause.everywhere_solid {c : Clause Run} (hc : c.isComplete = true)
    (h : c.outline.Among n) : c.Everywhere (Run.Solid n) := by
  cases c with
  | expr e p =>
    have hvalue : e.isError = false := by
      cases e with
      | error p => exact absurd hc Bool.false_ne_true
      | _ => rfl
    rw [outline, hvalue] at h
    exact ⟨Expr.everywhere_solid e hc h.part, h.solid⟩
  | binding m b init p =>
    obtain ⟨hb, hinit⟩ := Bool.and_eq_true_iff.mp hc
    obtain ⟨hpattern, hvalue⟩ := List.forall_mem_cons.mp h.parts
    exact ⟨Pattern.place_solid hb hpattern, Expr.option_everywhere_solid hinit hvalue, h.solid⟩
  | matching e init p =>
    obtain ⟨he, hinit⟩ := Bool.and_eq_true_iff.mp hc
    obtain ⟨hpattern, hvalue⟩ := List.forall_mem_cons.mp h.parts
    exact ⟨Expr.everywhere_solid e he hpattern,
      Expr.everywhere_solid init hinit (List.forall_mem_singleton.mp hvalue), h.solid⟩
  | availability q =>
    refine ⟨h.part.solid, fun e he => ?_⟩
    exact (h.part.parts e.outline (List.mem_map_of_mem he)).solid

namespace Stmt

/-- The clauses of a complete header. -/
theorem clauses_solid {cs : List (Clause Run)} (hc : cs.all Clause.isComplete = true)
    (h : ∀ o ∈ cs.map Clause.outline, o.Among n) : ∀ c ∈ cs, c.Everywhere (Run.Solid n) :=
  fun c hmem => Clause.everywhere_solid (List.all_eq_true.mp hc c hmem)
    (h _ (List.mem_map_of_mem hmem))

mutual

/-- **Every place in a complete statement covers a terminal.** -/
theorem everywhere_solid : ∀ s : Stmt Run, s.isComplete = true → s.outline.Among n →
    s.Everywhere (Run.Solid n)
  | expr e _, hc, h => ⟨Expr.everywhere_solid e hc h.part, h.solid⟩
  | declaration _ b init _, hc, h => by
    obtain ⟨hb, hinit⟩ := Bool.and_eq_true_iff.mp hc
    obtain ⟨hpattern, hvalue⟩ := List.forall_mem_cons.mp h.parts
    exact ⟨Pattern.place_solid hb hpattern, Expr.option_everywhere_solid hinit hvalue, h.solid⟩
  | ifStmt cs b a _, hc, h => by
    obtain ⟨hc, ha⟩ := Bool.and_eq_true_iff.mp hc
    obtain ⟨hcs, hb⟩ := Bool.and_eq_true_iff.mp hc
    obtain ⟨hheader, hbodies⟩ := List.forall_mem_append.mp h.parts
    obtain ⟨hbody, helse⟩ := List.forall_mem_append.mp hbodies
    exact ⟨clauses_solid hcs hheader, bodyEverywhere_solid b hb hbody,
      alternativeEverywhere_solid a ha helse, h.solid⟩
  | guardStmt cs b _, hc, h | whileStmt cs b _, hc, h => by
    obtain ⟨hcs, hb⟩ := Bool.and_eq_true_iff.mp hc
    obtain ⟨hheader, hbody⟩ := List.forall_mem_append.mp h.parts
    exact ⟨clauses_solid hcs hheader, bodyEverywhere_solid b hb hbody, h.solid⟩
  | returnStmt _ _, hc, h => ⟨Expr.option_everywhere_solid hc h.parts, h.solid⟩

theorem bodyEverywhere_solid : ∀ b : Body Run, isCompleteBody b = true →
    (∀ o ∈ bodyOutlines b, o.Among n) → BodyEverywhere (Run.Solid n) b
  | .missing, _, _ => trivial
  | .block ss _, hc, h => by
    have hblock := List.forall_mem_singleton.mp h
    exact ⟨everywhereAll_solid ss hc hblock.parts, hblock.solid⟩

theorem alternativeEverywhere_solid : ∀ a : Alternative Run, isCompleteAlternative a = true →
    (∀ o ∈ alternativeOutlines a, o.Among n) → AlternativeEverywhere (Run.Solid n) a
  | .body .missing, _, _ => trivial
  | .body (.block ss p), hc, h => bodyEverywhere_solid (.block ss p) hc h
  | .elseIf s, hc, h => everywhere_solid s hc (List.forall_mem_singleton.mp h)

theorem everywhereAll_solid : ∀ ss : List (Stmt Run), allComplete ss = true →
    (∀ o ∈ outlines ss, o.Among n) → EverywhereAll (Run.Solid n) ss
  | [], _, _ => trivial
  | s :: ss, hc, h => by
    obtain ⟨hc, hss⟩ := Bool.and_eq_true_iff.mp hc
    obtain ⟨hfirst, hothers⟩ := List.forall_mem_cons.mp h
    exact ⟨everywhere_solid s hc hfirst, everywhereAll_solid ss hss hothers⟩

end

end Stmt

end PlatformGate
