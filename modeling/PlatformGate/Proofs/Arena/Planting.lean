/-
# Laying out trees plants a forest

While trees are laid out, the roots of the arena are what has been kept and not yet been named.  Each
step turns some roots into others (`Turns`), and the steps of a layout fit together: laying out a
tree adds one root to those there were, whatever they were.  What a module is laid out to is then a
forest with the list of its statements as the only root (`Stmt.layoutModule_turns`).

That only an `if` stands behind an `else` without braces is no matter of layout.  It holds of the
trees that were read (`Parser.topLevel_fills`), and laying them out keeps it.
-/
import PlatformGate.Proofs.Arena.Forest
import PlatformGate.Proofs.Nesting.Lines

namespace PlatformGate

variable {ρ α β : Type}

/-! ## 1. Roots and steps -/

namespace Arena

/-- The action leads from a forest with some roots to one with roots that go with its result. -/
def Turns (ps : List Part) (m : StateM (Arena ρ) α) (qs : α → List Part) : Prop :=
  ∀ a : Arena ρ, a.Forest ps → (m.run a).2.Forest (qs (m.run a).1)

variable {ps : List Part} {m : StateM (Arena ρ) α} {qs : α → List Part} {rs : β → List Part}

theorem Turns.pure {x : α} (h : ps = qs x) : Turns ps (Pure.pure x : StateM (Arena ρ) α) qs := by
  subst h
  exact fun _ ha => ha

theorem Turns.bind {f : α → StateM (Arena ρ) β} (h : Turns ps m qs)
    (hf : ∀ x, Turns (qs x) (f x) rs) : Turns ps (m >>= f) rs :=
  fun a ha => hf _ _ (h a ha)

theorem turns_addExpr {node : ExprNode ρ} {roots : List Part} (h : ps = roots ++ node.form.parts) :
    Turns ps (addExpr node) fun i => roots ++ [.one i.ref] := by
  subst h
  exact fun a ha => ha.add (adds_expr a node)

theorem turns_addStmt {node : StmtNode ρ} {roots : List Part} (h : ps = roots ++ node.form.parts) :
    Turns ps (addStmt node) fun i => roots ++ [.one i.ref] := by
  subst h
  exact fun a ha => ha.add (adds_stmt a node)

theorem turns_addClause {node : ClauseNode ρ} {roots : List Part}
    (h : ps = roots ++ node.form.parts) :
    Turns ps (addClause node) fun i => roots ++ [.one i.ref] := by
  subst h
  exact fun a ha => ha.add (adds_clause a node)

/-- Members of a list that are not stored yet. -/
def members {s : NodeSort} (is : List (Id s)) : List Part := (is.map Id.ref).map Part.one

theorem turns_addExprs {is : List (Id .expr)} {roots : List Part} (h : ps = roots ++ members is) :
    Turns ps (addExprs (ρ := ρ) is) fun r => roots ++ [.list r] := by
  subst h
  exact fun a ha => ha.store (stores_exprs a is)

theorem turns_addStmts {is : List (Id .stmt)} {roots : List Part} (h : ps = roots ++ members is) :
    Turns ps (addStmts (ρ := ρ) is) fun r => roots ++ [.list r] := by
  subst h
  exact fun a ha => ha.store (stores_stmts a is)

theorem turns_addClauses {is : List (Id .clause)} {roots : List Part}
    (h : ps = roots ++ members is) :
    Turns ps (addClauses (ρ := ρ) is) fun r => roots ++ [.list r] := by
  subst h
  exact fun a ha => ha.store (stores_clauses a is)

theorem members_cons {s : NodeSort} (ps : List Part) (i : Id s) (is : List (Id s)) :
    (ps ++ [.one i.ref]) ++ members is = ps ++ members (i :: is) := List.append_assoc ..

end Arena

open Arena

/-! ## 2. Expressions and clauses -/

namespace Expr

mutual

/-- **An expression that is laid out becomes one root more.** -/
theorem layout_turns : ∀ (e : Expr ρ) (ps : List Part),
    Turns ps (layout e) fun i => ps ++ [.one i.ref]
  | int .., ps | bool .., ps | ident .., ps | discard .., ps | error .., ps => by
    rw [layout]
    exact turns_addExpr (List.append_nil ps).symm
  | paren e _, ps | unary _ e _, ps => by
    rw [layout]
    exact (layout_turns e ps).bind fun i => turns_addExpr rfl
  | tuple [] _, ps => by
    rw [layout]
    exact fun a ha => turns_addExpr rfl a ha.empty
  | tuple (e :: es) _, ps => by
    rw [layout]
    refine (layout_turns e ps).bind fun i => (layoutAll_turns es _).bind fun is => ?_
    exact (turns_addExprs (members_cons ps i is)).bind fun r => turns_addExpr rfl
  | call c es _, ps => by
    rw [layout]
    refine (layout_turns c ps).bind fun i => (layoutAll_turns es _).bind fun is => ?_
    exact (turns_addExprs rfl).bind fun r => turns_addExpr (List.append_assoc ..)
  | binary _ l r _, ps | assign l r _, ps => by
    rw [layout]
    refine (layout_turns l ps).bind fun i => (layout_turns r _).bind fun j => ?_
    exact turns_addExpr (List.append_assoc ..)
  | ternary c t e _, ps => by
    rw [layout]
    refine (layout_turns c ps).bind fun i => (layout_turns t _).bind fun j => ?_
    refine (layout_turns e _).bind fun k => turns_addExpr ?_
    simp [ExprForm.parts]

theorem layoutAll_turns : ∀ (es : List (Expr ρ)) (ps : List Part),
    Turns ps (layoutAll es) fun is => ps ++ members is
  | [], ps => by
    rw [layoutAll]
    exact .pure (List.append_nil ps).symm
  | e :: es, ps => by
    rw [layoutAll]
    refine (layout_turns e ps).bind fun i => (layoutAll_turns es _).bind fun is => ?_
    exact .pure (members_cons ps i is)

end

theorem layout?_turns (e? : Option (Expr ρ)) (ps : List Part) :
    Turns ps (layout? e?) fun i? => ps ++ optionParts i? := by
  cases e? with
  | none => exact .pure (List.append_nil ps).symm
  | some e => exact (layout_turns e ps).bind fun i => .pure rfl

end Expr

namespace Clause

theorem layout_turns (c : Clause ρ) (ps : List Part) :
    Turns ps (layout c) fun i => ps ++ [.one i.ref] := by
  cases c with
  | expr e p => exact (e.layout_turns ps).bind fun i => turns_addClause rfl
  | binding m b init p => exact (Expr.layout?_turns init ps).bind fun i? => turns_addClause rfl
  | matching e init p =>
    refine (e.layout_turns ps).bind fun i => (init.layout_turns _).bind fun j => ?_
    exact turns_addClause (List.append_assoc ..)
  | availability q => exact turns_addClause (List.append_nil ps).symm

theorem layoutAll_turns (cs : List (Clause ρ)) (ps : List Part) :
    Turns ps (layoutAll cs) fun is => ps ++ members is := by
  induction cs generalizing ps with
  | nil => exact .pure (List.append_nil ps).symm
  | cons c cs ih =>
    refine (c.layout_turns ps).bind fun i => (ih _).bind fun is => ?_
    exact .pure (members_cons ps i is)

theorem layoutHeader_turns (cs : List (Clause ρ)) (ps : List Part) :
    Turns ps (layoutHeader cs) fun r => ps ++ [.list r] :=
  (layoutAll_turns cs ps).bind fun _ => turns_addClauses rfl

end Clause

/-! ## 3. Statements -/

namespace Stmt

/-- An `if` is held as an `if`. -/
theorem Held.isIf {a : Arena ρ} {s : Stmt ρ} {i : Id .stmt} (h : s.Held a i)
    (hif : s.isIf = true) : ∃ node, a.stmts.get? i = some node ∧ node.form.isIf = true := by
  cases s with
  | ifStmt cs b e p =>
    obtain ⟨r, body, other, hi, -⟩ := h
    exact ⟨_, hi, rfl⟩
  | _ => cases hif

mutual

/-- **A statement that is laid out becomes one root more.** -/
theorem layout_turns : ∀ (s : Stmt ρ) (ps : List Part), s.Chained →
    Turns ps (layout s) fun i => ps ++ [.one i.ref]
  | expr e _, ps, _ => by
    rw [layout]
    exact (e.layout_turns ps).bind fun i => turns_addStmt rfl
  | declaration _ _ e? _, ps, _ | returnStmt e? _, ps, _ => by
    rw [layout]
    exact (Expr.layout?_turns e? ps).bind fun i? => turns_addStmt rfl
  | ifStmt cs b e _, ps, h => by
    rw [layout]
    refine (Clause.layoutHeader_turns cs ps).bind fun r => ?_
    refine (layoutBody_turns b _ h.1).bind fun b? => ?_
    refine (layoutAlternative_turns e _ h.2).bind fun e? => turns_addStmt ?_
    simp [StmtForm.parts]
  | guardStmt cs b _, ps, h | whileStmt cs b _, ps, h => by
    rw [layout]
    refine (Clause.layoutHeader_turns cs ps).bind fun r => ?_
    exact (layoutBody_turns b _ h).bind fun b? => turns_addStmt (List.append_assoc ..)

theorem layoutBody_turns : ∀ (b : Body ρ) (ps : List Part), BodyChained b →
    Turns ps (layoutBody b) fun b? => ps ++ blockParts b?
  | .missing, ps, _ => by
    rw [layoutBody]
    exact .pure (List.append_nil ps).symm
  | .block ss _, ps, h => by
    rw [layoutBody]
    refine (layoutAll_turns ss ps h).bind fun is => ?_
    exact (turns_addStmts rfl).bind fun r => .pure rfl

theorem layoutAlternative_turns : ∀ (e : Alternative ρ) (ps : List Part), AlternativeChained e →
    Turns ps (layoutAlternative e) fun e? => ps ++ elseParts e?
  | .body b, ps, h => by
    rw [layoutAlternative]
    refine (layoutBody_turns b ps h).bind fun b? => .pure ?_
    cases b? <;> rfl
  | .elseIf s, ps, h => by
    rw [layoutAlternative]
    intro a ha
    -- the statement is held as the `if` that it is
    obtain ⟨node, hnode, hif⟩ := ((layout_holds s) a).2.isIf h.1
    exact (layout_turns s ps h.2 a ha).elseIf hnode hif

theorem layoutAll_turns : ∀ (ss : List (Stmt ρ)) (ps : List Part), ChainedAll ss →
    Turns ps (layoutAll ss) fun is => ps ++ members is
  | [], ps, _ => by
    rw [layoutAll]
    exact .pure (List.append_nil ps).symm
  | s :: ss, ps, h => by
    rw [layoutAll]
    refine (layout_turns s ps h.1).bind fun i => (layoutAll_turns ss _ h.2).bind fun is => ?_
    exact .pure (members_cons ps i is)

end

/-- **A module that is laid out is the only root.** -/
theorem layoutModule_turns (ss : List (Stmt ρ)) (h : ChainedAll ss) :
    Turns [] (layoutModule ss) fun r => [.list r] :=
  (layoutAll_turns ss [] h).bind fun _ => turns_addStmts rfl

/-! ## 4. Chains -/

variable {σ : Type}

mutual

theorem chained_map (f : ρ → σ) : ∀ s : Stmt ρ, s.Chained → (map f s).Chained
  | expr .., _ | declaration .., _ | returnStmt .., _ => trivial
  | ifStmt _ b a _, h => ⟨bodyChained_map f b h.1, alternativeChained_map f a h.2⟩
  | guardStmt _ b _, h | whileStmt _ b _, h => bodyChained_map f b h

theorem bodyChained_map (f : ρ → σ) : ∀ b : Body ρ, BodyChained b → BodyChained (mapBody f b)
  | .missing, _ => trivial
  | .block ss _, h => chainedAll_map f ss h

theorem alternativeChained_map (f : ρ → σ) : ∀ a : Alternative ρ, AlternativeChained a →
    AlternativeChained (mapAlternative f a)
  | .body b, h => bodyChained_map f b h
  | .elseIf s, h => by
    refine ⟨?_, chained_map f s h.2⟩
    rw [← h.1]
    cases s <;> rfl

theorem chainedAll_map (f : ρ → σ) : ∀ ss : List (Stmt ρ), ChainedAll ss →
    ChainedAll (mapAll f ss)
  | [], _ => trivial
  | s :: ss, h => ⟨chained_map f s h.1, chainedAll_map f ss h.2⟩

end

end Stmt

/-- **Every outcome is a forest in post-order.**  However malformed the source, the module is the
only root of the arena: all nodes hang under it, each named exactly once. -/
theorem Outcome.forest_ofSource (source : String) (limit : Nat) :
    (ofSource source limit).arena.Forest [.list (ofSource source limit).module] := by
  have hread := Parser.topLevel_fills (Input.start (Terminal.ofTokens (Token.ofSource source)))
  exact Stmt.layoutModule_turns _ (Stmt.chainedAll_map _ _ hread.chained) {} forest_empty

end PlatformGate
