/-
# Where the nodes of a tree stand

Every node of a syntax tree says from which run of terminals it was read.  `Everywhere P` says that
`P` holds of all the places in a tree, and `Run.Within lo hi` that a run lies between two indexes.
The lemmas here are about trees alone: putting operators in front, calls behind, and grouping a
chain of operators keep all places between the first terminal and the last.
-/
import PlatformGate.Parse.Statement

namespace PlatformGate

variable {ρ : Type}

/-- The run is the right way round and lies between the two indexes. -/
def Run.Within (lo hi : Nat) (r : Run) : Prop := lo ≤ r.first ∧ r.first ≤ r.past ∧ r.past ≤ hi

theorem Run.Within.mono {lo lo' hi hi' : Nat} {r : Run} (h : r.Within lo hi) (hlo : lo' ≤ lo)
    (hhi : hi ≤ hi') : r.Within lo' hi' :=
  ⟨Nat.le_trans hlo h.1, h.2.1, Nat.le_trans h.2.2 hhi⟩

/-- The whole of a stretch lies within it. -/
theorem Run.within_self {lo hi : Nat} (h : lo ≤ hi) : (⟨lo, hi⟩ : Run).Within lo hi :=
  ⟨Nat.le_refl _, h, Nat.le_refl _⟩

/-! ## 1. Expressions -/

namespace Expr

mutual

/-- `P` holds of the place of every node. -/
def Everywhere (P : ρ → Prop) : Expr ρ → Prop
  | int _ p | bool _ p | ident _ p | discard p | error p => P p
  | paren e p | unary _ e p => Everywhere P e ∧ P p
  | tuple es p => EverywhereAll P es ∧ P p
  | call e es p => Everywhere P e ∧ EverywhereAll P es ∧ P p
  | binary _ l r p => Everywhere P l ∧ Everywhere P r ∧ P p
  | ternary c t e p => Everywhere P c ∧ Everywhere P t ∧ Everywhere P e ∧ P p
  | assign t v p => Everywhere P t ∧ Everywhere P v ∧ P p

/-- `Everywhere` for each expression of a list. -/
def EverywhereAll (P : ρ → Prop) : List (Expr ρ) → Prop
  | [] => True
  | e :: es => Everywhere P e ∧ EverywhereAll P es

end

mutual

theorem Everywhere.mono {P P' : ρ → Prop} (hP : ∀ p, P p → P' p) :
    ∀ e : Expr ρ, e.Everywhere P → e.Everywhere P'
  | int _ _, h | bool _ _, h | ident _ _, h | discard _, h | error _, h => hP _ h
  | paren e _, h | unary _ e _, h => ⟨Everywhere.mono hP e h.1, hP _ h.2⟩
  | tuple es _, h => ⟨EverywhereAll.mono hP es h.1, hP _ h.2⟩
  | call e es _, h =>
    ⟨Everywhere.mono hP e h.1, EverywhereAll.mono hP es h.2.1, hP _ h.2.2⟩
  | binary _ l r _, h => ⟨Everywhere.mono hP l h.1, Everywhere.mono hP r h.2.1, hP _ h.2.2⟩
  | ternary c t e _, h =>
    ⟨Everywhere.mono hP c h.1, Everywhere.mono hP t h.2.1, Everywhere.mono hP e h.2.2.1,
      hP _ h.2.2.2⟩
  | assign t v _, h => ⟨Everywhere.mono hP t h.1, Everywhere.mono hP v h.2.1, hP _ h.2.2⟩

theorem EverywhereAll.mono {P P' : ρ → Prop} (hP : ∀ p, P p → P' p) :
    ∀ es : List (Expr ρ), EverywhereAll P es → EverywhereAll P' es
  | [], _ => trivial
  | e :: es, h => ⟨Everywhere.mono hP e h.1, EverywhereAll.mono hP es h.2⟩

end

theorem Everywhere.root {P : ρ → Prop} {e : Expr ρ} (h : e.Everywhere P) : P e.place := by
  cases e with
  | int | bool | ident | discard | error => exact h
  | paren | tuple | unary => exact h.2
  | call | binary | assign => exact h.2.2
  | ternary => exact h.2.2.2

theorem Everywhere.widen {lo lo' hi hi' : Nat} {e : Expr Run} (h : e.Everywhere (Run.Within lo hi))
    (hlo : lo' ≤ lo) (hhi : hi ≤ hi') : e.Everywhere (Run.Within lo' hi') :=
  Everywhere.mono (fun _ hp => hp.mono hlo hhi) e h

theorem EverywhereAll.widen {lo lo' hi hi' : Nat} {es : List (Expr Run)}
    (h : EverywhereAll (Run.Within lo hi) es) (hlo : lo' ≤ lo) (hhi : hi ≤ hi') :
    EverywhereAll (Run.Within lo' hi') es :=
  EverywhereAll.mono (fun _ hp => hp.mono hlo hhi) es h

/-- The expression was read from exactly the terminals between the two indexes. -/
structure Spans (lo hi : Nat) (e : Expr Run) : Prop where
  place : e.place = ⟨lo, hi⟩
  inside : e.Everywhere (Run.Within lo hi)

theorem Spans.le {lo hi : Nat} {e : Expr Run} (h : e.Spans lo hi) : lo ≤ hi := by
  have := h.inside.root
  rw [h.place] at this
  exact this.2.1

/-- The grafted operator ends the expression where its right operand ends. -/
theorem place_graft (op : BinaryOperator) (right e : Expr Run) :
    (graft op right e).place = e.place.through right.place := by
  cases e with
  | binary o l r p =>
    unfold graft
    split <;> rfl
  | _ => rfl

theorem everywhere_graft {lo mid hi : Nat} {op : BinaryOperator} {right : Expr Run}
    (hright : right.Everywhere (Run.Within mid hi)) :
    ∀ e : Expr Run, e.Everywhere (Run.Within lo mid) → lo ≤ mid →
      (graft op right e).Everywhere (Run.Within lo hi)
  | .binary o l r p, h, hle => by
    obtain ⟨hl, hr, hp⟩ := h
    have hend := hright.root
    have hthrough : (p.through right.place).Within lo hi :=
      ⟨hp.1, Nat.le_trans hp.2.1 (Nat.le_trans hp.2.2 (Nat.le_trans hend.1 hend.2.1)),
        hend.2.2⟩
    have hmid : mid ≤ hi := Nat.le_trans hend.1 (Nat.le_trans hend.2.1 hend.2.2)
    unfold graft
    split
    · exact ⟨hl.widen (Nat.le_refl _) hmid, everywhere_graft hright r hr hle, hthrough⟩
    · exact ⟨⟨hl.widen (Nat.le_refl _) hmid, hr.widen (Nat.le_refl _) hmid,
        hp.mono (Nat.le_refl _) hmid⟩, hright.widen hle (Nat.le_refl _), hthrough⟩
  | .int .., h, hle | .bool .., h, hle | .ident .., h, hle | .discard .., h, hle
  | .paren .., h, hle | .tuple .., h, hle | .call .., h, hle | .unary .., h, hle
  | .ternary .., h, hle | .assign .., h, hle | .error .., h, hle => by
    have hp := h.root
    have hend := hright.root
    have hmid : mid ≤ hi := Nat.le_trans hend.1 (Nat.le_trans hend.2.1 hend.2.2)
    exact ⟨h.widen (Nat.le_refl _) hmid, hright.widen hle (Nat.le_refl _), hp.1,
      Nat.le_trans hp.2.1 (Nat.le_trans hp.2.2 (Nat.le_trans hend.1 hend.2.1)), hend.2.2⟩

/-- One more operator and operand behind an expression. -/
theorem Spans.graft {lo mid mid' hi : Nat} {op : BinaryOperator} {e right : Expr Run}
    (h : e.Spans lo mid) (hmid : mid ≤ mid') (hr : right.Spans mid' hi) :
    (graft op right e).Spans lo hi where
  place := by rw [place_graft, h.place, hr.place]; rfl
  inside := everywhere_graft (hr.inside.widen hmid (Nat.le_refl _)) e h.inside h.le

/-- One more call behind an expression. -/
theorem Spans.call {lo mid hi : Nat} {e : Expr Run} {args : List (Expr Run)}
    (h : e.Spans lo mid) (hmid : mid ≤ hi) (hargs : EverywhereAll (Run.Within mid hi) args) :
    (Expr.call e args ⟨e.place.first, hi⟩).Spans lo hi where
  place := by rw [h.place]; rfl
  inside := by
    refine ⟨h.inside.widen (Nat.le_refl _) hmid, hargs.widen h.le (Nat.le_refl _), ?_⟩
    rw [h.place]
    exact Run.within_self (Nat.le_trans h.le hmid)

/-- One more operator in front of an expression. -/
theorem Spans.unary {lo mid hi : Nat} {e : Expr Run} {op : UnaryOperator} (hlo : lo ≤ mid)
    (h : e.Spans mid hi) : (Expr.unary op e ⟨lo, e.place.past⟩).Spans lo hi where
  place := by rw [h.place]; rfl
  inside := by
    refine ⟨h.inside.widen hlo (Nat.le_refl _), ?_⟩
    rw [h.place]
    exact Run.within_self (Nat.le_trans hlo h.le)

end Expr

/-! ## 2. Clauses and statements -/

def Query.Everywhere (P : ρ → Prop) (q : Query ρ) : Prop :=
  P q.place ∧ ∀ e ∈ q.entries, P e.place

def Clause.Everywhere (P : ρ → Prop) : Clause ρ → Prop
  | .expr e p => e.Everywhere P ∧ P p
  | .binding _ b init p => P b.place ∧ (∀ e ∈ init, e.Everywhere P) ∧ P p
  | .matching e init p => e.Everywhere P ∧ init.Everywhere P ∧ P p
  | .availability q => q.Everywhere P

theorem Clause.Everywhere.mono {P P' : ρ → Prop} (hP : ∀ p, P p → P' p) {c : Clause ρ}
    (h : c.Everywhere P) : c.Everywhere P' := by
  cases c with
  | expr e p => exact ⟨Expr.Everywhere.mono hP e h.1, hP _ h.2⟩
  | binding m b init p =>
    exact ⟨hP _ h.1, fun e he => Expr.Everywhere.mono hP e (h.2.1 e he), hP _ h.2.2⟩
  | matching e init p =>
    exact ⟨Expr.Everywhere.mono hP e h.1, Expr.Everywhere.mono hP init h.2.1, hP _ h.2.2⟩
  | availability q => exact ⟨hP _ h.1, fun e he => hP _ (h.2 e he)⟩

namespace Stmt

mutual

/-- `P` holds of the place of every node. -/
def Everywhere (P : ρ → Prop) : Stmt ρ → Prop
  | expr e p => e.Everywhere P ∧ P p
  | declaration _ b init p => P b.place ∧ (∀ e ∈ init, e.Everywhere P) ∧ P p
  | ifStmt cs b a p =>
    (∀ c ∈ cs, c.Everywhere P) ∧ BodyEverywhere P b ∧ AlternativeEverywhere P a ∧ P p
  | guardStmt cs b p | whileStmt cs b p =>
    (∀ c ∈ cs, c.Everywhere P) ∧ BodyEverywhere P b ∧ P p
  | returnStmt e p => (∀ v ∈ e, v.Everywhere P) ∧ P p

/-- `Everywhere` for a body. -/
def BodyEverywhere (P : ρ → Prop) : Body ρ → Prop
  | .missing => True
  | .block ss p => EverywhereAll P ss ∧ P p

/-- `Everywhere` for what follows `else`. -/
def AlternativeEverywhere (P : ρ → Prop) : Alternative ρ → Prop
  | .body b => BodyEverywhere P b
  | .elseIf s => Everywhere P s

/-- `Everywhere` for each statement of a list. -/
def EverywhereAll (P : ρ → Prop) : List (Stmt ρ) → Prop
  | [] => True
  | s :: ss => Everywhere P s ∧ EverywhereAll P ss

end

mutual

theorem Everywhere.mono {P P' : ρ → Prop} (hP : ∀ p, P p → P' p) :
    ∀ s : Stmt ρ, s.Everywhere P → s.Everywhere P'
  | expr e _, h => ⟨Expr.Everywhere.mono hP e h.1, hP _ h.2⟩
  | declaration _ _ _ _, h =>
    ⟨hP _ h.1, fun e he => Expr.Everywhere.mono hP e (h.2.1 e he), hP _ h.2.2⟩
  | ifStmt _ b a _, h =>
    ⟨fun c hc => (h.1 c hc).mono hP, BodyEverywhere.mono hP b h.2.1,
      AlternativeEverywhere.mono hP a h.2.2.1, hP _ h.2.2.2⟩
  | guardStmt _ b _, h | whileStmt _ b _, h =>
    ⟨fun c hc => (h.1 c hc).mono hP, BodyEverywhere.mono hP b h.2.1, hP _ h.2.2⟩
  | returnStmt _ _, h => ⟨fun e he => Expr.Everywhere.mono hP e (h.1 e he), hP _ h.2⟩

theorem BodyEverywhere.mono {P P' : ρ → Prop} (hP : ∀ p, P p → P' p) :
    ∀ b : Body ρ, BodyEverywhere P b → BodyEverywhere P' b
  | .missing, _ => trivial
  | .block ss _, h => ⟨EverywhereAll.mono hP ss h.1, hP _ h.2⟩

theorem AlternativeEverywhere.mono {P P' : ρ → Prop} (hP : ∀ p, P p → P' p) :
    ∀ a : Alternative ρ, AlternativeEverywhere P a → AlternativeEverywhere P' a
  | .body b, h => BodyEverywhere.mono hP b h
  | .elseIf s, h => Everywhere.mono hP s h

theorem EverywhereAll.mono {P P' : ρ → Prop} (hP : ∀ p, P p → P' p) :
    ∀ ss : List (Stmt ρ), EverywhereAll P ss → EverywhereAll P' ss
  | [], _ => trivial
  | s :: ss, h => ⟨Everywhere.mono hP s h.1, EverywhereAll.mono hP ss h.2⟩

end

theorem Everywhere.root {P : ρ → Prop} {s : Stmt ρ} (h : s.Everywhere P) : P s.place := by
  cases s with
  | expr | returnStmt => exact h.2
  | declaration | guardStmt | whileStmt => exact h.2.2
  | ifStmt => exact h.2.2.2

theorem everywhereAll_iff {P : ρ → Prop} {ss : List (Stmt ρ)} :
    EverywhereAll P ss ↔ ∀ s ∈ ss, s.Everywhere P := by
  induction ss with
  | nil => simp [EverywhereAll]
  | cons s ss ih => rw [EverywhereAll, ih, List.forall_mem_cons]

theorem Everywhere.widen {lo lo' hi hi' : Nat} {s : Stmt Run} (h : s.Everywhere (Run.Within lo hi))
    (hlo : lo' ≤ lo) (hhi : hi ≤ hi') : s.Everywhere (Run.Within lo' hi') :=
  Everywhere.mono (fun _ hp => hp.mono hlo hhi) s h

/-- The statement was read from exactly the terminals between the two indexes. -/
structure Spans (lo hi : Nat) (s : Stmt Run) : Prop where
  place : s.place = ⟨lo, hi⟩
  inside : s.Everywhere (Run.Within lo hi)

end Stmt

theorem Clause.Everywhere.widen {lo lo' hi hi' : Nat} {c : Clause Run}
    (h : c.Everywhere (Run.Within lo hi)) (hlo : lo' ≤ lo) (hhi : hi ≤ hi') :
    c.Everywhere (Run.Within lo' hi') :=
  h.mono fun _ hp => hp.mono hlo hhi

/-- The clause was read from exactly the terminals between the two indexes. -/
structure Clause.Spans (lo hi : Nat) (c : Clause Run) : Prop where
  place : c.place = ⟨lo, hi⟩
  inside : c.Everywhere (Run.Within lo hi)

/-! ## 3. Blocks -/

namespace Stmt

mutual

/-- `Q` holds of every block: of the places of its statements, and of its own. -/
def EveryBlock (Q : List ρ → ρ → Prop) : Stmt ρ → Prop
  | expr _ _ | declaration _ _ _ _ | returnStmt _ _ => True
  | ifStmt _ b a _ => BodyEveryBlock Q b ∧ AlternativeEveryBlock Q a
  | guardStmt _ b _ | whileStmt _ b _ => BodyEveryBlock Q b

/-- `EveryBlock` for a body. -/
def BodyEveryBlock (Q : List ρ → ρ → Prop) : Body ρ → Prop
  | .missing => True
  | .block ss p => Q (ss.map place) p ∧ EveryBlockAll Q ss

/-- `EveryBlock` for what follows `else`. -/
def AlternativeEveryBlock (Q : List ρ → ρ → Prop) : Alternative ρ → Prop
  | .body b => BodyEveryBlock Q b
  | .elseIf s => EveryBlock Q s

/-- `EveryBlock` for each statement of a list. -/
def EveryBlockAll (Q : List ρ → ρ → Prop) : List (Stmt ρ) → Prop
  | [] => True
  | s :: ss => EveryBlock Q s ∧ EveryBlockAll Q ss

end

theorem place_map {σ : Type} (f : ρ → σ) (s : Stmt ρ) : (map f s).place = f s.place := by
  cases s <;> rfl

section Mapped

variable {σ : Type} {f : ρ → σ} {Q : List ρ → ρ → Prop} {Q' : List σ → σ → Prop}

mutual

/-- What holds of every block holds at other places too, if it can be said of them. -/
theorem EveryBlock.map (hQ : ∀ ps p, Q ps p → Q' (ps.map f) (f p)) :
    ∀ s : Stmt ρ, s.EveryBlock Q → (map f s).EveryBlock Q'
  | expr .., _ | declaration .., _ | returnStmt .., _ => trivial
  | ifStmt _ b a _, h => ⟨BodyEveryBlock.map hQ b h.1, AlternativeEveryBlock.map hQ a h.2⟩
  | guardStmt _ b _, h | whileStmt _ b _, h => BodyEveryBlock.map hQ b h

theorem BodyEveryBlock.map (hQ : ∀ ps p, Q ps p → Q' (ps.map f) (f p)) :
    ∀ b : Body ρ, BodyEveryBlock Q b → BodyEveryBlock Q' (mapBody f b)
  | .missing, _ => trivial
  | .block ss p, h => by
    refine ⟨?_, EveryBlockAll.map hQ ss h.2⟩
    have hplaces : (mapAll f ss).map place = (ss.map place).map f := by
      rw [mapAll_eq_map, List.map_map, List.map_map]
      exact List.map_congr_left fun s _ => place_map f s
    rw [hplaces]
    exact hQ _ p h.1

theorem AlternativeEveryBlock.map (hQ : ∀ ps p, Q ps p → Q' (ps.map f) (f p)) :
    ∀ a : Alternative ρ, AlternativeEveryBlock Q a → AlternativeEveryBlock Q' (mapAlternative f a)
  | .body b, h => BodyEveryBlock.map hQ b h
  | .elseIf s, h => EveryBlock.map hQ s h

theorem EveryBlockAll.map (hQ : ∀ ps p, Q ps p → Q' (ps.map f) (f p)) :
    ∀ ss : List (Stmt ρ), EveryBlockAll Q ss → EveryBlockAll Q' (mapAll f ss)
  | [], _ => trivial
  | s :: ss, h => ⟨EveryBlock.map hQ s h.1, EveryBlockAll.map hQ ss h.2⟩

end

end Mapped

theorem everyBlockAll_iff {Q : List ρ → ρ → Prop} {ss : List (Stmt ρ)} :
    EveryBlockAll Q ss ↔ ∀ s ∈ ss, s.EveryBlock Q := by
  induction ss with
  | nil => simp [EveryBlockAll]
  | cons s ss ih => rw [EveryBlockAll, ih, List.forall_mem_cons]

end Stmt

end PlatformGate
