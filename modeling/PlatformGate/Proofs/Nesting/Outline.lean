/-
# Outlines of trees

An outline of a tree keeps the place of every node and its parts in the order of the source; of what
a node is, it only says whether it is hollow.  Hollow is what stands for something that is missing:
an error expression, a missing pattern, and a clause that is nothing but such an expression.

`Nested` is what reading keeps: a node that is not hollow covers a terminal, and its parts stand
behind each other between its first terminal and its last.  `Fits` says the same of the spans in a
source, and `Nested.fits` leads from one to the other.
-/
import PlatformGate.Proofs.Parse.Places
import PlatformGate.Proofs.Token.Bounds

namespace PlatformGate

/-- The places of a tree.  A hollow node may cover nothing. -/
inductive Outline (ρ : Type)
  | node (hollow : Bool) (place : ρ) (parts : List (Outline ρ))

variable {ρ σ : Type}

namespace Outline

def place : Outline ρ → ρ
  | node _ p _ => p

mutual

def map (f : ρ → σ) : Outline ρ → Outline σ
  | node h p os => node h (f p) (mapAll f os)

/-- `map` on every outline of a list. -/
def mapAll (f : ρ → σ) : List (Outline ρ) → List (Outline σ)
  | [] => []
  | o :: os => map f o :: mapAll f os

end

theorem mapAll_eq_map (f : ρ → σ) (os : List (Outline ρ)) : mapAll f os = os.map (map f) := by
  induction os with
  | nil => rfl
  | cons o os ih => rw [mapAll, ih, List.map_cons]

@[simp] theorem place_map (f : ρ → σ) (o : Outline ρ) : (map f o).place = f o.place := by
  cases o
  rfl

end Outline

/-! ## 1. Trees and their outlines -/

namespace Expr

/-- Whether the expression is the placeholder left after a problem. -/
def isError : Expr ρ → Bool
  | error _ => true
  | _ => false

mutual

def outline : Expr ρ → Outline ρ
  | int _ p | bool _ p | ident _ p | discard p => .node false p []
  | error p => .node true p []
  | paren e p | unary _ e p => .node false p [outline e]
  | tuple es p => .node false p (outlines es)
  | call c es p => .node false p (outline c :: outlines es)
  | binary _ l r p | assign l r p => .node false p [outline l, outline r]
  | ternary c t e p => .node false p [outline c, outline t, outline e]

/-- The outlines of some expressions. -/
def outlines : List (Expr ρ) → List (Outline ρ)
  | [] => []
  | e :: es => outline e :: outlines es

end

theorem outlines_eq_map (es : List (Expr ρ)) : outlines es = es.map outline := by
  induction es with
  | nil => rfl
  | cons e es ih => rw [outlines, ih, List.map_cons]

@[simp] theorem place_outline (e : Expr ρ) : e.outline.place = e.place := by
  cases e <;> rfl

mutual

theorem outline_map (f : ρ → σ) : ∀ e : Expr ρ, (map f e).outline = e.outline.map f
  | int .. | bool .. | ident .. | discard .. | error .. => rfl
  | paren e _ | unary _ e _ => by
    simp only [map, outline, Outline.map, Outline.mapAll, outline_map f e]
  | tuple es _ => by simp only [map, outline, Outline.map, outlines_mapAll f es]
  | call c es _ => by
    simp only [map, outline, Outline.map, Outline.mapAll, outline_map f c, outlines_mapAll f es]
  | binary _ l r _ | assign l r _ => by
    simp only [map, outline, Outline.map, Outline.mapAll, outline_map f l, outline_map f r]
  | ternary c t e _ => by
    simp only [map, outline, Outline.map, Outline.mapAll, outline_map f c, outline_map f t,
      outline_map f e]

theorem outlines_mapAll (f : ρ → σ) :
    ∀ es : List (Expr ρ), outlines (mapAll f es) = Outline.mapAll f (outlines es)
  | [] => rfl
  | e :: es => by
    simp only [mapAll, outlines, Outline.mapAll, outline_map f e, outlines_mapAll f es]

end

/-- An expression that may be left out is no part or one. -/
theorem outline_toList_map (f : ρ → σ) (e? : Option (Expr ρ)) :
    (e?.map (map f)).toList.map outline = Outline.mapAll f (e?.toList.map outline) := by
  cases e? with
  | none => rfl
  | some e => exact congrArg (fun o => [o]) (outline_map f e)

end Expr

def Pattern.outline : Pattern ρ → Outline ρ
  | .wildcard p | .binding _ p => .node false p []
  | .missing p => .node true p []

def Entry.outline (e : Entry ρ) : Outline ρ := .node false e.place []

def Query.outline (q : Query ρ) : Outline ρ := .node false q.place (q.entries.map Entry.outline)

namespace Clause

def outline : Clause ρ → Outline ρ
  | expr e p => .node e.isError p [e.outline]
  | binding _ b init p => .node false p (b.outline :: init.toList.map Expr.outline)
  | matching e init p => .node false p [e.outline, init.outline]
  | availability q => .node false q.place [q.outline]

theorem outline_map (f : ρ → σ) (c : Clause ρ) : (c.map f).outline = c.outline.map f := by
  cases c with
  | expr e p =>
    have herror : (e.map f).isError = e.isError := by cases e <;> rfl
    simp only [map, outline, Outline.map, Outline.mapAll, herror, Expr.outline_map]
  | binding m b init p =>
    have hpattern : (b.map f).outline = b.outline.map f := by cases b <;> rfl
    simp only [map, outline, Outline.map, Outline.mapAll, hpattern, Expr.outline_toList_map]
  | matching e init p => simp only [map, outline, Outline.map, Outline.mapAll, Expr.outline_map]
  | availability q =>
    have hentries : (q.entries.map (Entry.map f)).map Entry.outline =
        Outline.mapAll f (q.entries.map Entry.outline) := by
      rw [Outline.mapAll_eq_map, List.map_map, List.map_map]
      rfl
    simp only [map, outline, Query.outline, Query.map, Outline.map, Outline.mapAll, hentries]

end Clause

namespace Stmt

mutual

def outline : Stmt ρ → Outline ρ
  | expr e p => .node false p [e.outline]
  | declaration _ b init p => .node false p (b.outline :: init.toList.map Expr.outline)
  | ifStmt cs b a p =>
    .node false p (cs.map Clause.outline ++ (bodyOutlines b ++ alternativeOutlines a))
  | guardStmt cs b p | whileStmt cs b p =>
    .node false p (cs.map Clause.outline ++ bodyOutlines b)
  | returnStmt e p => .node false p (e.toList.map Expr.outline)

/-- A body is a block or nothing. -/
def bodyOutlines : Body ρ → List (Outline ρ)
  | .missing => []
  | .block ss p => [.node false p (outlines ss)]

/-- What follows `else` is a block, a statement or nothing. -/
def alternativeOutlines : Alternative ρ → List (Outline ρ)
  | .body b => bodyOutlines b
  | .elseIf s => [outline s]

/-- The outlines of some statements. -/
def outlines : List (Stmt ρ) → List (Outline ρ)
  | [] => []
  | s :: ss => outline s :: outlines ss

end

theorem outlines_eq_map (ss : List (Stmt ρ)) : outlines ss = ss.map outline := by
  induction ss with
  | nil => rfl
  | cons s ss ih => rw [outlines, ih, List.map_cons]

@[simp] theorem place_outline (s : Stmt ρ) : s.outline.place = s.place := by
  cases s <;> rfl

theorem outlines_clauses_map (f : ρ → σ) (cs : List (Clause ρ)) :
    (cs.map (Clause.map f)).map Clause.outline = Outline.mapAll f (cs.map Clause.outline) := by
  rw [Outline.mapAll_eq_map, List.map_map, List.map_map]
  exact List.map_congr_left fun c _ => Clause.outline_map f c

theorem mapAll_append (f : ρ → σ) (os os' : List (Outline ρ)) :
    Outline.mapAll f (os ++ os') = Outline.mapAll f os ++ Outline.mapAll f os' := by
  simp only [Outline.mapAll_eq_map, List.map_append]

mutual

theorem outline_map (f : ρ → σ) : ∀ s : Stmt ρ, (map f s).outline = s.outline.map f
  | expr e _ => by simp only [map, outline, Outline.map, Outline.mapAll, Expr.outline_map]
  | declaration _ b init _ => by
    have hpattern : (b.map f).outline = b.outline.map f := by cases b <;> rfl
    simp only [map, outline, Outline.map, Outline.mapAll, hpattern, Expr.outline_toList_map]
  | ifStmt cs b a _ => by
    simp only [map, outline, Outline.map, mapAll_append, outlines_clauses_map,
      bodyOutlines_map f b, alternativeOutlines_map f a]
  | guardStmt cs b _ | whileStmt cs b _ => by
    simp only [map, outline, Outline.map, mapAll_append, outlines_clauses_map,
      bodyOutlines_map f b]
  | returnStmt e _ => by simp only [map, outline, Outline.map, Expr.outline_toList_map]

theorem bodyOutlines_map (f : ρ → σ) :
    ∀ b : Body ρ, bodyOutlines (mapBody f b) = Outline.mapAll f (bodyOutlines b)
  | .missing => rfl
  | .block ss _ => by
    simp only [mapBody, bodyOutlines, Outline.mapAll, Outline.map, outlines_mapAll f ss]

theorem alternativeOutlines_map (f : ρ → σ) : ∀ a : Alternative ρ,
    alternativeOutlines (mapAlternative f a) = Outline.mapAll f (alternativeOutlines a)
  | .body b => bodyOutlines_map f b
  | .elseIf s => by
    simp only [mapAlternative, alternativeOutlines, Outline.mapAll, outline_map f s]

theorem outlines_mapAll (f : ρ → σ) :
    ∀ ss : List (Stmt ρ), outlines (mapAll f ss) = Outline.mapAll f (outlines ss)
  | [] => rfl
  | s :: ss => by
    simp only [mapAll, outlines, Outline.mapAll, outline_map f s, outlines_mapAll f ss]

end

end Stmt

/-! ## 2. Nested runs -/

namespace Outline

mutual

/-- A node that is not hollow covers a terminal, and all its parts stand inside it. -/
def Nested : Outline Run → Prop
  | node hollow p os => (p.first = p.past → hollow = true) ∧ Row p.first p.past os

/-- Nested outlines that stand behind each other between two indexes. -/
def Row (lo hi : Nat) : List (Outline Run) → Prop
  | [] => lo ≤ hi
  | o :: os => lo ≤ o.place.first ∧ Nested o ∧ Row o.place.past hi os

end

mutual

theorem Nested.le : ∀ o : Outline Run, o.Nested → o.place.first ≤ o.place.past
  | node _ _ os, h => Row.le os h.2

theorem Row.le : ∀ (os : List (Outline Run)) {lo hi : Nat}, Row lo hi os → lo ≤ hi
  | [], _, _, h => h
  | o :: os, _, _, h => Nat.le_trans h.1 (Nat.le_trans (Nested.le o h.2.1) (Row.le os h.2.2))

end

theorem Row.widen {lo lo' hi hi' : Nat} {os : List (Outline Run)} (h : Row lo hi os)
    (hlo : lo' ≤ lo) (hhi : hi ≤ hi') : Row lo' hi' os := by
  induction os generalizing lo lo' with
  | nil => exact Nat.le_trans hlo (Nat.le_trans h hhi)
  | cons o os ih => exact ⟨Nat.le_trans hlo h.1, h.2.1, ih h.2.2 (Nat.le_refl _)⟩

theorem Row.append {lo mid hi : Nat} {os os' : List (Outline Run)} (h : Row lo mid os)
    (h' : Row mid hi os') : Row lo hi (os ++ os') := by
  induction os generalizing lo with
  | nil => exact h'.widen h (Nat.le_refl _)
  | cons o os ih => exact ⟨h.1, h.2.1, ih h.2.2⟩

/-- The outline was read from exactly the terminals between two indexes. -/
structure Across (lo hi : Nat) (o : Outline Run) : Prop where
  place : o.place = ⟨lo, hi⟩
  nested : o.Nested

theorem Across.row {lo hi : Nat} {o : Outline Run} (h : o.Across lo hi) : Row lo hi [o] := by
  have hfirst : o.place.first = lo := congrArg Run.first h.place
  have hpast : o.place.past = hi := congrArg Run.past h.place
  exact ⟨Nat.le_of_eq hfirst.symm, h.nested, Nat.le_of_eq hpast⟩

theorem Across.le {lo hi : Nat} {o : Outline Run} (h : o.Across lo hi) : lo ≤ hi :=
  Row.le _ h.row

/-- A node is as it should be if it covers a terminal and its parts stand in a row. -/
theorem Across.node {lo hi : Nat} {hollow : Bool} {os : List (Outline Run)} (hlt : lo < hi)
    (h : Row lo hi os) : (Outline.node hollow ⟨lo, hi⟩ os).Across lo hi :=
  ⟨rfl, fun heq => absurd heq (Nat.ne_of_lt hlt), h⟩

/-- What stands in a row stands between its ends. -/
theorem Row.bounds {lo hi : Nat} {os : List (Outline Run)} (h : Row lo hi os) :
    ∀ o ∈ os, o.Nested ∧ lo ≤ o.place.first ∧ o.place.past ≤ hi := by
  induction os generalizing lo with
  | nil => simp
  | cons o os ih =>
    obtain ⟨hlo, ho, hrest⟩ := h
    intro o' ho'
    rcases List.mem_cons.mp ho' with rfl | ho'
    · exact ⟨ho, hlo, Row.le os hrest⟩
    · obtain ⟨hnested, hfirst, hpast⟩ := ih hrest o' ho'
      have hle := ho.le
      exact ⟨hnested, by omega, hpast⟩

theorem Row.apart {lo hi : Nat} {os : List (Outline Run)} (h : Row lo hi os) :
    os.Pairwise fun o o' => o.place.past ≤ o'.place.first := by
  induction os generalizing lo with
  | nil => exact .nil
  | cons o os ih =>
    obtain ⟨-, -, hrest⟩ := h
    exact List.pairwise_cons.mpr ⟨fun o' ho' => (hrest.bounds o' ho').2.1, ih hrest⟩

end Outline

/-! ## 3. Spans that fit -/

/-- The span lies in the source, and begins and ends with a token unless it is empty. -/
structure Span.Aligned (source : String) (s : Span) : Prop where
  le : s.start ≤ s.stop
  inside : s.stop ≤ Text.byteLength source.toList
  starts : s.isEmpty = false → ∃ t ∈ Token.beforeEnd source, t.span.start = s.start
  stops : s.isEmpty = false → ∃ t ∈ Token.beforeEnd source, t.span.stop = s.stop

/-- The spans of a tree are as they should be: aligned with the tokens, empty only at a hollow node,
each inside the one above unless it is empty, and those under one node behind each other. -/
inductive Outline.Fits (source : String) : Outline Span → Prop
  | node {hollow : Bool} {p : Span} {os : List (Outline Span)}
    (aligned : p.Aligned source)
    (solid : p.isEmpty = true → hollow = true)
    (inside : ∀ o ∈ os, o.place.isEmpty = false → p.covers o.place = true)
    (apart : os.Pairwise fun o o' => o.place.stop ≤ o'.place.start)
    (parts : ∀ o ∈ os, o.Fits source) : Fits source (.node hollow p os)

theorem Span.isEmpty_eq_false_iff {s : Span} : s.isEmpty = false ↔ s.start ≠ s.stop := by
  simp [isEmpty]

section Located

variable {source : String} {r s : Run}

theorem Run.isEmpty_locate_of_eq (h : r.first = r.past) : (r.locate source).isEmpty = true := by
  unfold locate toSpan
  simp [h, Span.point, Span.isEmpty]

theorem Run.Solid.isEmpty_locate (h : r.Solid (Token.beforeEnd source).length) :
    (r.locate source).isEmpty = false :=
  Span.isEmpty_eq_false_iff.mpr (Nat.ne_of_lt h.start_lt_stop)

/-- The span of a run is aligned with the tokens. -/
theorem Run.aligned_locate (hle : r.first ≤ r.past)
    (hpast : r.past ≤ (Token.beforeEnd source).length) :
    (r.locate source).Aligned source := by
  have hlength := Token.length_ofSource source
  have hcuts : (r.locate source).Cuts source := cuts_locate (by omega) (by omega)
  have hends : (r.locate source).isEmpty = false → ∃ t ∈ Token.beforeEnd source,
      ∃ u ∈ Token.beforeEnd source, r.locate source = ⟨t.span.start, u.span.stop⟩ := by
    intro hsolid
    rcases Nat.lt_or_eq_of_le hle with hlt | heq
    · obtain ⟨t, u, ht, hu, heq⟩ := Solid.exists_tokens ⟨hlt, hpast⟩
      exact ⟨t, List.mem_of_getElem? ht, u, List.mem_of_getElem? hu, heq⟩
    · exact absurd ((isEmpty_locate_of_eq heq).symm.trans hsolid) Bool.noConfusion
  refine ⟨hcuts.ordered, hcuts.inside, fun hsolid => ?_, fun hsolid => ?_⟩
  · obtain ⟨t, ht, u, -, heq⟩ := hends hsolid
    exact ⟨t, ht, by rw [heq]⟩
  · obtain ⟨t, -, u, hu, heq⟩ := hends hsolid
    exact ⟨u, hu, by rw [heq]⟩

/-- Neighbours in a row have spans behind each other. -/
theorem Outline.Row.apart_locate {lo hi : Nat} {os : List (Outline Run)} (h : Row lo hi os)
    (hhi : hi ≤ (Token.beforeEnd source).length) :
    (os.map (map (Run.locate source))).Pairwise fun o o' => o.place.stop ≤ o'.place.start := by
  rw [List.pairwise_map]
  refine h.apart.imp_of_mem fun {o o'} ho ho' hapart => ?_
  obtain ⟨hnested, -, -⟩ := h.bounds o ho
  obtain ⟨hnested', -, hlast⟩ := h.bounds o' ho'
  have hle := hnested.le
  have hle' := hnested'.le
  rw [place_map, place_map]
  have hlength := Token.length_ofSource source
  exact Run.stop_locate_le hle hapart (by omega)

/-- **Nested runs have spans that fit.** -/
theorem Outline.Nested.fits : ∀ (o : Outline Run), o.Nested →
    o.place.past ≤ (Token.beforeEnd source).length → (o.map (Run.locate source)).Fits source
  | node hollow p os, h, hpast => by
    obtain ⟨hhollow, hrow⟩ := h
    have hle : p.first ≤ p.past := Row.le os hrow
    have hpast : p.past ≤ (Token.beforeEnd source).length := hpast
    have hbounds := hrow.bounds
    rw [map, mapAll_eq_map]
    refine .node (Run.aligned_locate hle hpast) (fun hempty => ?_) ?_ (hrow.apart_locate hpast) ?_
    · rcases Nat.lt_or_eq_of_le hle with hlt | heq
      · have hsolid : p.Solid (Token.beforeEnd source).length := ⟨hlt, hpast⟩
        exact absurd (hempty.symm.trans hsolid.isEmpty_locate) Bool.noConfusion
      · exact hhollow heq
    · intro o' ho' hsolid
      obtain ⟨o, ho, rfl⟩ := List.mem_map.mp ho'
      obtain ⟨hnested, hfirst, hlast⟩ := hbounds o ho
      rw [place_map] at hsolid ⊢
      rcases Nat.lt_or_eq_of_le hnested.le with hlt | heq
      · exact (Run.covers_locate_iff ⟨hlt, by omega⟩ ⟨by omega, hpast⟩).mpr ⟨hfirst, hlast⟩
      · exact absurd ((Run.isEmpty_locate_of_eq heq).symm.trans hsolid) Bool.noConfusion
    · intro o' ho'
      obtain ⟨o, ho, rfl⟩ := List.mem_map.mp ho'
      obtain ⟨hnested, -, hlast⟩ := hbounds o ho
      exact Nested.fits o hnested (by omega)

end Located

end PlatformGate
