/-
# How a tree is written

A tree is written back as the tokens it was read from: each node gives its own keywords, operators,
brackets, separators, names and numbers, and its parts in order.  Places play no part in it.  What
is written is a list of marks.  A mark is a token, or the comma behind the last entry of a query,
which a tree does not remember; so marks stand for several lists of tokens (`Mark.Yields`).

A tree is complete when it has no hole: no `error` expression, no `missing` pattern, no `missing`
body, and no query that is not closed or has an entry that is neither a platform nor `*`.
-/
import PlatformGate.Proofs.Parse.Motion
import PlatformGate.Syntax.Tree

namespace PlatformGate

/-! ## 1. Marks -/

/-- A token that is written, or a comma that may have been. -/
inductive Mark
  | one (k : Kind String)
  | lastComma
  deriving DecidableEq, Repr

namespace Mark

/-- A token of fixed spelling. -/
def fixed (f : Fixed) : Mark := .one (.fixed f)

/-- Parts with a separator between them. -/
def separated (sep : Fixed) : List (List Mark) → List Mark
  | [] => []
  | ms :: more => ms ++ more.flatMap (fixed sep :: ·)

/-- The first part, and the others with a separator in front of each. -/
theorem separated_map_cons {α : Type} (sep : Fixed) (f : α → List Mark) (a : α) (as : List α) :
    separated sep ((a :: as).map f) = f a ++ as.flatMap fun a => fixed sep :: f a := by
  rw [List.map_cons, separated, List.flatMap_map]

/-- The kinds of tokens are what the marks stand for. -/
def Yields : List Mark → List (Kind String) → Prop
  | [], ks => ks = []
  | .one k :: ms, ks => ∃ rest, ks = k :: rest ∧ Yields ms rest
  | .lastComma :: ms, ks => Yields ms ks ∨ ∃ rest, ks = .fixed .comma :: rest ∧ Yields ms rest

theorem Yields.append {ms ms' : List Mark} {ks ks' : List (Kind String)} (h : Yields ms ks)
    (h' : Yields ms' ks') : Yields (ms ++ ms') (ks ++ ks') := by
  induction ms generalizing ks with
  | nil =>
    obtain rfl : ks = [] := h
    exact h'
  | cons m ms ih =>
    cases m with
    | one k =>
      obtain ⟨rest, rfl, h⟩ := h
      exact ⟨rest ++ ks', rfl, ih h⟩
    | lastComma =>
      rcases h with h | ⟨rest, rfl, h⟩
      · exact .inl (ih h)
      · exact .inr ⟨rest ++ ks', rfl, ih h⟩

end Mark

open Mark

/-! ## 2. Values -/

namespace Expr

variable {ρ σ : Type}

mutual

/-- An expression as it is written. -/
def marks : Expr ρ → List Mark
  | int v _ => [.one (.number v)]
  | bool true _ => [fixed .trueWord]
  | bool false _ => [fixed .falseWord]
  | ident name _ => [.one (.word name)]
  | discard _ => [fixed .underscore]
  | paren e _ => fixed .lparen :: (marks e ++ [fixed .rparen])
  | tuple es _ => fixed .lparen :: (separated .comma (allMarks es) ++ [fixed .rparen])
  | call e es _ =>
    marks e ++ fixed .lparen :: (separated .comma (allMarks es) ++ [fixed .rparen])
  | unary op e _ => fixed op.token :: marks e
  | binary op l r _ => marks l ++ fixed op.token :: marks r
  | ternary c t e _ => marks c ++ fixed .question :: (marks t ++ fixed .colon :: marks e)
  | assign t v _ => marks t ++ fixed .eq :: marks v
  | error _ => []

/-- Each expression of a list as it is written. -/
def allMarks : List (Expr ρ) → List (List Mark)
  | [] => []
  | e :: es => marks e :: allMarks es

end

mutual

/-- Whether an expression has no hole. -/
def isComplete : Expr ρ → Bool
  | int _ _ | bool _ _ | ident _ _ | discard _ => true
  | paren e _ | unary _ e _ => isComplete e
  | tuple es _ => allComplete es
  | call e es _ => isComplete e && allComplete es
  | binary _ l r _ | assign l r _ => isComplete l && isComplete r
  | ternary c t e _ => isComplete c && (isComplete t && isComplete e)
  | error _ => false

/-- Whether no expression of a list has a hole. -/
def allComplete : List (Expr ρ) → Bool
  | [] => true
  | e :: es => isComplete e && allComplete es

end

theorem allMarks_eq_map (es : List (Expr ρ)) : allMarks es = es.map marks := by
  induction es with
  | nil => rfl
  | cons e es ih => rw [allMarks, ih, List.map_cons]

theorem allComplete_eq_all (es : List (Expr ρ)) : allComplete es = es.all isComplete := by
  induction es with
  | nil => rfl
  | cons e es ih => rw [allComplete, ih, List.all_cons]

mutual

/-- Places are not written. -/
theorem marks_map (f : ρ → σ) : ∀ e : Expr ρ, (map f e).marks = e.marks
  | int _ _ | ident _ _ | discard _ | error _ => rfl
  | bool v _ => by cases v <;> rfl
  | paren e _ | unary _ e _ => by rw [map, marks, marks, marks_map f e]
  | tuple es _ => by rw [map, marks, marks, allMarks_mapAll f es]
  | call e es _ => by rw [map, marks, marks, marks_map f e, allMarks_mapAll f es]
  | binary _ l r _ | assign l r _ => by rw [map, marks, marks, marks_map f l, marks_map f r]
  | ternary c t e _ => by
    rw [map, marks, marks, marks_map f c, marks_map f t, marks_map f e]

theorem allMarks_mapAll (f : ρ → σ) : ∀ es : List (Expr ρ), allMarks (mapAll f es) = allMarks es
  | [] => rfl
  | e :: es => by rw [mapAll, allMarks, allMarks, marks_map f e, allMarks_mapAll f es]

end

mutual

theorem isComplete_map (f : ρ → σ) : ∀ e : Expr ρ, (map f e).isComplete = e.isComplete
  | int _ _ | ident _ _ | discard _ | error _ | bool _ _ => rfl
  | paren e _ | unary _ e _ => by rw [map, isComplete, isComplete, isComplete_map f e]
  | tuple es _ => by rw [map, isComplete, isComplete, allComplete_mapAll f es]
  | call e es _ => by
    rw [map, isComplete, isComplete, isComplete_map f e, allComplete_mapAll f es]
  | binary _ l r _ | assign l r _ => by
    rw [map, isComplete, isComplete, isComplete_map f l, isComplete_map f r]
  | ternary c t e _ => by
    rw [map, isComplete, isComplete, isComplete_map f c, isComplete_map f t, isComplete_map f e]

theorem allComplete_mapAll (f : ρ → σ) :
    ∀ es : List (Expr ρ), allComplete (mapAll f es) = allComplete es
  | [] => rfl
  | e :: es => by
    rw [mapAll, allComplete, allComplete, isComplete_map f e, allComplete_mapAll f es]

end

/-- A complete expression is written with a token in front. -/
theorem exists_mark : ∀ e : Expr ρ, e.isComplete = true → ∃ k ms, e.marks = .one k :: ms
  | int _ _, _ | ident _ _, _ | discard _, _ => ⟨_, _, rfl⟩
  | bool v _, _ => by cases v <;> exact ⟨_, _, rfl⟩
  | paren _ _, _ | tuple _ _, _ | unary _ _ _, _ => ⟨_, _, rfl⟩
  | call e _ _, h => by
    obtain ⟨k, ms, he⟩ := exists_mark e (Bool.and_eq_true_iff.mp h).1
    exact ⟨k, _, by rw [marks, he]; rfl⟩
  | binary _ l _ _, h | assign l _ _, h => by
    obtain ⟨k, ms, hl⟩ := exists_mark l (Bool.and_eq_true_iff.mp h).1
    exact ⟨k, _, by rw [marks, hl]; rfl⟩
  | ternary c _ _ _, h => by
    obtain ⟨k, ms, hc⟩ := exists_mark c (Bool.and_eq_true_iff.mp h).1
    exact ⟨k, _, by rw [marks, hc]; rfl⟩
  | error _, h => absurd h Bool.false_ne_true

end Expr

/-! ## 3. Headers -/

namespace Version

/-- A version as it is written. -/
def marks (v : Version) : List Mark :=
  separated .dot (v.components.map fun n => [.one (.number n)])

end Version

namespace Entry

variable {ρ : Type}

/-- An entry as it is written. -/
def marks (e : Entry ρ) : List Mark :=
  (e.name.toList.map fun name => .one (.word name)) ++ (if e.wildcard then [fixed .star] else []) ++
    (e.version.map Version.marks).getD []

end Entry

namespace Query

variable {ρ σ : Type}

/-- A query as it is written.  Behind its entries a comma may stand. -/
def marks (q : Query ρ) : List Mark :=
  fixed (if q.negated then .unavailable else .available) :: fixed .lparen ::
    (separated .comma (q.entries.map Entry.marks) ++ [.lastComma, fixed .rparen])

/-- Whether a query is closed and has no bad entry. -/
def isWhole (q : Query ρ) : Bool := q.isComplete && q.entries.all Entry.isWellFormed

theorem marks_map (f : ρ → σ) (q : Query ρ) : (q.map f).marks = q.marks := by
  unfold marks map
  rw [List.map_map]
  rfl

theorem isWhole_map (f : ρ → σ) (q : Query ρ) : (q.map f).isWhole = q.isWhole := by
  unfold isWhole map
  rw [List.all_map]
  rfl

end Query

namespace Pattern

variable {ρ σ : Type}

/-- A pattern as it is written. -/
def marks : Pattern ρ → List Mark
  | wildcard _ => [fixed .underscore]
  | binding name _ => [.one (.word name)]
  | missing _ => []

/-- Whether there is a pattern. -/
def isComplete : Pattern ρ → Bool
  | missing _ => false
  | _ => true

theorem marks_map (f : ρ → σ) (b : Pattern ρ) : (b.map f).marks = b.marks := by
  cases b <;> rfl

theorem isComplete_map (f : ρ → σ) (b : Pattern ρ) : (b.map f).isComplete = b.isComplete := by
  cases b <;> rfl

end Pattern

/-- The value behind a `=`, if there is one, as it is written. -/
def initMarks {ρ : Type} : Option (Expr ρ) → List Mark
  | none => []
  | some e => fixed .eq :: e.marks

/-- A binding as it is written, with `let` or with `var`. -/
def bindingMarks {ρ : Type} (mutable : Bool) (b : Pattern ρ) (init : Option (Expr ρ)) : List Mark :=
  fixed (if mutable then .varWord else .letWord) :: (b.marks ++ initMarks init)

namespace Clause

variable {ρ σ : Type}

/-- A clause as it is written. -/
def marks : Clause ρ → List Mark
  | expr e _ => e.marks
  | binding mutable b init _ => bindingMarks mutable b init
  | matching b init _ => fixed .caseWord :: (b.marks ++ fixed .eq :: init.marks)
  | availability q => q.marks

/-- Whether a clause has no hole. -/
def isComplete : Clause ρ → Bool
  | expr e _ => e.isComplete
  | binding _ b init _ => b.isComplete && init.all Expr.isComplete
  | matching b init _ => b.isComplete && init.isComplete
  | availability q => q.isWhole

end Clause

theorem initMarks_map {ρ σ : Type} (f : ρ → σ) (init : Option (Expr ρ)) :
    initMarks (init.map (Expr.map f)) = initMarks init := by
  cases init with
  | none => rfl
  | some e => exact congrArg (fixed .eq :: ·) (Expr.marks_map f e)

theorem all_isComplete_map {ρ σ : Type} (f : ρ → σ) (e? : Option (Expr ρ)) :
    (e?.map (Expr.map f)).all Expr.isComplete = e?.all Expr.isComplete := by
  cases e? with
  | none => rfl
  | some e => exact Expr.isComplete_map f e

namespace Clause

variable {ρ σ : Type} (f : ρ → σ)

theorem marks_map (c : Clause ρ) : (c.map f).marks = c.marks := by
  cases c with
  | expr e p => exact Expr.marks_map f e
  | binding mutable b init p =>
    rw [map, marks, marks, bindingMarks, bindingMarks, Pattern.marks_map, initMarks_map]
  | matching b init p => rw [map, marks, marks, Expr.marks_map, Expr.marks_map]
  | availability q => exact Query.marks_map f q

theorem isComplete_map (c : Clause ρ) : (c.map f).isComplete = c.isComplete := by
  cases c with
  | expr e p => exact Expr.isComplete_map f e
  | binding mutable b init p =>
    rw [map, isComplete, isComplete, Pattern.isComplete_map, all_isComplete_map]
  | matching b init p =>
    rw [map, isComplete, isComplete, Expr.isComplete_map, Expr.isComplete_map]
  | availability q => exact Query.isWhole_map f q

end Clause

/-! ## 4. Statements -/

namespace Stmt

variable {ρ σ : Type}

/-- The clauses of a header as they are written. -/
def headerMarks (cs : List (Clause ρ)) : List Mark := separated .comma (cs.map Clause.marks)

mutual

/-- A statement as it is written. -/
def marks : Stmt ρ → List Mark
  | expr e _ => e.marks
  | declaration mutable b init _ => bindingMarks mutable b init
  | ifStmt cs b a _ => fixed .ifWord :: (headerMarks cs ++ bodyMarks b ++ alternativeMarks a)
  | guardStmt cs b _ => fixed .guardWord :: (headerMarks cs ++ fixed .elseWord :: bodyMarks b)
  | whileStmt cs b _ => fixed .whileWord :: (headerMarks cs ++ bodyMarks b)
  | returnStmt e _ => fixed .returnWord :: (e.map Expr.marks).getD []

/-- A body as it is written. -/
def bodyMarks : Body ρ → List Mark
  | .missing => []
  | .block ss _ => fixed .lbrace :: (allMarks ss ++ [fixed .rbrace])

/-- What stands behind the body of an `if`, as it is written. -/
def alternativeMarks : Alternative ρ → List Mark
  | .body .missing => []
  | .body b => fixed .elseWord :: bodyMarks b
  | .elseIf s => fixed .elseWord :: marks s

/-- Statements as they are written, one behind the other. -/
def allMarks : List (Stmt ρ) → List Mark
  | [] => []
  | s :: ss => marks s ++ allMarks ss

end

mutual

/-- Whether a statement has no hole.  An `if` may do without `else`. -/
def isComplete : Stmt ρ → Bool
  | expr e _ => e.isComplete
  | declaration _ b init _ => b.isComplete && init.all Expr.isComplete
  | ifStmt cs b a _ => cs.all Clause.isComplete && isCompleteBody b && isCompleteAlternative a
  | guardStmt cs b _ | whileStmt cs b _ => cs.all Clause.isComplete && isCompleteBody b
  | returnStmt e _ => e.all Expr.isComplete

/-- Whether there is a body, and it has no hole. -/
def isCompleteBody : Body ρ → Bool
  | .missing => false
  | .block ss _ => allComplete ss

/-- Whether what stands behind the body of an `if` has no hole. -/
def isCompleteAlternative : Alternative ρ → Bool
  | .body .missing => true
  | .body b => isCompleteBody b
  | .elseIf s => isComplete s

/-- Whether no statement of a list has a hole. -/
def allComplete : List (Stmt ρ) → Bool
  | [] => true
  | s :: ss => isComplete s && allComplete ss

end

/-- A complete statement is written with a token in front. -/
theorem exists_mark (s : Stmt ρ) (h : s.isComplete = true) : ∃ k ms, s.marks = .one k :: ms := by
  cases s with
  | expr e p => exact Expr.exists_mark e h
  | _ => exact ⟨_, _, rfl⟩

theorem headerMarks_map (f : ρ → σ) (cs : List (Clause ρ)) :
    headerMarks (cs.map (Clause.map f)) = headerMarks cs := by
  unfold headerMarks
  rw [List.map_map]
  exact congrArg _ (List.map_congr_left fun c _ => Clause.marks_map f c)

theorem all_isComplete_clauses_map (f : ρ → σ) (cs : List (Clause ρ)) :
    (cs.map (Clause.map f)).all Clause.isComplete = cs.all Clause.isComplete := by
  rw [List.all_map]
  exact congrArg (List.all cs) (funext fun c => Clause.isComplete_map f c)

mutual

/-- **Places are not written.** -/
theorem marks_map (f : ρ → σ) : ∀ s : Stmt ρ, (map f s).marks = s.marks
  | expr e _ => Expr.marks_map f e
  | declaration _ b init _ => by
    rw [map, marks, marks, bindingMarks, bindingMarks, Pattern.marks_map, initMarks_map]
  | ifStmt cs b a _ => by
    rw [map, marks, marks, headerMarks_map, bodyMarks_map f b, alternativeMarks_map f a]
  | guardStmt cs b _ | whileStmt cs b _ => by
    rw [map, marks, marks, headerMarks_map, bodyMarks_map f b]
  | returnStmt none _ => rfl
  | returnStmt (some e) _ => congrArg (fixed .returnWord :: ·) (Expr.marks_map f e)

theorem bodyMarks_map (f : ρ → σ) : ∀ b : Body ρ, bodyMarks (mapBody f b) = bodyMarks b
  | .missing => rfl
  | .block ss _ => by rw [mapBody, bodyMarks, bodyMarks, allMarks_mapAll f ss]

theorem alternativeMarks_map (f : ρ → σ) :
    ∀ a : Alternative ρ, alternativeMarks (mapAlternative f a) = alternativeMarks a
  | .body .missing => rfl
  | .body (.block ss p) => congrArg (fixed .elseWord :: ·) (bodyMarks_map f (.block ss p))
  | .elseIf s => congrArg (fixed .elseWord :: ·) (marks_map f s)

theorem allMarks_mapAll (f : ρ → σ) : ∀ ss : List (Stmt ρ), allMarks (mapAll f ss) = allMarks ss
  | [] => rfl
  | s :: ss => by rw [mapAll, allMarks, allMarks, marks_map f s, allMarks_mapAll f ss]

end

mutual

theorem isComplete_map (f : ρ → σ) : ∀ s : Stmt ρ, (map f s).isComplete = s.isComplete
  | expr e _ => Expr.isComplete_map f e
  | declaration _ b init _ => by
    rw [map, isComplete, isComplete, Pattern.isComplete_map, all_isComplete_map]
  | ifStmt cs b a _ => by
    rw [map, isComplete, isComplete, all_isComplete_clauses_map, isCompleteBody_map f b,
      isCompleteAlternative_map f a]
  | guardStmt cs b _ | whileStmt cs b _ => by
    rw [map, isComplete, isComplete, all_isComplete_clauses_map, isCompleteBody_map f b]
  | returnStmt e _ => all_isComplete_map f e

theorem isCompleteBody_map (f : ρ → σ) :
    ∀ b : Body ρ, isCompleteBody (mapBody f b) = isCompleteBody b
  | .missing => rfl
  | .block ss _ => allComplete_mapAll f ss

theorem isCompleteAlternative_map (f : ρ → σ) :
    ∀ a : Alternative ρ, isCompleteAlternative (mapAlternative f a) = isCompleteAlternative a
  | .body .missing => rfl
  | .body (.block ss p) => isCompleteBody_map f (.block ss p)
  | .elseIf s => isComplete_map f s

theorem allComplete_mapAll (f : ρ → σ) :
    ∀ ss : List (Stmt ρ), allComplete (mapAll f ss) = allComplete ss
  | [] => rfl
  | s :: ss => by
    rw [mapAll, allComplete, allComplete, isComplete_map f s, allComplete_mapAll f ss]

end

end Stmt

end PlatformGate
