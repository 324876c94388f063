/-
# Opening brackets in trees

A tree does not say where its brackets stand, but the places of its nodes do.  A tuple and a block
begin with theirs, the bracket of a call stands behind the callee, and that of a query behind the
keyword.  So `brackets` lists the constructs of a tree that have a bracket, each with the place that
tells where (`Construct.StandsAt`).

Grouping a chain by the power of its operators moves no bracket: the list stays the same.
-/
import PlatformGate.Proofs.Joining.Nested

namespace PlatformGate

variable {ρ σ : Type}

/-! ## 1. Brackets -/

namespace Construct

/-- The bracket that opens the construct. -/
def bracket : Construct → Fixed
  | block => .lbrace
  | _ => .lparen

theorem opening_eq (c : Construct) : c.opening = c.bracket.spelling := by
  cases c <;> rfl

/-- What the construct is closed with closes its bracket. -/
theorem exists_closer (c : Construct) :
    ∃ g, c.bracket.closer? = some g ∧ c.closing = g.spelling := by
  cases c <;> exact ⟨_, rfl, rfl⟩

/-- Only blocks begin with a brace. -/
theorem eq_block_of_bracket (c : Construct) (h : c.bracket = .lbrace) : c = block := by
  cases c with
  | block => rfl
  | _ => exact absurd h nofun

/-- The bracket of a construct stands at the index.  The place is that of the construct, except for
a call, where it is that of the callee.  Headers and the top level have no bracket. -/
def StandsAt (n : Nat) (p : Run) : Construct → Prop
  | availability => n = p.first + 1
  | call => p.first < p.past ∧ n = p.past
  | tuple | block => n = p.first
  | header _ | topLevel => False

end Construct

/-! ## 2. Expressions -/

namespace Expr

mutual

/-- The constructs of the expression that have a bracket, from left to right. -/
def brackets : Expr ρ → List (Construct × ρ)
  | int .. | bool .. | ident .. | discard _ | error _ => []
  | paren e p => (.tuple, p) :: brackets e
  | tuple es p => (.tuple, p) :: bracketsAll es
  | call e es _ => brackets e ++ (.call, e.place) :: bracketsAll es
  | unary _ e _ => brackets e
  | binary _ l r _ => brackets l ++ brackets r
  | ternary c t e _ => brackets c ++ (brackets t ++ brackets e)
  | assign t v _ => brackets t ++ brackets v

/-- `brackets` of each expression of a list. -/
def bracketsAll : List (Expr ρ) → List (Construct × ρ)
  | [] => []
  | e :: es => brackets e ++ bracketsAll es

end

theorem bracketsAll_eq_flatMap (es : List (Expr ρ)) : bracketsAll es = es.flatMap brackets := by
  induction es with
  | nil => rfl
  | cons e es ih => rw [bracketsAll, ih, List.flatMap_cons]

mutual

theorem brackets_map (f : ρ → σ) : ∀ e : Expr ρ,
    (map f e).brackets = e.brackets.map (Prod.map id f)
  | int .. | bool .. | ident .. | discard _ | error _ => rfl
  | paren e _ => by
    rw [map, brackets, brackets, brackets_map f e]
    rfl
  | tuple es _ => by
    rw [map, brackets, brackets, bracketsAll_mapAll f es]
    rfl
  | call e es _ => by
    rw [map, brackets, brackets, brackets_map f e, bracketsAll_mapAll f es, place_map,
      List.map_append]
    rfl
  | unary _ e _ => by rw [map, brackets, brackets, brackets_map f e]
  | binary _ l r _ => by
    rw [map, brackets, brackets, brackets_map f l, brackets_map f r, List.map_append]
  | ternary c t e _ => by
    rw [map, brackets, brackets, brackets_map f c, brackets_map f t, brackets_map f e,
      List.map_append, List.map_append]
  | assign t v _ => by
    rw [map, brackets, brackets, brackets_map f t, brackets_map f v, List.map_append]

theorem bracketsAll_mapAll (f : ρ → σ) : ∀ es : List (Expr ρ),
    bracketsAll (mapAll f es) = (bracketsAll es).map (Prod.map id f)
  | [] => rfl
  | e :: es => by
    rw [mapAll, bracketsAll, bracketsAll, brackets_map f e, bracketsAll_mapAll f es,
      List.map_append]

end

theorem brackets_elim_map (f : ρ → σ) (e? : Option (Expr ρ)) :
    (e?.map (map f)).elim [] brackets = (e?.elim [] brackets).map (Prod.map id f) := by
  cases e? with
  | none => rfl
  | some e => exact brackets_map f e

/-- The grafted operand comes last, however deep it is put. -/
theorem brackets_graft (op : BinaryOperator) (right : Expr Run) : ∀ e : Expr Run,
    (graft op right e).brackets = e.brackets ++ right.brackets
  | .binary o l r p => by
    unfold graft
    split
    · rw [brackets, brackets_graft op right r, brackets, List.append_assoc]
    · rfl
  | .int .. | .bool .. | .ident .. | .discard _ | .paren .. | .tuple .. | .call .. | .unary ..
  | .ternary .. | .assign .. | .error _ => rfl

theorem brackets_ofChain (first : Expr Run) (links : List (BinaryOperator × Expr Run)) :
    (ofChain first links).brackets = first.brackets ++ links.flatMap fun l => l.2.brackets := by
  induction links generalizing first with
  | nil => exact (List.append_nil _).symm
  | cons l links ih =>
    have hmore : ofChain first (l :: links) = ofChain (graft l.1 l.2 first) links := rfl
    rw [hmore, ih, brackets_graft, List.append_assoc, List.flatMap_cons]

theorem brackets_ofSigns (signs : List (UnaryOperator × Nat)) (e : Expr Run) :
    (ofSigns signs e).brackets = e.brackets := by
  induction signs with
  | nil => rfl
  | cons s signs ih => exact ih

theorem ofCalls_cons (callee : Expr Run) (l : List (Expr Run) × Nat)
    (lists : List (List (Expr Run) × Nat)) :
    ofCalls callee (l :: lists) = ofCalls (.call callee l.1 ⟨callee.place.first, l.2⟩) lists := rfl

end Expr

theorem Parser.brackets_grouped (place : Run) (es : List (Expr Run)) :
    (grouped place es).brackets = (.tuple, place) :: Expr.bracketsAll es := by
  unfold grouped
  split
  · rw [Expr.brackets, Expr.bracketsAll, Expr.bracketsAll, List.append_nil]
  · rfl

/-! ## 3. Clauses and statements -/

namespace Clause

/-- The constructs of the clause that have a bracket. -/
def brackets : Clause ρ → List (Construct × ρ)
  | expr e _ => e.brackets
  | binding _ _ init _ => init.elim [] Expr.brackets
  | matching e init _ => e.brackets ++ init.brackets
  | availability q => [(.availability, q.place)]

theorem brackets_map (f : ρ → σ) (c : Clause ρ) :
    (c.map f).brackets = c.brackets.map (Prod.map id f) := by
  cases c with
  | expr e _ => exact Expr.brackets_map f e
  | binding _ _ init _ => exact Expr.brackets_elim_map f init
  | matching e init _ =>
    rw [map, brackets, brackets, Expr.brackets_map, Expr.brackets_map, List.map_append]
  | availability q => rfl

theorem flatMap_brackets_map (f : ρ → σ) (cs : List (Clause ρ)) :
    (cs.map (map f)).flatMap brackets = (cs.flatMap brackets).map (Prod.map id f) := by
  induction cs with
  | nil => rfl
  | cons c cs ih =>
    rw [List.map_cons, List.flatMap_cons, List.flatMap_cons, ih, brackets_map, List.map_append]

end Clause

namespace Stmt

mutual

/-- The constructs of the statement that have a bracket, from left to right. -/
def brackets : Stmt ρ → List (Construct × ρ)
  | expr e _ => e.brackets
  | declaration _ _ init _ => init.elim [] Expr.brackets
  | ifStmt cs b a _ =>
    cs.flatMap Clause.brackets ++ (bracketsOfBody b ++ bracketsOfAlternative a)
  | guardStmt cs b _ | whileStmt cs b _ => cs.flatMap Clause.brackets ++ bracketsOfBody b
  | returnStmt e _ => e.elim [] Expr.brackets

/-- `brackets` of a body. -/
def bracketsOfBody : Body ρ → List (Construct × ρ)
  | .missing => []
  | .block ss p => (.block, p) :: bracketsAll ss

/-- `brackets` of what follows `else`. -/
def bracketsOfAlternative : Alternative ρ → List (Construct × ρ)
  | .body b => bracketsOfBody b
  | .elseIf s => brackets s

/-- `brackets` of each statement of a list. -/
def bracketsAll : List (Stmt ρ) → List (Construct × ρ)
  | [] => []
  | s :: ss => brackets s ++ bracketsAll ss

end

mutual

theorem brackets_map (f : ρ → σ) : ∀ s : Stmt ρ,
    (map f s).brackets = s.brackets.map (Prod.map id f)
  | expr e _ => Expr.brackets_map f e
  | declaration _ _ init _ => Expr.brackets_elim_map f init
  | ifStmt cs b a _ => by
    rw [map, brackets, brackets, Clause.flatMap_brackets_map, bracketsOfBody_map f b,
      bracketsOfAlternative_map f a, List.map_append, List.map_append]
  | guardStmt cs b _ => by
    rw [map, brackets, brackets, Clause.flatMap_brackets_map, bracketsOfBody_map f b,
      List.map_append]
  | whileStmt cs b _ => by
    rw [map, brackets, brackets, Clause.flatMap_brackets_map, bracketsOfBody_map f b,
      List.map_append]
  | returnStmt e _ => Expr.brackets_elim_map f e

theorem bracketsOfBody_map (f : ρ → σ) : ∀ b : Body ρ,
    bracketsOfBody (mapBody f b) = (bracketsOfBody b).map (Prod.map id f)
  | .missing => rfl
  | .block ss p => by
    rw [mapBody, bracketsOfBody, bracketsOfBody, bracketsAll_mapAll f ss]
    rfl

theorem bracketsOfAlternative_map (f : ρ → σ) : ∀ a : Alternative ρ,
    bracketsOfAlternative (mapAlternative f a) = (bracketsOfAlternative a).map (Prod.map id f)
  | .body b => bracketsOfBody_map f b
  | .elseIf s => brackets_map f s

theorem bracketsAll_mapAll (f : ρ → σ) : ∀ ss : List (Stmt ρ),
    bracketsAll (mapAll f ss) = (bracketsAll ss).map (Prod.map id f)
  | [] => rfl
  | s :: ss => by
    rw [mapAll, bracketsAll, bracketsAll, brackets_map f s, bracketsAll_mapAll f ss,
      List.map_append]

end

/-- The brackets of the statements among some items. -/
theorem bracketsAll_filterMap (items : List (Option (Stmt ρ))) :
    bracketsAll (items.filterMap id) = items.flatMap fun s? => s?.elim [] brackets := by
  induction items with
  | nil => rfl
  | cons s? items ih =>
    rw [List.flatMap_cons, ← ih]
    cases s? <;> rfl

end Stmt

end PlatformGate
