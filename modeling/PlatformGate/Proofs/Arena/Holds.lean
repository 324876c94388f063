/-
# Trees in an arena

An arena holds a tree under an id when the node under that id is the root of the tree, with ids and
slots under which the arena holds the parts.  An arena that grows goes on holding what it has held,
and laying out a tree gives an id under which the tree is held from then on
(`Stmt.layoutModule_holds`).  No two trees are held under one id, so an arena that was laid out says
which trees they were.
-/
import PlatformGate.Outcome

namespace PlatformGate

variable {ρ α β : Type}

/-! ## 1. Growing arenas -/

/-- Every node and every list of the first store is in the second. -/
structure Store.Grows {s : NodeSort} (st st' : Store s α) : Prop where
  get : ∀ i node, st.get? i = some node → st'.get? i = some node
  list : ∀ r ids, st.list? r = some ids → st'.list? r = some ids

namespace Store

variable {s : NodeSort} {st st' st'' : Store s α}

theorem Grows.refl (st : Store s α) : st.Grows st := ⟨fun _ _ h => h, fun _ _ h => h⟩

theorem Grows.trans (h : st.Grows st') (h' : st'.Grows st'') : st.Grows st'' :=
  ⟨fun i node hi => h'.get i node (h.get i node hi), fun r ids hr => h'.list r ids (h.list r ids hr)⟩

theorem grows_add (st : Store s α) (node : α) : st.Grows (st.add node).2 where
  get := by
    intro i node' h
    have hlt : i.index < st.nodes.size := (Array.getElem?_eq_some_iff.mp h).1
    unfold get? add
    rw [Array.getElem?_push, if_neg (Nat.ne_of_lt hlt)]
    exact h
  list := fun _ _ h => h

theorem grows_addList (st : Store s α) (ids : List (Id s)) : st.Grows (st.addList ids).2 where
  get := fun _ _ h => h
  list := by
    intro r ids' h
    unfold list? at h ⊢
    unfold addList
    split at h
    · rename_i hle
      have hstop : r.start + r.length - st.lists.size = 0 := by omega
      rw [if_pos (by simp only [Array.size_append]; omega), Array.extract_append, hstop]
      simpa using h
    · cases h

end Store

namespace Arena

/-- Every node and every list of the first arena is in the second. -/
structure Grows (a a' : Arena ρ) : Prop where
  exprs : a.exprs.Grows a'.exprs
  stmts : a.stmts.Grows a'.stmts
  clauses : a.clauses.Grows a'.clauses

variable {a a' a'' : Arena ρ}

theorem Grows.refl (a : Arena ρ) : a.Grows a := ⟨.refl _, .refl _, .refl _⟩

theorem Grows.trans (h : a.Grows a') (h' : a'.Grows a'') : a.Grows a'' :=
  ⟨h.exprs.trans h'.exprs, h.stmts.trans h'.stmts, h.clauses.trans h'.clauses⟩

/-- Whatever arena it starts from, only adding to it, the action gives a result of which `Q` holds. -/
def Keeps (m : StateM (Arena ρ) α) (Q : Arena ρ → α → Prop) : Prop :=
  ∀ a, a.Grows (m.run a).2 ∧ Q (m.run a).2 (m.run a).1

/-- What holds of an arena and goes on holding when it grows. -/
def Lasting (P : Arena ρ → Prop) : Prop := ∀ a a', a.Grows a' → P a → P a'

theorem Keeps.pure {Q : Arena ρ → α → Prop} {x : α} (h : ∀ a, Q a x) :
    Keeps (Pure.pure x : StateM (Arena ρ) α) Q := fun a => ⟨.refl a, h a⟩

theorem Keeps.bind {m : StateM (Arena ρ) α} {f : α → StateM (Arena ρ) β}
    {Q : Arena ρ → α → Prop} {R : Arena ρ → β → Prop} (h : Keeps m Q)
    (hQ : ∀ x, Lasting fun a => Q a x)
    (hf : ∀ x, Keeps (f x) fun a y => Q a x → R a y) : Keeps (m >>= f) R := by
  intro a
  obtain ⟨hgrows, hx⟩ := h a
  obtain ⟨hgrows', hy⟩ := hf (m.run a).1 (m.run a).2
  exact ⟨hgrows.trans hgrows', hy (hQ _ _ _ hgrows' hx)⟩

theorem Keeps.mono {m : StateM (Arena ρ) α} {Q R : Arena ρ → α → Prop} (h : Keeps m Q)
    (hQ : ∀ a x, Q a x → R a x) : Keeps m R :=
  fun a => ⟨(h a).1, hQ _ _ (h a).2⟩

theorem keeps_addExpr (node : ExprNode ρ) :
    Keeps (addExpr node) fun a i => a.exprs.get? i = some node :=
  fun a => ⟨⟨Store.grows_add _ _, .refl _, .refl _⟩, Store.get?_add a.exprs node⟩

theorem keeps_addExprs (ids : List (Id .expr)) :
    Keeps (addExprs (ρ := ρ) ids) fun a r => a.exprs.list? r = some ids :=
  fun a => ⟨⟨Store.grows_addList _ _, .refl _, .refl _⟩, Store.list?_addList a.exprs ids⟩

theorem keeps_addStmt (node : StmtNode ρ) :
    Keeps (addStmt node) fun a i => a.stmts.get? i = some node :=
  fun a => ⟨⟨.refl _, Store.grows_add _ _, .refl _⟩, Store.get?_add a.stmts node⟩

theorem keeps_addStmts (ids : List (Id .stmt)) :
    Keeps (addStmts (ρ := ρ) ids) fun a r => a.stmts.list? r = some ids :=
  fun a => ⟨⟨.refl _, Store.grows_addList _ _, .refl _⟩, Store.list?_addList a.stmts ids⟩

theorem keeps_addClause (node : ClauseNode ρ) :
    Keeps (addClause node) fun a i => a.clauses.get? i = some node :=
  fun a => ⟨⟨.refl _, .refl _, Store.grows_add _ _⟩, Store.get?_add a.clauses node⟩

theorem keeps_addClauses (ids : List (Id .clause)) :
    Keeps (addClauses (ρ := ρ) ids) fun a r => a.clauses.list? r = some ids :=
  fun a => ⟨⟨.refl _, .refl _, Store.grows_addList _ _⟩, Store.list?_addList a.clauses ids⟩

end Arena

open Arena

/-! ## 2. Expressions -/

namespace Expr

mutual

/-- The arena holds the expression under an id. -/
def Held (a : Arena ρ) : Expr ρ → Id .expr → Prop
  | int v p, i => a.exprs.get? i = some ⟨.int v, p⟩
  | bool v p, i => a.exprs.get? i = some ⟨.bool v, p⟩
  | ident n p, i => a.exprs.get? i = some ⟨.ident n, p⟩
  | discard p, i => a.exprs.get? i = some ⟨.discard, p⟩
  | paren e p, i => ∃ j, a.exprs.get? i = some ⟨.paren j, p⟩ ∧ Held a e j
  | tuple es p, i => ∃ r is, a.exprs.get? i = some ⟨.tuple r, p⟩ ∧ a.exprs.list? r = some is ∧
      HeldAll a es is
  | call c es p, i => ∃ j r is, a.exprs.get? i = some ⟨.call j r, p⟩ ∧ Held a c j ∧
      a.exprs.list? r = some is ∧ HeldAll a es is
  | unary o e p, i => ∃ j, a.exprs.get? i = some ⟨.unary o j, p⟩ ∧ Held a e j
  | binary o l r p, i => ∃ j k, a.exprs.get? i = some ⟨.binary o j k, p⟩ ∧ Held a l j ∧ Held a r k
  | ternary c t e p, i => ∃ j k l, a.exprs.get? i = some ⟨.ternary j k l, p⟩ ∧ Held a c j ∧
      Held a t k ∧ Held a e l
  | assign t v p, i => ∃ j k, a.exprs.get? i = some ⟨.assign j k, p⟩ ∧ Held a t j ∧ Held a v k
  | error p, i => a.exprs.get? i = some ⟨.error, p⟩

/-- `Held` for every expression of a list. -/
def HeldAll (a : Arena ρ) : List (Expr ρ) → List (Id .expr) → Prop
  | [], is => is = []
  | e :: es, is => ∃ i js, is = i :: js ∧ Held a e i ∧ HeldAll a es js

end

/-- `Held` for an expression that may be left out. -/
def HeldOption (a : Arena ρ) (e : Option (Expr ρ)) (i : Option (Id .expr)) : Prop :=
  match e, i with
  | none, none => True
  | some e, some i => Held a e i
  | _, _ => False

section Growing

variable {a a' : Arena ρ}

mutual

theorem Held.grow (h : a.Grows a') : ∀ (e : Expr ρ) (i : Id .expr), Held a e i → Held a' e i
  | int .., i, hi | bool .., i, hi | ident .., i, hi | discard .., i, hi | error .., i, hi =>
    h.exprs.get i _ hi
  | paren e _, i, hi | unary _ e _, i, hi => by
    obtain ⟨j, hi, hj⟩ := hi
    exact ⟨j, h.exprs.get i _ hi, Held.grow h e j hj⟩
  | tuple es _, i, hi => by
    obtain ⟨r, is, hi, hr, his⟩ := hi
    exact ⟨r, is, h.exprs.get i _ hi, h.exprs.list r _ hr, HeldAll.grow h es is his⟩
  | call c es _, i, hi => by
    obtain ⟨j, r, is, hi, hj, hr, his⟩ := hi
    exact ⟨j, r, is, h.exprs.get i _ hi, Held.grow h c j hj, h.exprs.list r _ hr,
      HeldAll.grow h es is his⟩
  | binary _ l r _, i, hi | assign l r _, i, hi => by
    obtain ⟨j, k, hi, hj, hk⟩ := hi
    exact ⟨j, k, h.exprs.get i _ hi, Held.grow h l j hj, Held.grow h r k hk⟩
  | ternary c t e _, i, hi => by
    obtain ⟨j, k, l, hi, hj, hk, hl⟩ := hi
    exact ⟨j, k, l, h.exprs.get i _ hi, Held.grow h c j hj, Held.grow h t k hk, Held.grow h e l hl⟩

theorem HeldAll.grow (h : a.Grows a') : ∀ (es : List (Expr ρ)) (is : List (Id .expr)),
    HeldAll a es is → HeldAll a' es is
  | [], _, his => his
  | e :: es, _, his => by
    obtain ⟨i, js, rfl, hi, hjs⟩ := his
    exact ⟨i, js, rfl, Held.grow h e i hi, HeldAll.grow h es js hjs⟩

end

end Growing

theorem lasting_held (e : Expr ρ) (i : Id .expr) : Lasting fun a => Held a e i :=
  fun _ _ h hi => Held.grow h e i hi

theorem lasting_heldAll (es : List (Expr ρ)) (is : List (Id .expr)) :
    Lasting fun a => HeldAll a es is :=
  fun _ _ h his => HeldAll.grow h es is his

theorem lasting_heldOption (e : Option (Expr ρ)) (i : Option (Id .expr)) :
    Lasting fun a => HeldOption a e i := by
  intro a a' h hi
  cases e <;> cases i <;> first | exact hi | exact Held.grow h _ _ hi

mutual

/-- **What is laid out is held.** -/
theorem layout_holds : ∀ e : Expr ρ, Keeps (layout e) fun a i => Held a e i
  | int .. | bool .. | ident .. | discard .. | error .. => by
    rw [layout]
    exact keeps_addExpr _
  | paren e p => by
    rw [layout]
    refine (layout_holds e).bind (lasting_held e) fun j => ?_
    exact (keeps_addExpr _).mono fun a i hi hj => ⟨j, hi, hj⟩
  | tuple [] p => by
    rw [layout]
    refine (keeps_addExpr _).mono fun a i hi => ⟨_, [], hi, ?_, rfl⟩
    simp [Store.list?, Slots.empty]
  | tuple (e :: es) p => by
    rw [layout]
    refine (layout_holds e).bind (lasting_held e) fun j => ?_
    refine (layoutAll_holds es).bind (lasting_heldAll es) fun js => ?_
    refine (keeps_addExprs _).bind (fun r => ?_) fun r => ?_
    · exact fun a a' h hr => h.exprs.list r _ hr
    · exact (keeps_addExpr _).mono fun a i hi hr hjs hj => ⟨r, _, hi, hr, j, js, rfl, hj, hjs⟩
  | call c es p => by
    rw [layout]
    refine (layout_holds c).bind (lasting_held c) fun j => ?_
    refine (layoutAll_holds es).bind (lasting_heldAll es) fun js => ?_
    refine (keeps_addExprs _).bind (fun r => ?_) fun r => ?_
    · exact fun a a' h hr => h.exprs.list r _ hr
    · exact (keeps_addExpr _).mono fun a i hi hr hjs hj => ⟨j, r, _, hi, hj, hr, hjs⟩
  | unary o e p => by
    rw [layout]
    refine (layout_holds e).bind (lasting_held e) fun j => ?_
    exact (keeps_addExpr _).mono fun a i hi hj => ⟨j, hi, hj⟩
  | binary o l r p => by
    rw [layout]
    refine (layout_holds l).bind (lasting_held l) fun j => ?_
    refine (layout_holds r).bind (lasting_held r) fun k => ?_
    exact (keeps_addExpr _).mono fun a i hi hk hj => ⟨j, k, hi, hj, hk⟩
  | ternary c t e p => by
    rw [layout]
    refine (layout_holds c).bind (lasting_held c) fun j => ?_
    refine (layout_holds t).bind (lasting_held t) fun k => ?_
    refine (layout_holds e).bind (lasting_held e) fun l => ?_
    exact (keeps_addExpr _).mono fun a i hi hl hk hj => ⟨j, k, l, hi, hj, hk, hl⟩
  | assign t v p => by
    rw [layout]
    refine (layout_holds t).bind (lasting_held t) fun j => ?_
    refine (layout_holds v).bind (lasting_held v) fun k => ?_
    exact (keeps_addExpr _).mono fun a i hi hk hj => ⟨j, k, hi, hj, hk⟩

theorem layoutAll_holds : ∀ es : List (Expr ρ), Keeps (layoutAll es) fun a is => HeldAll a es is
  | [] => by
    rw [layoutAll]
    exact .pure fun _ => rfl
  | e :: es => by
    rw [layoutAll]
    refine (layout_holds e).bind (lasting_held e) fun i => ?_
    refine (layoutAll_holds es).bind (lasting_heldAll es) fun js => ?_
    exact .pure fun a hjs hi => ⟨i, js, rfl, hi, hjs⟩

end

theorem layout?_holds (e : Option (Expr ρ)) : Keeps (layout? e) fun a i => HeldOption a e i := by
  cases e with
  | none => exact .pure fun _ => trivial
  | some e =>
    refine (layout_holds e).bind (lasting_held e) fun i => ?_
    exact .pure fun a hi => hi

section Unique

variable {a : Arena ρ}

mutual

/-- **No two expressions are held under one id.** -/
theorem Held.unique : ∀ (e e' : Expr ρ) (i : Id .expr), Held a e i → Held a e' i → e = e'
  | int .., e', i, h, h' | bool .., e', i, h, h' | ident .., e', i, h, h'
  | discard .., e', i, h, h' | error .., e', i, h, h' => by
    cases e' <;> grind [Held]
  | paren e _, e', i, h, h' | unary _ e _, e', i, h, h' => by
    obtain ⟨j, hi, hj⟩ := h
    cases e' <;> grind [Held, Held.unique e]
  | tuple es _, e', i, h, h' => by
    obtain ⟨r, is, hi, hr, his⟩ := h
    cases e' <;> grind [Held, HeldAll.unique es]
  | call c es _, e', i, h, h' => by
    obtain ⟨j, r, is, hi, hj, hr, his⟩ := h
    cases e' <;> grind [Held, Held.unique c, HeldAll.unique es]
  | binary _ l r _, e', i, h, h' | assign l r _, e', i, h, h' => by
    obtain ⟨j, k, hi, hj, hk⟩ := h
    cases e' <;> grind [Held, Held.unique l, Held.unique r]
  | ternary c t e _, e', i, h, h' => by
    obtain ⟨j, k, l, hi, hj, hk, hl⟩ := h
    cases e' <;> grind [Held, Held.unique c, Held.unique t, Held.unique e]

theorem HeldAll.unique : ∀ (es es' : List (Expr ρ)) (is : List (Id .expr)),
    HeldAll a es is → HeldAll a es' is → es = es'
  | [], es', is, h, h' => by
    cases es' <;> grind [HeldAll]
  | e :: es, es', is, h, h' => by
    obtain ⟨i, js, rfl, hi, hjs⟩ := h
    cases es' <;> grind [HeldAll, Held.unique e, HeldAll.unique es]

end

theorem HeldOption.unique {e e' : Option (Expr ρ)} {i : Option (Id .expr)}
    (h : HeldOption a e i) (h' : HeldOption a e' i) : e = e' := by
  cases e with
  | none => cases e' <;> cases i <;> first | rfl | exact h.elim | exact h'.elim
  | some e =>
    cases e' <;> cases i <;> first
      | exact h.elim | exact h'.elim | exact congrArg some (Held.unique _ _ _ h h')

end Unique

end Expr

/-! ## 3. Clauses -/

namespace Clause

/-- The arena holds the clause under an id. -/
def Held (a : Arena ρ) : Clause ρ → Id .clause → Prop
  | expr e p, i => ∃ j, a.clauses.get? i = some ⟨.expr j, p⟩ ∧ e.Held a j
  | binding m b init p, i => ∃ j, a.clauses.get? i = some ⟨.binding m b j, p⟩ ∧
      Expr.HeldOption a init j
  | matching e init p, i => ∃ j k, a.clauses.get? i = some ⟨.matching j k, p⟩ ∧ e.Held a j ∧
      init.Held a k
  | availability q, i => a.clauses.get? i = some ⟨.availability q, q.place⟩

/-- `Held` for every clause of a list. -/
def HeldAll (a : Arena ρ) : List (Clause ρ) → List (Id .clause) → Prop
  | [], is => is = []
  | c :: cs, is => ∃ i js, is = i :: js ∧ Held a c i ∧ HeldAll a cs js

/-- The arena holds the clauses of a header in the given places. -/
def HeldIn (a : Arena ρ) (cs : List (Clause ρ)) (r : Slots .clause) : Prop :=
  ∃ is, a.clauses.list? r = some is ∧ HeldAll a cs is

theorem lasting_held (c : Clause ρ) (i : Id .clause) : Lasting fun a => Held a c i := by
  intro a a' h hi
  cases c with
  | expr e p =>
    obtain ⟨j, hi, hj⟩ := hi
    exact ⟨j, h.clauses.get i _ hi, hj.grow h e j⟩
  | binding m b init p =>
    obtain ⟨j, hi, hj⟩ := hi
    exact ⟨j, h.clauses.get i _ hi, Expr.lasting_heldOption init j a a' h hj⟩
  | matching e init p =>
    obtain ⟨j, k, hi, hj, hk⟩ := hi
    exact ⟨j, k, h.clauses.get i _ hi, hj.grow h e j, hk.grow h init k⟩
  | availability q => exact h.clauses.get i _ hi

theorem lasting_heldAll (cs : List (Clause ρ)) (is : List (Id .clause)) :
    Lasting fun a => HeldAll a cs is := by
  intro a a' h his
  induction cs generalizing is with
  | nil => exact his
  | cons c cs ih =>
    obtain ⟨i, js, rfl, hi, hjs⟩ := his
    exact ⟨i, js, rfl, lasting_held c i a a' h hi, ih js hjs⟩

theorem lasting_heldIn (cs : List (Clause ρ)) (r : Slots .clause) :
    Lasting fun a => HeldIn a cs r := by
  rintro a a' h ⟨is, hr, his⟩
  exact ⟨is, h.clauses.list r is hr, lasting_heldAll cs is a a' h his⟩

/-- **A clause that is laid out is held.** -/
theorem layout_holds (c : Clause ρ) : Keeps (layout c) fun a i => Held a c i := by
  cases c with
  | expr e p =>
    refine (Expr.layout_holds e).bind (Expr.lasting_held e) fun j => ?_
    exact (keeps_addClause _).mono fun a i hi hj => ⟨j, hi, hj⟩
  | binding m b init p =>
    refine (Expr.layout?_holds init).bind (Expr.lasting_heldOption init) fun j => ?_
    exact (keeps_addClause _).mono fun a i hi hj => ⟨j, hi, hj⟩
  | matching e init p =>
    refine (Expr.layout_holds e).bind (Expr.lasting_held e) fun j => ?_
    refine (Expr.layout_holds init).bind (Expr.lasting_held init) fun k => ?_
    exact (keeps_addClause _).mono fun a i hi hk hj => ⟨j, k, hi, hj, hk⟩
  | availability q => exact keeps_addClause _

theorem layoutAll_holds (cs : List (Clause ρ)) :
    Keeps (layoutAll cs) fun a is => HeldAll a cs is := by
  induction cs with
  | nil => exact .pure fun _ => rfl
  | cons c cs ih =>
    refine (layout_holds c).bind (lasting_held c) fun i => ?_
    refine ih.bind (lasting_heldAll cs) fun js => ?_
    exact .pure fun a hjs hi => ⟨i, js, rfl, hi, hjs⟩

theorem layoutHeader_holds (cs : List (Clause ρ)) :
    Keeps (layoutHeader cs) fun a r => HeldIn a cs r := by
  refine (layoutAll_holds cs).bind (lasting_heldAll cs) fun is => ?_
  exact (keeps_addClauses is).mono fun a r hr his => ⟨is, hr, his⟩

section Unique

variable {a : Arena ρ}

/-- No two clauses are held under one id. -/
theorem Held.unique {c c' : Clause ρ} {i : Id .clause} (h : Held a c i) (h' : Held a c' i) :
    c = c' := by
  cases c with
  | expr e p =>
    obtain ⟨j, hi, hj⟩ := h
    cases c' <;> grind [Held, Expr.Held.unique]
  | binding m b init p =>
    obtain ⟨j, hi, hj⟩ := h
    cases c' <;> grind [Held, Expr.HeldOption.unique]
  | matching e init p =>
    obtain ⟨j, k, hi, hj, hk⟩ := h
    cases c' <;> grind [Held, Expr.Held.unique]
  | availability q => cases c' <;> grind [Held]

theorem HeldAll.unique {cs cs' : List (Clause ρ)} {is : List (Id .clause)} (h : HeldAll a cs is)
    (h' : HeldAll a cs' is) : cs = cs' := by
  induction cs generalizing cs' is with
  | nil => cases cs' <;> grind [HeldAll]
  | cons c cs ih =>
    obtain ⟨i, js, rfl, hi, hjs⟩ := h
    cases cs' <;> grind [HeldAll, Held.unique]

theorem HeldIn.unique {cs cs' : List (Clause ρ)} {r : Slots .clause} (h : HeldIn a cs r)
    (h' : HeldIn a cs' r) : cs = cs' := by
  obtain ⟨is, hr, his⟩ := h
  obtain ⟨is', hr', his'⟩ := h'
  obtain rfl : is = is' := Option.some.inj (hr.symm.trans hr')
  exact his.unique his'

end Unique

end Clause

/-! ## 4. Statements -/

namespace Stmt

mutual

/-- The arena holds the statement under an id. -/
def Held (a : Arena ρ) : Stmt ρ → Id .stmt → Prop
  | expr e p, i => ∃ j, a.stmts.get? i = some ⟨.expr j, p⟩ ∧ e.Held a j
  | declaration m b init p, i => ∃ j, a.stmts.get? i = some ⟨.declaration m b j, p⟩ ∧
      Expr.HeldOption a init j
  | ifStmt cs b t p, i => ∃ r body other, a.stmts.get? i = some ⟨.ifStmt r body other, p⟩ ∧
      Clause.HeldIn a cs r ∧ BodyHeld a b body ∧ AlternativeHeld a t other
  | guardStmt cs b p, i => ∃ r body, a.stmts.get? i = some ⟨.guardStmt r body, p⟩ ∧
      Clause.HeldIn a cs r ∧ BodyHeld a b body
  | whileStmt cs b p, i => ∃ r body, a.stmts.get? i = some ⟨.whileStmt r body, p⟩ ∧
      Clause.HeldIn a cs r ∧ BodyHeld a b body
  | returnStmt e p, i => ∃ j, a.stmts.get? i = some ⟨.returnStmt j, p⟩ ∧ Expr.HeldOption a e j

/-- `Held` for a body. -/
def BodyHeld (a : Arena ρ) : Body ρ → Option (BlockNode ρ) → Prop
  | .missing, node => node = none
  | .block ss p, node => ∃ r is, node = some ⟨r, p⟩ ∧ a.stmts.list? r = some is ∧ HeldAll a ss is

/-- `Held` for what follows `else`. -/
def AlternativeHeld (a : Arena ρ) : Alternative ρ → Option (ElseNode ρ) → Prop
  | .body b, node => ∃ block, node = block.map .block ∧ BodyHeld a b block
  | .elseIf s, node => ∃ i, node = some (.elseIf i) ∧ Held a s i

/-- `Held` for every statement of a list. -/
def HeldAll (a : Arena ρ) : List (Stmt ρ) → List (Id .stmt) → Prop
  | [], is => is = []
  | s :: ss, is => ∃ i js, is = i :: js ∧ Held a s i ∧ HeldAll a ss js

end

/-- The arena holds the statements in the given places. -/
def HeldIn (a : Arena ρ) (ss : List (Stmt ρ)) (r : Slots .stmt) : Prop :=
  ∃ is, a.stmts.list? r = some is ∧ HeldAll a ss is

section Growing

variable {a a' : Arena ρ}

mutual

theorem Held.grow (h : a.Grows a') : ∀ (s : Stmt ρ) (i : Id .stmt), Held a s i → Held a' s i
  | expr e _, i, hi => by
    obtain ⟨j, hi, hj⟩ := hi
    exact ⟨j, h.stmts.get i _ hi, hj.grow h e j⟩
  | declaration _ _ e _, i, hi | returnStmt e _, i, hi => by
    obtain ⟨j, hi, hj⟩ := hi
    exact ⟨j, h.stmts.get i _ hi, Expr.lasting_heldOption e j a a' h hj⟩
  | ifStmt cs b t _, i, hi => by
    obtain ⟨r, body, other, hi, hr, hbody, hother⟩ := hi
    exact ⟨r, body, other, h.stmts.get i _ hi, Clause.lasting_heldIn cs r a a' h hr,
      BodyHeld.grow h b body hbody, AlternativeHeld.grow h t other hother⟩
  | guardStmt cs b _, i, hi | whileStmt cs b _, i, hi => by
    obtain ⟨r, body, hi, hr, hbody⟩ := hi
    exact ⟨r, body, h.stmts.get i _ hi, Clause.lasting_heldIn cs r a a' h hr,
      BodyHeld.grow h b body hbody⟩

theorem BodyHeld.grow (h : a.Grows a') : ∀ (b : Body ρ) (node : Option (BlockNode ρ)),
    BodyHeld a b node → BodyHeld a' b node
  | .missing, _, hnode => hnode
  | .block ss _, _, hnode => by
    obtain ⟨r, is, rfl, hr, his⟩ := hnode
    exact ⟨r, is, rfl, h.stmts.list r is hr, HeldAll.grow h ss is his⟩

theorem AlternativeHeld.grow (h : a.Grows a') : ∀ (t : Alternative ρ) (node : Option (ElseNode ρ)),
    AlternativeHeld a t node → AlternativeHeld a' t node
  | .body b, _, hnode => by
    obtain ⟨block, rfl, hblock⟩ := hnode
    exact ⟨block, rfl, BodyHeld.grow h b block hblock⟩
  | .elseIf s, _, hnode => by
    obtain ⟨i, rfl, hi⟩ := hnode
    exact ⟨i, rfl, Held.grow h s i hi⟩

theorem HeldAll.grow (h : a.Grows a') : ∀ (ss : List (Stmt ρ)) (is : List (Id .stmt)),
    HeldAll a ss is → HeldAll a' ss is
  | [], _, his => his
  | s :: ss, _, his => by
    obtain ⟨i, js, rfl, hi, hjs⟩ := his
    exact ⟨i, js, rfl, Held.grow h s i hi, HeldAll.grow h ss js hjs⟩

end

end Growing

theorem lasting_held (s : Stmt ρ) (i : Id .stmt) : Lasting fun a => Held a s i :=
  fun _ _ h hi => Held.grow h s i hi

theorem lasting_bodyHeld (b : Body ρ) (node : Option (BlockNode ρ)) :
    Lasting fun a => BodyHeld a b node :=
  fun _ _ h hnode => BodyHeld.grow h b node hnode

theorem lasting_alternativeHeld (t : Alternative ρ) (node : Option (ElseNode ρ)) :
    Lasting fun a => AlternativeHeld a t node :=
  fun _ _ h hnode => AlternativeHeld.grow h t node hnode

theorem lasting_heldAll (ss : List (Stmt ρ)) (is : List (Id .stmt)) :
    Lasting fun a => HeldAll a ss is :=
  fun _ _ h his => HeldAll.grow h ss is his

mutual

/-- **A statement that is laid out is held.** -/
theorem layout_holds : ∀ s : Stmt ρ, Keeps (layout s) fun a i => Held a s i
  | expr e p => by
    rw [layout]
    refine (Expr.layout_holds e).bind (Expr.lasting_held e) fun j => ?_
    exact (keeps_addStmt _).mono fun a i hi hj => ⟨j, hi, hj⟩
  | declaration _ _ e _ | returnStmt e _ => by
    rw [layout]
    refine (Expr.layout?_holds e).bind (Expr.lasting_heldOption e) fun j => ?_
    exact (keeps_addStmt _).mono fun a i hi hj => ⟨j, hi, hj⟩
  | ifStmt cs b t p => by
    rw [layout]
    refine (Clause.layoutHeader_holds cs).bind (Clause.lasting_heldIn cs) fun r => ?_
    refine (layoutBody_holds b).bind (lasting_bodyHeld b) fun body => ?_
    refine (layoutAlternative_holds t).bind (lasting_alternativeHeld t) fun other => ?_
    exact (keeps_addStmt _).mono fun a i hi hother hbody hr =>
      ⟨r, body, other, hi, hr, hbody, hother⟩
  | guardStmt cs b p | whileStmt cs b p => by
    rw [layout]
    refine (Clause.layoutHeader_holds cs).bind (Clause.lasting_heldIn cs) fun r => ?_
    refine (layoutBody_holds b).bind (lasting_bodyHeld b) fun body => ?_
    exact (keeps_addStmt _).mono fun a i hi hbody hr => ⟨r, body, hi, hr, hbody⟩

theorem layoutBody_holds : ∀ b : Body ρ, Keeps (layoutBody b) fun a node => BodyHeld a b node
  | .missing => by
    rw [layoutBody]
    exact .pure fun _ => rfl
  | .block ss p => by
    rw [layoutBody]
    refine (layoutAll_holds ss).bind (lasting_heldAll ss) fun is => ?_
    refine (keeps_addStmts is).bind (fun r => ?_) fun r => ?_
    · exact fun a a' h hr => h.stmts.list r is hr
    · exact .pure fun a hr his => ⟨r, is, rfl, hr, his⟩

theorem layoutAlternative_holds : ∀ t : Alternative ρ,
    Keeps (layoutAlternative t) fun a node => AlternativeHeld a t node
  | .body b => by
    rw [layoutAlternative]
    refine (layoutBody_holds b).bind (lasting_bodyHeld b) fun block => ?_
    exact .pure fun a hblock => ⟨block, rfl, hblock⟩
  | .elseIf s => by
    rw [layoutAlternative]
    refine (layout_holds s).bind (lasting_held s) fun i => ?_
    exact .pure fun a hi => ⟨i, rfl, hi⟩

theorem layoutAll_holds : ∀ ss : List (Stmt ρ), Keeps (layoutAll ss) fun a is => HeldAll a ss is
  | [] => by
    rw [layoutAll]
    exact .pure fun _ => rfl
  | s :: ss => by
    rw [layoutAll]
    refine (layout_holds s).bind (lasting_held s) fun i => ?_
    refine (layoutAll_holds ss).bind (lasting_heldAll ss) fun js => ?_
    exact .pure fun a hjs hi => ⟨i, js, rfl, hi, hjs⟩

end

/-- **A module that is laid out is held** in the places that it is given. -/
theorem layoutModule_holds (ss : List (Stmt ρ)) :
    Keeps (layoutModule ss) fun a r => HeldIn a ss r := by
  refine (layoutAll_holds ss).bind (lasting_heldAll ss) fun is => ?_
  exact (keeps_addStmts is).mono fun a r hr his => ⟨is, hr, his⟩

section Unique

variable {a : Arena ρ}

mutual

/-- **No two statements are held under one id.** -/
theorem Held.unique : ∀ (s s' : Stmt ρ) (i : Id .stmt), Held a s i → Held a s' i → s = s'
  | expr e _, s', i, h, h' => by
    obtain ⟨j, hi, hj⟩ := h
    cases s' <;> grind [Held, Expr.Held.unique]
  | declaration _ _ e _, s', i, h, h' | returnStmt e _, s', i, h, h' => by
    obtain ⟨j, hi, hj⟩ := h
    cases s' <;> grind [Held, Expr.HeldOption.unique]
  | ifStmt cs b t _, s', i, h, h' => by
    obtain ⟨r, body, other, hi, hr, hbody, hother⟩ := h
    cases s' <;> grind [Held, Clause.HeldIn.unique, BodyHeld.unique b, AlternativeHeld.unique t]
  | guardStmt cs b _, s', i, h, h' | whileStmt cs b _, s', i, h, h' => by
    obtain ⟨r, body, hi, hr, hbody⟩ := h
    cases s' <;> grind [Held, Clause.HeldIn.unique, BodyHeld.unique b]

theorem BodyHeld.unique : ∀ (b b' : Body ρ) (node : Option (BlockNode ρ)),
    BodyHeld a b node → BodyHeld a b' node → b = b'
  | .missing, b', node, h, h' => by
    cases b' <;> grind [BodyHeld]
  | .block ss _, b', node, h, h' => by
    obtain ⟨r, is, rfl, hr, his⟩ := h
    cases b' <;> grind [BodyHeld, HeldAll.unique ss]

theorem AlternativeHeld.unique : ∀ (t t' : Alternative ρ) (node : Option (ElseNode ρ)),
    AlternativeHeld a t node → AlternativeHeld a t' node → t = t'
  | .body b, t', node, h, h' => by
    obtain ⟨block, rfl, hblock⟩ := h
    cases t' with
    | body b' =>
      obtain ⟨block', hmap, hblock'⟩ := h'
      obtain rfl := Option.map_injective (fun _ _ => ElseNode.block.inj) hmap
      exact congrArg Alternative.body (BodyHeld.unique b b' block hblock hblock')
    | elseIf s =>
      obtain ⟨i, hmap, -⟩ := h'
      cases block <;> cases hmap
  | .elseIf s, t', node, h, h' => by
    obtain ⟨i, rfl, hi⟩ := h
    cases t' with
    | body b =>
      obtain ⟨block, hmap, -⟩ := h'
      cases block <;> cases hmap
    | elseIf s' =>
      obtain ⟨j, hj, hi'⟩ := h'
      cases hj
      exact congrArg Alternative.elseIf (Held.unique s s' i hi hi')

theorem HeldAll.unique : ∀ (ss ss' : List (Stmt ρ)) (is : List (Id .stmt)),
    HeldAll a ss is → HeldAll a ss' is → ss = ss'
  | [], ss', is, h, h' => by
    cases ss' <;> grind [HeldAll]
  | s :: ss, ss', is, h, h' => by
    obtain ⟨i, js, rfl, hi, hjs⟩ := h
    cases ss' <;> grind [HeldAll, Held.unique s, HeldAll.unique ss]

end

/-- No two lists of statements are held in the same places. -/
theorem HeldIn.unique {ss ss' : List (Stmt ρ)} {r : Slots .stmt} (h : HeldIn a ss r)
    (h' : HeldIn a ss' r) : ss = ss' := by
  obtain ⟨is, hr, his⟩ := h
  obtain ⟨is', hr', his'⟩ := h'
  obtain rfl : is = is' := Option.some.inj (hr.symm.trans hr')
  exact HeldAll.unique _ _ _ his his'

end Unique

end Stmt

/-! ## 5. Outcomes -/

namespace Outcome

/-- The module of the outcome is a list of statements, as trees. -/
def Holds (o : Outcome) (ss : List (Stmt Span)) : Prop := Stmt.HeldIn o.arena ss o.module

/-- **The trees of an outcome** are the statements of the top level, each node at its place in the
source, and no others. -/
theorem holds_ofSource_iff (source : String) (limit : Nat) (ss : List (Stmt Span)) :
    (ofSource source limit).Holds ss ↔
      ss = Stmt.mapAll (Session.start (Token.ofSource source) source limit).locate
        (Parser.topLevel (Input.start (Terminal.ofTokens (Token.ofSource source)))).value := by
  have hheld := (Stmt.layoutModule_holds (Stmt.mapAll
    (Session.start (Token.ofSource source) source limit).locate
    (Parser.topLevel (Input.start (Terminal.ofTokens (Token.ofSource source)))).value) {}).2
  constructor
  · intro h
    exact Stmt.HeldIn.unique h hheld
  · rintro rfl
    exact hheld

end Outcome

end PlatformGate
