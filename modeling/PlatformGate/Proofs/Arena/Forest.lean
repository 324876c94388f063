/-
# Arenas as forests

What a node names are its parts: single nodes, and lists of nodes in places of the list storage.
`Forest` says of an arena and some parts that are its roots that every node hangs under the roots
exactly once, that every place of the list storage belongs to exactly one list, and that going
through the roots in order, the parts of a node before the node, meets the nodes of each sort in the
order of their ids.

The second half follows an arena while it grows.  The roots are then the parts that are still to be
used: adding a node uses up the roots that it names and makes a root of itself (`Forest.add`), and
storing a list turns the members into one root (`Forest.store`).
-/
import PlatformGate.Proofs.Arena.Holds

namespace PlatformGate

/-! ## 1. Parts of nodes -/

/-- A node, by its sort and number. -/
structure Ref where
  sort : NodeSort
  index : Nat
  deriving DecidableEq, Repr, Inhabited

def Id.ref {s : NodeSort} (i : Id s) : Ref := ⟨s, i.index⟩

/-- What a node names: a node, the statement of an `else`, or the nodes of a list. -/
inductive Part
  | one (x : Ref)
  | elseIf (i : Id .stmt)
  | list {s : NodeSort} (r : Slots s)

namespace Part

/-- The nodes named by the part itself. -/
def direct : Part → List Ref
  | one x => [x]
  | elseIf i => [i.ref]
  | list _ => []

/-- The places of the list storage that the part names. -/
def places : Part → List (NodeSort × Nat)
  | one _ | elseIf _ => []
  | list (s := s) r => (List.range' r.start r.length).map fun k => (s, k)

end Part

/-- The parts of a node, in the order of the source. -/
def ExprForm.parts : ExprForm → List Part
  | int _ | bool _ | ident _ | discard | error => []
  | paren i | unary _ i => [.one i.ref]
  | tuple r => [.list r]
  | call i r => [.one i.ref, .list r]
  | binary _ i j | assign i j => [.one i.ref, .one j.ref]
  | ternary i j k => [.one i.ref, .one j.ref, .one k.ref]

/-- An expression that may be left out. -/
def optionParts (i? : Option (Id .expr)) : List Part := i?.toList.map fun i => .one i.ref

section Forms

variable {ρ : Type}

def ClauseForm.parts : ClauseForm ρ → List Part
  | expr i => [.one i.ref]
  | binding _ _ i? => optionParts i?
  | matching i j => [.one i.ref, .one j.ref]
  | availability _ => []

def blockParts (b? : Option (BlockNode ρ)) : List Part := b?.toList.map fun b => .list b.stmts

def elseParts : Option (ElseNode ρ) → List Part
  | none => []
  | some (.block b) => [.list b.stmts]
  | some (.elseIf i) => [.elseIf i]

def StmtForm.parts : StmtForm ρ → List Part
  | expr i => [.one i.ref]
  | declaration _ _ i? | returnStmt i? => optionParts i?
  | ifStmt r b? e? => .list r :: (blockParts b? ++ elseParts e?)
  | guardStmt r b? | whileStmt r b? => .list r :: blockParts b?

def StmtForm.isIf : StmtForm ρ → Bool
  | ifStmt .. => true
  | _ => false

end Forms

/-! ## 2. Forests -/

namespace Arena

variable {ρ : Type}

/-- How many nodes of a sort there are. -/
def count (a : Arena ρ) : NodeSort → Nat
  | .expr => a.exprs.nodes.size
  | .stmt => a.stmts.nodes.size
  | .clause => a.clauses.nodes.size

/-- How many places the list storage of a sort has. -/
def capacity (a : Arena ρ) : NodeSort → Nat
  | .expr => a.exprs.lists.size
  | .stmt => a.stmts.lists.size
  | .clause => a.clauses.lists.size

/-- All nodes in the list storages. -/
def listed (a : Arena ρ) : List Ref :=
  a.exprs.lists.toList.map Id.ref ++
    (a.stmts.lists.toList.map Id.ref ++ a.clauses.lists.toList.map Id.ref)

/-- The parts of all nodes. -/
def parts (a : Arena ρ) : List Part :=
  a.exprs.nodes.toList.flatMap (·.form.parts) ++
    (a.stmts.nodes.toList.flatMap (·.form.parts) ++ a.clauses.nodes.toList.flatMap (·.form.parts))

/-- The parts of one node. -/
def parts? (a : Arena ρ) : Ref → Option (List Part)
  | ⟨.expr, k⟩ => (a.exprs.get? ⟨k⟩).map (·.form.parts)
  | ⟨.stmt, k⟩ => (a.stmts.get? ⟨k⟩).map (·.form.parts)
  | ⟨.clause, k⟩ => (a.clauses.get? ⟨k⟩).map (·.form.parts)

/-- The nodes of a list. -/
def list? (a : Arena ρ) : {s : NodeSort} → Slots s → Option (List (Id s))
  | .expr, r => a.exprs.list? r
  | .stmt, r => a.stmts.list? r
  | .clause, r => a.clauses.list? r

/-- The part names exactly the given nodes. -/
def Names (a : Arena ρ) : Part → List Ref → Prop
  | .one x, xs => xs = [x]
  | .elseIf i, xs => xs = [i.ref]
  | .list r, xs => ∃ is, a.list? r = some is ∧ xs = is.map Id.ref

/-- `Names` for some parts one after the other. -/
def NamesAll (a : Arena ρ) : List Part → List Ref → Prop
  | [], xs => xs = []
  | p :: ps, xs => ∃ ys zs, a.Names p ys ∧ a.NamesAll ps zs ∧ xs = ys ++ zs

/-- Going through nodes one after the other, all that hangs under a node before the node itself,
meets the nodes of the second list in that order. -/
inductive PostOrder (a : Arena ρ) : List Ref → List Ref → Prop
  | nil : PostOrder a [] []
  | cons {x : Ref} {ps : List Part} {cs xs ys zs : List Ref} (parts : a.parts? x = some ps)
    (names : a.NamesAll ps cs) (below : PostOrder a cs ys) (rest : PostOrder a xs zs) :
    PostOrder a (x :: xs) (ys ++ x :: zs)

/-- All nodes hang under the roots as the parts of a forest, and were numbered in post-order. -/
structure Forest (a : Arena ρ) (roots : List Part) : Prop where
  /-- What a node names is there, and what it names of its own sort came before it. -/
  children : ∀ x : Ref, x.index < a.count x.sort → ∃ ps cs, a.parts? x = some ps ∧
    a.NamesAll ps cs ∧ ∀ c ∈ cs, c.index < a.count c.sort ∧ (c.sort = x.sort → c.index < x.index)
  /-- Every node is named exactly once, by a part itself or in a list, and nothing else is named. -/
  once : ∀ x : Ref, ((roots ++ a.parts).flatMap Part.direct ++ a.listed).count x =
    if x.index < a.count x.sort then 1 else 0
  /-- Every place of the list storage belongs to exactly one list, and no list has other places. -/
  partition : ∀ s k, ((roots ++ a.parts).flatMap Part.places).count (s, k) =
    if k < a.capacity s then 1 else 0
  /-- The statement of an `else` is an `if`. -/
  chained : ∀ i, Part.elseIf i ∈ roots ++ a.parts →
    ∃ node, a.stmts.get? i = some node ∧ node.form.isIf = true
  /-- In post-order the nodes of a sort stand in the order of their ids. -/
  postOrder : ∃ xs ys, a.NamesAll roots xs ∧ a.PostOrder xs ys ∧
    ∀ s, (ys.filter fun y => y.sort = s).map Ref.index = List.range (a.count s)

/-! ## 3. Names and orders -/

variable {a a' : Arena ρ}

theorem parts?_grow (h : a.Grows a') {x : Ref} {ps : List Part} (hx : a.parts? x = some ps) :
    a'.parts? x = some ps := by
  obtain ⟨s, k⟩ := x
  cases s <;> obtain ⟨node, hnode, rfl⟩ := Option.map_eq_some_iff.mp hx
  · exact Option.map_eq_some_iff.mpr ⟨node, h.exprs.get _ _ hnode, rfl⟩
  · exact Option.map_eq_some_iff.mpr ⟨node, h.stmts.get _ _ hnode, rfl⟩
  · exact Option.map_eq_some_iff.mpr ⟨node, h.clauses.get _ _ hnode, rfl⟩

theorem list?_grow (h : a.Grows a') {s : NodeSort} {r : Slots s} {is : List (Id s)}
    (hr : a.list? r = some is) : a'.list? r = some is := by
  cases s
  · exact h.exprs.list _ _ hr
  · exact h.stmts.list _ _ hr
  · exact h.clauses.list _ _ hr

theorem Names.grow (h : a.Grows a') {p : Part} {xs : List Ref} (hp : a.Names p xs) :
    a'.Names p xs := by
  cases p with
  | one x => exact hp
  | elseIf i => exact hp
  | list r =>
    obtain ⟨is, hr, rfl⟩ := hp
    exact ⟨is, list?_grow h hr, rfl⟩

theorem NamesAll.grow (h : a.Grows a') {ps : List Part} {xs : List Ref} (hps : a.NamesAll ps xs) :
    a'.NamesAll ps xs := by
  induction ps generalizing xs with
  | nil => exact hps
  | cons p ps ih =>
    obtain ⟨ys, zs, hp, hps, rfl⟩ := hps
    exact ⟨ys, zs, hp.grow h, ih hps, rfl⟩

theorem PostOrder.grow (h : a.Grows a') {xs ys : List Ref} (hxs : a.PostOrder xs ys) :
    a'.PostOrder xs ys := by
  induction hxs with
  | nil => exact .nil
  | cons hparts hnames _ _ ihbelow ihrest =>
    exact .cons (parts?_grow h hparts) (hnames.grow h) ihbelow ihrest

theorem namesAll_append {ps qs : List Part} {xs : List Ref} :
    a.NamesAll (ps ++ qs) xs ↔ ∃ ys zs, a.NamesAll ps ys ∧ a.NamesAll qs zs ∧ xs = ys ++ zs := by
  induction ps generalizing xs with
  | nil =>
    constructor
    · exact fun h => ⟨[], xs, rfl, h, rfl⟩
    · rintro ⟨_, zs, rfl, h, rfl⟩
      exact h
  | cons p ps ih =>
    constructor
    · rintro ⟨ys, zs, hp, h, rfl⟩
      obtain ⟨ys', zs', hps, hqs, rfl⟩ := ih.mp h
      exact ⟨ys ++ ys', zs', ⟨ys, ys', hp, hps, rfl⟩, hqs, (List.append_assoc ..).symm⟩
    · rintro ⟨_, zs, ⟨ys, ys', hp, hps, rfl⟩, hqs, rfl⟩
      exact ⟨ys, ys' ++ zs, hp, ih.mpr ⟨ys', zs, hps, hqs, rfl⟩, List.append_assoc ..⟩

theorem namesAll_one {x : Ref} : a.NamesAll [.one x] [x] := ⟨[x], [], rfl, rfl, rfl⟩

/-- Single nodes name themselves, whatever the arena. -/
theorem namesAll_ones (xs : List Ref) : a.NamesAll (xs.map .one) xs := by
  induction xs with
  | nil => rfl
  | cons x xs ih => exact ⟨[x], xs, rfl, ih, rfl⟩

theorem Names.unique {p : Part} {xs ys : List Ref} (h : a.Names p xs) (h' : a.Names p ys) :
    xs = ys := by
  cases p with
  | one x => exact h.trans h'.symm
  | elseIf i => exact h.trans h'.symm
  | list r =>
    obtain ⟨is, hr, rfl⟩ := h
    obtain ⟨is', hr', rfl⟩ := h'
    rw [Option.some.inj (hr.symm.trans hr')]

theorem NamesAll.unique {ps : List Part} {xs ys : List Ref} (h : a.NamesAll ps xs)
    (h' : a.NamesAll ps ys) : xs = ys := by
  induction ps generalizing xs ys with
  | nil => exact h.trans h'.symm
  | cons p ps ih =>
    obtain ⟨us, vs, hp, hps, rfl⟩ := h
    obtain ⟨us', vs', hp', hps', rfl⟩ := h'
    rw [hp.unique hp', ih hps hps']

theorem PostOrder.append {xs xs' ys ys' : List Ref} (h : a.PostOrder xs ys)
    (h' : a.PostOrder xs' ys') : a.PostOrder (xs ++ xs') (ys ++ ys') := by
  induction h with
  | nil => exact h'
  | cons hparts hnames hbelow _ _ ihrest =>
    rw [List.append_assoc]
    exact .cons hparts hnames hbelow ihrest

theorem PostOrder.split {xs xs' zs : List Ref} (h : a.PostOrder (xs ++ xs') zs) :
    ∃ ys ys', a.PostOrder xs ys ∧ a.PostOrder xs' ys' ∧ zs = ys ++ ys' := by
  induction xs generalizing zs with
  | nil => exact ⟨[], zs, .nil, h, rfl⟩
  | cons x xs ih =>
    cases h with
    | cons hparts hnames hbelow hrest =>
      obtain ⟨ys, ys', hys, hys', rfl⟩ := ih hrest
      exact ⟨_, ys', .cons hparts hnames hbelow hys, hys', by simp⟩

/-- **There is only one post-order.** -/
theorem PostOrder.unique {xs ys zs : List Ref} (h : a.PostOrder xs ys) (h' : a.PostOrder xs zs) :
    ys = zs := by
  induction h generalizing zs with
  | nil =>
    cases h'
    rfl
  | cons hparts hnames _ _ ihbelow ihrest =>
    cases h' with
    | cons hparts' hnames' hbelow' hrest' =>
      obtain rfl := Option.some.inj (hparts.symm.trans hparts')
      obtain rfl := hnames.unique hnames'
      rw [ihbelow hbelow', ihrest hrest']

/-- The nodes of a list stand in the list storage. -/
theorem listed_of_list? {s : NodeSort} {r : Slots s} {is : List (Id s)} (h : a.list? r = some is)
    {i : Id s} (hi : i ∈ is) : i.ref ∈ a.listed := by
  have hstore : ∀ {α : Type} {st : Store s α}, st.list? r = some is →
      i.ref ∈ st.lists.toList.map Id.ref := by
    intro α st hst
    unfold Store.list? at hst
    split at hst
    · obtain rfl := Option.some.inj hst
      rw [Array.toList_extract] at hi
      exact List.mem_map_of_mem (List.mem_of_mem_drop (List.mem_of_mem_take hi))
    · cases hst
  unfold listed
  cases s
  · exact List.mem_append_left _ (hstore h)
  · exact List.mem_append_right _ (List.mem_append_left _ (hstore h))
  · exact List.mem_append_right _ (List.mem_append_right _ (hstore h))

/-- A node that is named is named by a part itself or stands in the list storage. -/
theorem NamesAll.mem {ps : List Part} {xs : List Ref} (h : a.NamesAll ps xs) {x : Ref}
    (hx : x ∈ xs) : x ∈ ps.flatMap Part.direct ++ a.listed := by
  induction ps generalizing xs with
  | nil =>
    obtain rfl : xs = [] := h
    cases hx
  | cons p ps ih =>
    obtain ⟨ys, zs, hp, hps, rfl⟩ := h
    rw [List.flatMap_cons, List.append_assoc]
    rcases List.mem_append.mp hx with hx | hx
    · cases p with
      | list r =>
        obtain ⟨is, hr, rfl⟩ := hp
        obtain ⟨i, hi, rfl⟩ := List.mem_map.mp hx
        exact List.mem_append_right _ (List.mem_append_right _ (listed_of_list? hr hi))
      | _ =>
        obtain rfl := hp
        exact List.mem_append_left _ hx
    · exact List.mem_append_right _ (ih hps hx)

/-! ## 4. Growing forests -/

/-- The second arena has one more node, with the given parts. -/
structure Adds (a : Arena ρ) (x : Ref) (ps : List Part) (a' : Arena ρ) : Prop where
  grows : a.Grows a'
  index : x.index = a.count x.sort
  count : ∀ s, a'.count s = a.count s + if x.sort = s then 1 else 0
  capacity : a'.capacity = a.capacity
  listed : a'.listed = a.listed
  parts : a'.parts.Perm (a.parts ++ ps)
  found : a'.parts? x = some ps

/-- The second arena has one more list, with the given members. -/
structure Stores (a : Arena ρ) {s : NodeSort} (r : Slots s) (is : List (Id s)) (a' : Arena ρ) :
    Prop where
  grows : a.Grows a'
  range : r = ⟨a.capacity s, is.length⟩
  count : a'.count = a.count
  capacity : ∀ s', a'.capacity s' = a.capacity s' + if s = s' then is.length else 0
  listed : a'.listed.Perm (a.listed ++ is.map Id.ref)
  parts : a'.parts = a.parts
  found : a'.list? r = some is

theorem adds_expr (a : Arena ρ) (node : ExprNode ρ) :
    a.Adds (addExpr node a).1.ref node.form.parts (addExpr node a).2 where
  grows := (keeps_addExpr node a).1
  index := rfl
  count s := by cases s <;> simp [Arena.count, addExpr, Store.add, Id.ref]
  capacity := rfl
  listed := rfl
  parts := by
    simp only [Arena.parts, addExpr, Store.add, Array.toList_push, List.flatMap_append,
      List.flatMap_singleton, List.append_assoc]
    exact List.Perm.append_left _ (List.perm_append_comm.trans (.of_eq (List.append_assoc ..)))
  found := Option.map_eq_some_iff.mpr ⟨node, (keeps_addExpr node a).2, rfl⟩

theorem adds_stmt (a : Arena ρ) (node : StmtNode ρ) :
    a.Adds (addStmt node a).1.ref node.form.parts (addStmt node a).2 where
  grows := (keeps_addStmt node a).1
  index := rfl
  count s := by cases s <;> simp [Arena.count, addStmt, Store.add, Id.ref]
  capacity := rfl
  listed := rfl
  parts := by
    simp only [Arena.parts, addStmt, Store.add, Array.toList_push, List.flatMap_append,
      List.flatMap_singleton, List.append_assoc]
    exact List.Perm.append_left _ (List.Perm.append_left _ List.perm_append_comm)
  found := Option.map_eq_some_iff.mpr ⟨node, (keeps_addStmt node a).2, rfl⟩

theorem adds_clause (a : Arena ρ) (node : ClauseNode ρ) :
    a.Adds (addClause node a).1.ref node.form.parts (addClause node a).2 where
  grows := (keeps_addClause node a).1
  index := rfl
  count s := by cases s <;> simp [Arena.count, addClause, Store.add, Id.ref]
  capacity := rfl
  listed := rfl
  parts := by
    simp only [Arena.parts, addClause, Store.add, Array.toList_push, List.flatMap_append,
      List.flatMap_singleton, List.append_assoc]
    exact .refl _
  found := Option.map_eq_some_iff.mpr ⟨node, (keeps_addClause node a).2, rfl⟩

theorem stores_exprs (a : Arena ρ) (is : List (Id .expr)) :
    a.Stores (addExprs is a).1 is (addExprs is a).2 where
  grows := (keeps_addExprs is a).1
  range := rfl
  count := rfl
  capacity s := by cases s <;> simp [Arena.capacity, addExprs, Store.addList]
  listed := by
    simp only [Arena.listed, addExprs, Store.addList, Array.toList_append, List.map_append,
      List.append_assoc]
    exact List.Perm.append_left _ (List.perm_append_comm.trans (.of_eq (List.append_assoc ..)))
  parts := rfl
  found := (keeps_addExprs is a).2

theorem stores_stmts (a : Arena ρ) (is : List (Id .stmt)) :
    a.Stores (addStmts is a).1 is (addStmts is a).2 where
  grows := (keeps_addStmts is a).1
  range := rfl
  count := rfl
  capacity s := by cases s <;> simp [Arena.capacity, addStmts, Store.addList]
  listed := by
    simp only [Arena.listed, addStmts, Store.addList, Array.toList_append, List.map_append,
      List.append_assoc]
    exact List.Perm.append_left _ (List.Perm.append_left _ List.perm_append_comm)
  parts := rfl
  found := (keeps_addStmts is a).2

theorem stores_clauses (a : Arena ρ) (is : List (Id .clause)) :
    a.Stores (addClauses is a).1 is (addClauses is a).2 where
  grows := (keeps_addClauses is a).1
  range := rfl
  count := rfl
  capacity s := by cases s <;> simp [Arena.capacity, addClauses, Store.addList]
  listed := by
    simp only [Arena.listed, addClauses, Store.addList, Array.toList_append, List.map_append,
      List.append_assoc]
    exact .refl _
  parts := rfl
  found := (keeps_addClauses is a).2

/-- An arena without nodes is a forest without roots. -/
theorem forest_empty : ({} : Arena ρ).Forest [] where
  children x h := by
    obtain ⟨s, k⟩ := x
    cases s <;> exact absurd h (Nat.not_lt_zero k)
  once x := by
    obtain ⟨s, k⟩ := x
    cases s <;> rfl
  partition s k := by cases s <;> rfl
  chained i h := absurd h List.not_mem_nil
  postOrder := ⟨[], [], rfl, .nil, fun s => by cases s <;> rfl⟩

section Steps

variable {roots ps : List Part} {x : Ref}

/-- Whatever is named is there. -/
theorem Forest.index_lt (h : a.Forest roots)
    (hx : x ∈ (roots ++ a.parts).flatMap Part.direct ++ a.listed) :
    x.index < a.count x.sort := by
  have hcount := List.count_pos_iff.mpr hx
  rw [h.once] at hcount
  split at hcount
  · assumption
  · exact absurd hcount (Nat.lt_irrefl 0)

/-- What the last roots name is there. -/
theorem Forest.member_lt (h : a.Forest (roots ++ ps)) {cs : List Ref} (hcs : a.NamesAll ps cs) :
    ∀ c ∈ cs, c.index < a.count c.sort := by
  intro c hc
  refine h.index_lt ?_
  rcases List.mem_append.mp (hcs.mem hc) with hmem | hmem
  · simp only [List.flatMap_append, List.mem_append]
    exact .inl (.inl (.inr hmem))
  · exact List.mem_append_right _ hmem

/-- In a larger arena the statement of an `else` is still an `if`. -/
theorem Forest.chained_grow (h : a.Forest roots) (hgrows : a.Grows a') {i : Id .stmt}
    (hi : Part.elseIf i ∈ roots ++ a.parts) :
    ∃ node, a'.stmts.get? i = some node ∧ node.form.isIf = true := by
  obtain ⟨node, hnode, hif⟩ := h.chained i hi
  exact ⟨node, hgrows.stmts.get _ _ hnode, hif⟩

/-- The nodes of the larger arena are those of the smaller one and the new one. -/
theorem Adds.index_lt_iff (h : a.Adds x ps a') (y : Ref) :
    y.index < a'.count y.sort ↔ y.index < a.count y.sort ∨ x = y := by
  have hindex := h.index
  rw [h.count]
  by_cases hs : x.sort = y.sort
  · have heq : x = y ↔ x.index = y.index := by
      obtain ⟨s, k⟩ := x
      obtain ⟨s', k'⟩ := y
      obtain rfl : s = s' := hs
      simp
    rw [if_pos hs, heq, hindex, hs]
    omega
  · have hne : x ≠ y := fun heq => hs (congrArg Ref.sort heq)
    simp [hs, hne]

/-- A new node is named once more than before, and its parts go on being named. -/
theorem Adds.count_direct (h : a.Adds x ps a') (y : Ref) :
    (((roots ++ [Part.one x]) ++ a'.parts).flatMap Part.direct ++ a'.listed).count y =
      (((roots ++ ps) ++ a.parts).flatMap Part.direct ++ a.listed).count y +
        if x = y then 1 else 0 := by
  have hdirect := (h.parts.flatMap_right Part.direct).count_eq y
  have hroot : ([Part.one x].flatMap Part.direct).count y = if x = y then 1 else 0 := by
    simp [Part.direct, List.count_singleton]
  simp only [List.flatMap_append, List.count_append] at hdirect ⊢
  rw [h.listed, hdirect, hroot]
  omega

theorem Adds.count_places (h : a.Adds x ps a') (place : NodeSort × Nat) :
    (((roots ++ [Part.one x]) ++ a'.parts).flatMap Part.places).count place =
      (((roots ++ ps) ++ a.parts).flatMap Part.places).count place := by
  have hplaces := (h.parts.flatMap_right Part.places).count_eq place
  have hroot : ([Part.one x].flatMap Part.places).count place = 0 := rfl
  simp only [List.flatMap_append, List.count_append] at hplaces ⊢
  rw [hplaces, hroot]
  omega

/-- A new node has the next id of its sort. -/
theorem Adds.indices (h : a.Adds x ps a') {ys : List Ref} {s : NodeSort}
    (hys : (ys.filter fun y => y.sort = s).map Ref.index = List.range (a.count s)) :
    ((ys ++ [x]).filter fun y => y.sort = s).map Ref.index = List.range (a'.count s) := by
  rw [List.filter_append, List.map_append, hys, h.count]
  by_cases hs : x.sort = s
  · subst hs
    simp [List.range_succ, h.index]
  · simp [hs]

/-- **A node takes its parts from the roots and becomes one itself.** -/
theorem Forest.add (h : a.Forest (roots ++ ps)) (hadds : a.Adds x ps a') :
    a'.Forest (roots ++ [.one x]) := by
  obtain ⟨zs, vs, hzs, hvs, hids⟩ := h.postOrder
  obtain ⟨xs, cs, hxs, hcs, rfl⟩ := namesAll_append.mp hzs
  obtain ⟨us, ws, hus, hws, rfl⟩ := hvs.split
  have hgrows := hadds.grows
  -- the parts of the node were roots, so they are there
  have hparts := h.member_lt hcs
  constructor
  case children =>
    intro y hy
    rcases (hadds.index_lt_iff y).mp hy with hy | rfl
    · obtain ⟨qs, ds, hqs, hds, hall⟩ := h.children y hy
      refine ⟨qs, ds, parts?_grow hgrows hqs, hds.grow hgrows, fun d hd => ?_⟩
      exact ⟨(hadds.index_lt_iff d).mpr (.inl (hall d hd).1), (hall d hd).2⟩
    · refine ⟨ps, cs, hadds.found, hcs.grow hgrows, fun c hc => ?_⟩
      refine ⟨(hadds.index_lt_iff c).mpr (.inl (hparts c hc)), fun hs => ?_⟩
      rw [hadds.index, ← hs]
      exact hparts c hc
  case once =>
    intro y
    rw [hadds.count_direct, h.once]
    simp only [hadds.index_lt_iff]
    by_cases hxy : x = y
    · have hindex := hadds.index
      subst hxy
      simp [hindex]
    · simp [hxy]
  case partition =>
    intro s k
    rw [hadds.count_places, h.partition, hadds.capacity]
  case chained =>
    intro i hi
    refine h.chained_grow hgrows ?_
    simp only [List.mem_append, hadds.parts.mem_iff, List.mem_singleton, reduceCtorEq,
      or_false] at hi ⊢
    rcases hi with hi | hi | hi
    · exact .inl (.inl hi)
    · exact .inr hi
    · exact .inl (.inr hi)
  case postOrder =>
    refine ⟨xs ++ [x], us ++ (ws ++ [x]), ?_, ?_, fun s => ?_⟩
    · exact namesAll_append.mpr ⟨xs, [x], hxs.grow hgrows, namesAll_one, rfl⟩
    · exact (hus.grow hgrows).append
        (.cons hadds.found (hcs.grow hgrows) (hws.grow hgrows) .nil)
    · rw [← List.append_assoc]
      exact hadds.indices (hids s)

section Lists

variable {s : NodeSort} {r : Slots s} {is : List (Id s)}

/-- Single nodes name themselves and no places. -/
theorem flatMap_ones (xs : List Ref) :
    (xs.map Part.one).flatMap Part.direct = xs ∧ (xs.map Part.one).flatMap Part.places = [] := by
  induction xs with
  | nil => exact ⟨rfl, rfl⟩
  | cons x xs ih =>
    rw [List.map_cons, List.flatMap_cons, List.flatMap_cons, ih.1, ih.2]
    exact ⟨rfl, rfl⟩

/-- Places that follow each other are named once each. -/
theorem count_places_list (start length : Nat) (s' : NodeSort) (k : Nat) :
    (Part.list (⟨start, length⟩ : Slots s)).places.count (s', k) =
      if s = s' ∧ start ≤ k ∧ k < start + length then 1 else 0 := by
  unfold Part.places
  induction length generalizing start with
  | zero =>
    rw [if_neg (by omega)]
    rfl
  | succ n ih =>
    simp only [List.range'_succ, List.map_cons, List.count_cons] at ih ⊢
    rw [ih]
    by_cases hs : s = s'
    · simp only [hs, true_and, beq_iff_eq, Prod.mk.injEq]
      split <;> split <;> split <;> omega
    · simp [hs]

/-- The members of a new list are named as often as before, now by the list. -/
theorem Stores.count_direct (h : a.Stores r is a') (y : Ref) :
    (((roots ++ [Part.list r]) ++ a'.parts).flatMap Part.direct ++ a'.listed).count y =
      (((roots ++ (is.map Id.ref).map Part.one) ++ a.parts).flatMap Part.direct
        ++ a.listed).count y := by
  have hlisted := h.listed.count_eq y
  have hroot : ([Part.list r].flatMap Part.direct).count y = 0 := rfl
  simp only [List.flatMap_append, List.count_append, (flatMap_ones _).1] at hlisted ⊢
  rw [h.parts, hlisted, hroot]
  omega

/-- A new list has the places behind all others. -/
theorem Stores.count_places (h : a.Stores r is a') (s' : NodeSort) (k : Nat) :
    (((roots ++ [Part.list r]) ++ a'.parts).flatMap Part.places).count (s', k) =
      (((roots ++ (is.map Id.ref).map Part.one) ++ a.parts).flatMap Part.places).count (s', k) +
        if s = s' ∧ a.capacity s ≤ k ∧ k < a.capacity s + is.length then 1 else 0 := by
  have hroot := count_places_list (s := s) (a.capacity s) is.length s' k
  rw [← h.range] at hroot
  simp only [List.flatMap_append, List.count_append, (flatMap_ones _).2, List.flatMap_singleton,
    List.count_nil, h.parts, hroot]
  omega

/-- **A list takes its members from the roots and becomes one itself.** -/
theorem Forest.store (h : a.Forest (roots ++ (is.map Id.ref).map .one))
    (hstores : a.Stores r is a') : a'.Forest (roots ++ [.list r]) := by
  obtain ⟨zs, vs, hzs, hvs, hids⟩ := h.postOrder
  obtain ⟨xs, cs, hxs, hcs, rfl⟩ := namesAll_append.mp hzs
  obtain rfl := hcs.unique (namesAll_ones _)
  have hgrows := hstores.grows
  constructor
  case children =>
    intro y hy
    rw [hstores.count] at hy ⊢
    obtain ⟨qs, ds, hqs, hds, hall⟩ := h.children y hy
    exact ⟨qs, ds, parts?_grow hgrows hqs, hds.grow hgrows, hall⟩
  case once =>
    intro y
    rw [hstores.count_direct, h.once, hstores.count]
  case partition =>
    intro s' k
    rw [hstores.count_places, h.partition, hstores.capacity]
    by_cases hs : s = s'
    · subst hs
      simp only [true_and, ↓reduceIte]
      split <;> split <;> split <;> omega
    · simp [hs]
  case chained =>
    intro i hi
    refine h.chained_grow hgrows ?_
    simp only [List.mem_append, hstores.parts, List.mem_singleton, reduceCtorEq, or_false] at hi ⊢
    rcases hi with hi | hi
    · exact .inl (.inl hi)
    · exact .inr hi
  case postOrder =>
    refine ⟨xs ++ is.map Id.ref, vs, namesAll_append.mpr ⟨xs, _, hxs.grow hgrows, ?_, rfl⟩,
      hvs.grow hgrows, fun s' => ?_⟩
    · exact ⟨is.map Id.ref, [], ⟨is, hstores.found, rfl⟩, rfl, (List.append_nil _).symm⟩
    · rw [hids, hstores.count]

end Lists

/-- Some of the roots may be written in another way, if they name the same nodes and places. -/
theorem Forest.replace {qs : List Part} (h : a.Forest (roots ++ ps))
    (hdirect : qs.flatMap Part.direct = ps.flatMap Part.direct)
    (hplaces : qs.flatMap Part.places = ps.flatMap Part.places)
    (hnames : ∀ xs, a.NamesAll ps xs → a.NamesAll qs xs)
    (hchained : ∀ i, .elseIf i ∈ qs → ∃ node, a.stmts.get? i = some node ∧ node.form.isIf = true) :
    a.Forest (roots ++ qs) where
  children := h.children
  once x := by
    have honce := h.once x
    simp only [List.flatMap_append, hdirect] at honce ⊢
    exact honce
  partition s k := by
    have hpartition := h.partition s k
    simp only [List.flatMap_append, hplaces] at hpartition ⊢
    exact hpartition
  chained i hi := by
    rcases List.mem_append.mp hi with hi | hi
    · rcases List.mem_append.mp hi with hi | hi
      · exact h.chained i (List.mem_append_left _ (List.mem_append_left _ hi))
      · exact hchained i hi
    · exact h.chained i (List.mem_append_right _ hi)
  postOrder := by
    obtain ⟨zs, ys, hzs, hys, hids⟩ := h.postOrder
    obtain ⟨us, vs, hus, hvs, rfl⟩ := namesAll_append.mp hzs
    exact ⟨_, ys, namesAll_append.mpr ⟨us, vs, hus, hnames vs hvs, rfl⟩, hys, hids⟩

/-- An empty list names nothing. -/
theorem Forest.empty (h : a.Forest roots) :
    a.Forest (roots ++ [.list (Slots.empty : Slots .expr)]) := by
  rw [← List.append_nil roots] at h
  refine h.replace rfl rfl (fun xs hxs => ?_) (fun i hi => by simp at hi)
  obtain rfl : xs = [] := hxs
  exact ⟨[], [], ⟨[], by simp [list?, Store.list?, Slots.empty], rfl⟩, rfl, rfl⟩

/-- A statement that is an `if` may stand behind an `else`. -/
theorem Forest.elseIf {i : Id .stmt} {node : StmtNode ρ} (h : a.Forest (roots ++ [.one i.ref]))
    (hnode : a.stmts.get? i = some node) (hif : node.form.isIf = true) :
    a.Forest (roots ++ [.elseIf i]) := by
  refine h.replace rfl rfl (fun xs hxs => hxs) fun j hj => ?_
  obtain rfl : j = i := by simpa using hj
  exact ⟨node, hnode, hif⟩

end Steps

end Arena

end PlatformGate
