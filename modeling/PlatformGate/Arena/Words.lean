/-
# Arenas of machine words

On a machine an id is a word of 32 bits, and so are the ends of a list in the list storage.  `words`
is an arena with all its ids cut off to words.  To keep a node in it under the next word is to keep
the node in the arena itself and to cut off all ids afterwards (`allocExpr_words` and so on); so an
arena can be built with words from the beginning.
-/
import PlatformGate.Arena.Node

namespace PlatformGate

variable {s : NodeSort} {α ρ : Type}

/-! ## 1. Words -/

/-- The id as a machine word. -/
def Id.word (i : Id s) : Id s := ⟨(Store.nextIndex i.index).toNat⟩

/-- The slots as machine words: the length is the difference of the two ends. -/
def Slots.word (r : Slots s) : Slots s :=
  let start := Store.nextIndex r.start
  ⟨start.toNat, (Store.nextIndex (r.start + r.length) - start).toNat⟩

def ExprForm.word : ExprForm → ExprForm
  | paren i => paren i.word
  | tuple r => tuple r.word
  | call i r => call i.word r.word
  | unary o i => unary o i.word
  | binary o i j => binary o i.word j.word
  | ternary i j k => ternary i.word j.word k.word
  | assign i j => assign i.word j.word
  | form => form

def ExprNode.word (n : ExprNode ρ) : ExprNode ρ := ⟨n.form.word, n.place⟩

def BlockNode.word (n : BlockNode ρ) : BlockNode ρ := ⟨n.stmts.word, n.place⟩

def ElseNode.word : ElseNode ρ → ElseNode ρ
  | block b => block b.word
  | elseIf i => elseIf i.word

def StmtForm.word : StmtForm ρ → StmtForm ρ
  | expr i => expr i.word
  | declaration m b i? => declaration m b (i?.map Id.word)
  | ifStmt r b? e? => ifStmt r.word (b?.map BlockNode.word) (e?.map ElseNode.word)
  | guardStmt r b? => guardStmt r.word (b?.map BlockNode.word)
  | whileStmt r b? => whileStmt r.word (b?.map BlockNode.word)
  | returnStmt i? => returnStmt (i?.map Id.word)

def StmtNode.word (n : StmtNode ρ) : StmtNode ρ := ⟨n.form.word, n.place⟩

def ClauseForm.word : ClauseForm ρ → ClauseForm ρ
  | expr i => expr i.word
  | binding m b i? => binding m b (i?.map Id.word)
  | matching i j => matching i.word j.word
  | availability q => availability q

def ClauseNode.word (n : ClauseNode ρ) : ClauseNode ρ := ⟨n.form.word, n.place⟩

/-! ## 2. Keeping under words -/

namespace Store

/-- The store with its nodes as the function has them and its lists as words. -/
def words (f : α → α) (st : Store s α) : Store s α := ⟨st.nodes.map f, st.lists.map Id.word⟩

theorem alloc_words (f : α → α) (st : Store s α) (node : α) :
    (st.words f).alloc (f node) = ((st.add node).1.word, (st.add node).2.words f) := by
  simp [alloc, add, words, nextId, Id.word]

theorem allocList_words (f : α → α) (st : Store s α) (ids : List (Id s)) :
    (st.words f).allocList (ids.map Id.word) =
      ((st.addList ids).1.word, (st.addList ids).2.words f) := by
  simp [allocList, addList, words, nextSlots, Slots.word]

end Store

namespace Arena

/-- The arena with words for all its ids. -/
def words (a : Arena ρ) : Arena ρ :=
  ⟨a.exprs.words ExprNode.word, a.stmts.words StmtNode.word, a.clauses.words ClauseNode.word⟩

def allocExpr (node : ExprNode ρ) : StateM (Arena ρ) (Id .expr) := fun a =>
  let (i, exprs) := a.exprs.alloc node
  (i, { a with exprs })

def allocExprs (ids : List (Id .expr)) : StateM (Arena ρ) (Slots .expr) := fun a =>
  let (r, exprs) := a.exprs.allocList ids
  (r, { a with exprs })

def allocStmt (node : StmtNode ρ) : StateM (Arena ρ) (Id .stmt) := fun a =>
  let (i, stmts) := a.stmts.alloc node
  (i, { a with stmts })

def allocStmts (ids : List (Id .stmt)) : StateM (Arena ρ) (Slots .stmt) := fun a =>
  let (r, stmts) := a.stmts.allocList ids
  (r, { a with stmts })

def allocClause (node : ClauseNode ρ) : StateM (Arena ρ) (Id .clause) := fun a =>
  let (i, clauses) := a.clauses.alloc node
  (i, { a with clauses })

def allocClauses (ids : List (Id .clause)) : StateM (Arena ρ) (Slots .clause) := fun a =>
  let (r, clauses) := a.clauses.allocList ids
  (r, { a with clauses })

variable (a : Arena ρ)

theorem allocExpr_words (node : ExprNode ρ) : allocExpr node.word a.words =
    ((addExpr node a).1.word, (addExpr node a).2.words) := by
  simp only [allocExpr, addExpr, words, Store.alloc_words]

theorem allocExprs_words (ids : List (Id .expr)) : allocExprs (ids.map Id.word) a.words =
    ((addExprs ids a).1.word, (addExprs ids a).2.words) := by
  simp only [allocExprs, addExprs, words, Store.allocList_words]

theorem allocStmt_words (node : StmtNode ρ) : allocStmt node.word a.words =
    ((addStmt node a).1.word, (addStmt node a).2.words) := by
  simp only [allocStmt, addStmt, words, Store.alloc_words]

theorem allocStmts_words (ids : List (Id .stmt)) : allocStmts (ids.map Id.word) a.words =
    ((addStmts ids a).1.word, (addStmts ids a).2.words) := by
  simp only [allocStmts, addStmts, words, Store.allocList_words]

theorem allocClause_words (node : ClauseNode ρ) : allocClause node.word a.words =
    ((addClause node a).1.word, (addClause node a).2.words) := by
  simp only [allocClause, addClause, words, Store.alloc_words]

theorem allocClauses_words (ids : List (Id .clause)) : allocClauses (ids.map Id.word) a.words =
    ((addClauses ids a).1.word, (addClauses ids a).2.words) := by
  simp only [allocClauses, addClauses, words, Store.allocList_words]

end Arena

end PlatformGate
