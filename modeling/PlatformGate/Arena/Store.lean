/-
# Stores

A store keeps nodes of one sort under ids, and lists of such ids in slots.  It only grows: ids and
slots given out once keep their meaning.

`add` and `addList` give out numbers of any size.  A machine has words of 32 bits for them, and
`alloc` and `allocList` give out those.
-/

namespace PlatformGate

/-- The sorts of nodes. -/
inductive NodeSort
  | expr | stmt | clause
  deriving DecidableEq, Repr, Inhabited

def NodeSort.label : NodeSort → String
  | expr => "Expr"
  | stmt => "Stmt"
  | clause => "Clause"

/-- The number of a node among those of its sort. -/
structure Id (s : NodeSort) where
  index : Nat
  deriving DecidableEq, Repr, Inhabited

def Id.describe {s : NodeSort} (i : Id s) : String := s!"{s.label}Id({i.index})"

/-- Neighbouring places in the list storage of a store. -/
structure Slots (s : NodeSort) where
  start : Nat
  length : Nat
  deriving DecidableEq, Repr, Inhabited

namespace Slots

variable {s : NodeSort}

/-- No places at all. -/
def empty : Slots s := ⟨0, 0⟩

def isEmpty (r : Slots s) : Bool := r.length == 0

def describe (r : Slots s) : String :=
  s!"{s.label}Range \x7b start: {r.start}, len: {r.length} \x7d"

end Slots

/-- The nodes of one sort, and the list storage for their ids. -/
structure Store (s : NodeSort) (α : Type) where
  nodes : Array α := #[]
  lists : Array (Id s) := #[]
  deriving Repr, Inhabited

namespace Store

variable {s : NodeSort} {α : Type}

/-- Keeps a node under the next id. -/
def add (st : Store s α) (node : α) : Id s × Store s α :=
  (⟨st.nodes.size⟩, { st with nodes := st.nodes.push node })

/-- Keeps a list in the next places. -/
def addList (st : Store s α) (ids : List (Id s)) : Slots s × Store s α :=
  (⟨st.lists.size, ids.length⟩, { st with lists := st.lists ++ ids.toArray })

def size (st : Store s α) : Nat := st.nodes.size

/-- The index behind so many things as a machine word.  What does not fit in is cut off. -/
def nextIndex (length : Nat) : UInt32 := UInt32.ofNat length

/-- The number of the id that `add` gives, as a machine word. -/
def nextId (st : Store s α) : UInt32 := nextIndex st.nodes.size

/-- Where the places begin that `addList` gives and how many they are, as machine words. -/
def nextSlots (st : Store s α) (ids : List (Id s)) : UInt32 × UInt32 :=
  let start := nextIndex st.lists.size
  (start, nextIndex (st.lists.size + ids.length) - start)

/-- Keeps a node under the next id, as a machine word. -/
def alloc (st : Store s α) (node : α) : Id s × Store s α :=
  (⟨st.nextId.toNat⟩, { st with nodes := st.nodes.push node })

/-- Keeps a list in the next places, as machine words. -/
def allocList (st : Store s α) (ids : List (Id s)) : Slots s × Store s α :=
  let (start, length) := st.nextSlots ids
  (⟨start.toNat, length.toNat⟩, { st with lists := st.lists ++ ids.toArray })

/-- The node under an id. -/
def get? (st : Store s α) (i : Id s) : Option α := st.nodes[i.index]?

/-- The ids in the given places; none if the places go past the end of the storage. -/
def list? (st : Store s α) (r : Slots s) : Option (List (Id s)) :=
  if r.start + r.length ≤ st.lists.size then
    some (st.lists.extract r.start (r.start + r.length)).toList
  else none

/-- A node just kept is found under its id. -/
theorem get?_add (st : Store s α) (node : α) : (st.add node).2.get? (st.add node).1 = some node := by
  simp [add, get?]

/-- A list just kept is found in its places. -/
theorem list?_addList (st : Store s α) (ids : List (Id s)) :
    (st.addList ids).2.list? (st.addList ids).1 = some ids := by
  simp [addList, list?]

end Store

end PlatformGate
