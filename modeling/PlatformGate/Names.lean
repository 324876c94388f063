/-
# Names

A name stands for an identifier's text.  A name table numbers the texts it is given in the order
in which they first come; number 0 is the empty text, in every table.
-/

namespace PlatformGate

/-- The number of a text in some name table. -/
structure Name where
  index : Nat
  deriving DecidableEq, Repr, Inhabited

namespace Name

/-- The name of the empty text. -/
def empty : Name := ⟨0⟩

def describe (n : Name) : String := s!"Name({n.index})"

/-- The greatest index that a name can have: an index has 32 bits. -/
def maxIndex : Nat := 4294967295

end Name

/-- A table was full.  The error says how many texts it knew. -/
structure InternError where
  count : Nat
  deriving DecidableEq, Repr

def InternError.message (e : InternError) : String :=
  s!"interner exceeded capacity: {e.count} strings, max is {Name.maxIndex}"

/-- Distinct texts, each numbered by its place.  The empty text comes first. -/
structure NameTable where
  texts : List String
  distinct : texts.Nodup
  head_eq : texts.head? = some ""

namespace NameTable

/-- The table that knows the empty text only. -/
def initial : NameTable := ⟨[""], by simp, rfl⟩

instance : Inhabited NameTable := ⟨initial⟩

/-- The name that the table gives to a text, if it knows the text. -/
def find? (table : NameTable) (text : String) : Option Name :=
  (table.texts.idxOf? text).map Name.mk

/-- The table with one text more.  The text must be new. -/
def extend (table : NameTable) (text : String) (h : text ∉ table.texts) : NameTable where
  texts := table.texts ++ [text]
  distinct := by
    rw [List.nodup_append]
    refine ⟨table.distinct, by simp, ?_⟩
    intro a ha b hb hab
    rw [List.mem_singleton] at hb
    exact h (by rw [← hb, ← hab]; exact ha)
  head_eq := by
    have := table.head_eq
    cases htexts : table.texts with
    | nil => simp [htexts] at this
    | cons t ts => simpa [htexts] using this

/-- The name of a text, and the table in which it has that name. -/
def intern (table : NameTable) (text : String) : Name × NameTable :=
  if h : text ∈ table.texts then (⟨table.texts.idxOf text⟩, table)
  else (⟨table.texts.length⟩, table.extend text h)

/-- As `intern`, within the indices that names have.  A text that is known always has its name. -/
def tryIntern (table : NameTable) (text : String) : Except InternError (Name × NameTable) :=
  if text ∈ table.texts ∨ table.texts.length ≤ Name.maxIndex then .ok (table.intern text)
  else .error ⟨table.texts.length⟩

/-- The text behind a name; the empty text for a number not given out yet. -/
def lookup (table : NameTable) (name : Name) : String :=
  table.texts.getD name.index ""

/-- How many texts the table knows, the empty one included. -/
def size (table : NameTable) : Nat := table.texts.length

/-- No table is empty, for each knows the empty text. -/
def isEmpty (table : NameTable) : Bool := table.texts.isEmpty

theorem isEmpty_eq_false (table : NameTable) : table.isEmpty = false := by
  have := table.head_eq
  cases htexts : table.texts with
  | nil => simp [htexts] at this
  | cons t ts => simp [isEmpty, htexts]

/-- A name just given out leads back to its text. -/
theorem lookup_intern (table : NameTable) (text : String) :
    (table.intern text).2.lookup (table.intern text).1 = text := by
  unfold intern
  split
  · next h =>
    have hlt : table.texts.idxOf text < table.texts.length := List.idxOf_lt_length_of_mem h
    simp [lookup, List.getElem?_eq_getElem hlt]
  · simp [lookup, extend]

end NameTable

end PlatformGate
