/-
# Availability queries

A query asks for platforms: `#available(iOS 17, *)` lists two entries.  The type of places is left
open: a reader places things by runs of tokens, a finished tree by spans of the source.
-/
import PlatformGate.Syntax.Version

namespace PlatformGate

/-- One item of a query: a platform with or without a version, or `*`.  An item read from bad input
may be neither. -/
structure Entry (ρ : Type) where
  name : Option String
  version : Option Version
  wildcard : Bool
  place : ρ
  deriving DecidableEq, Repr, Inhabited

namespace Entry

variable {ρ σ : Type}

/-- The entry `*`. -/
def star (place : ρ) : Entry ρ := ⟨none, none, true, place⟩

/-- A platform, with its version if one is given. -/
def platform (name : String) (version : Option Version) (place : ρ) : Entry ρ :=
  ⟨some name, version, false, place⟩

/-- A version without a platform in front. -/
def unnamed (version : Option Version) (place : ρ) : Entry ρ := ⟨none, version, false, place⟩

/-- Either a platform or `*`, and not both. -/
def isWellFormed (e : Entry ρ) : Bool := e.name.isSome != e.wildcard

def map (f : ρ → σ) (e : Entry ρ) : Entry σ := ⟨e.name, e.version, e.wildcard, f e.place⟩

end Entry

/-- Whether both parentheses of a query are there. -/
inductive QueryStatus
  | done | incomplete
  deriving DecidableEq, Repr, Inhabited

/-- A query; `negated` is the spelling `#unavailable`. -/
structure Query (ρ : Type) where
  entries : List (Entry ρ)
  negated : Bool
  status : QueryStatus
  place : ρ
  deriving DecidableEq, Repr, Inhabited

namespace Query

variable {ρ σ : Type}

def isComplete (q : Query ρ) : Bool := q.status == .done

def map (f : ρ → σ) (q : Query ρ) : Query σ :=
  ⟨q.entries.map (Entry.map f), q.negated, q.status, f q.place⟩

end Query

end PlatformGate
