/-
# Sets of tags

The sets by which a reader decides where to stop, to go on, or what may stand next.
-/
import PlatformGate.Token.Kind

namespace PlatformGate

/-- A set of tags, by its membership test. -/
structure TagSet where
  has : Tag → Bool

namespace TagSet

/-- The set without members. -/
def empty : TagSet := ⟨fun _ => false⟩

instance : EmptyCollection TagSet := ⟨empty⟩

instance : Inhabited TagSet := ⟨empty⟩

/-- The set with one tag more. -/
def insert (s : TagSet) (t : Tag) : TagSet := ⟨fun u => u == t || s.has u⟩

/-- The tags that are in either set. -/
def union (s t : TagSet) : TagSet := ⟨fun u => s.has u || t.has u⟩

/-- The set of the given fixed tokens. -/
def ofFixed (fs : List Fixed) : TagSet :=
  fs.foldl (fun s f => s.insert (.fixed f)) empty

/-- Whether the tag of a kind is in the set. -/
def contains {ν : Type} (s : TagSet) (k : Kind ν) : Bool := s.has k.tag

/-- The members in the order of their numbers. -/
def members (s : TagSet) : List Tag := Tag.all.filter s.has

def isEmpty (s : TagSet) : Bool := s.members.isEmpty

/-- Two sets are equal if they have the same members. -/
instance : BEq TagSet := ⟨fun s t => decide (s.members = t.members)⟩

@[ext] theorem ext {s t : TagSet} (h : ∀ u, s.has u = t.has u) : s = t := by
  cases s; cases t
  congr
  exact funext h

@[simp] theorem has_empty (u : Tag) : empty.has u = false := rfl

@[simp] theorem has_insert (s : TagSet) (t u : Tag) :
    (s.insert t).has u = (u == t || s.has u) := rfl

@[simp] theorem has_union (s t : TagSet) (u : Tag) :
    (s.union t).has u = (s.has u || t.has u) := rfl

theorem mem_members {s : TagSet} {u : Tag} : u ∈ s.members ↔ s.has u = true := by
  simp [members, Tag.mem_all]

/-- The comparison by members is equality. -/
theorem beq_iff_eq {s t : TagSet} : (s == t) = true ↔ s = t := by
  constructor
  · intro h
    have hm : s.members = t.members := of_decide_eq_true h
    ext u
    have : s.has u = true ↔ t.has u = true := by
      rw [← mem_members, ← mem_members, hm]
    cases hs : s.has u <;> cases ht : t.has u <;> simp_all
  · rintro rfl
    exact decide_eq_true rfl

end TagSet

end PlatformGate
