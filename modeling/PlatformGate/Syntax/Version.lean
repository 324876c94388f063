/-
# Versions

A version is a dotted number of one to three components.
-/

namespace PlatformGate

/-- One to three components, the major one first. -/
structure Version where
  components : List Nat
  nonempty : components ≠ []
  short : components.length ≤ 3
  deriving DecidableEq, Repr

namespace Version

/-- The version of one component. -/
def ofMajor (major : Nat) : Version := ⟨[major], by simp, by simp⟩

instance : Inhabited Version := ⟨ofMajor 0⟩

/-- The version with the given components, if there are one to three. -/
def ofComponents? (components : List Nat) : Option Version :=
  if h : components ≠ [] ∧ components.length ≤ 3 then some ⟨components, h.1, h.2⟩ else none

/-- Whether there is no room for a component more. -/
def isFull (v : Version) : Bool := decide (3 ≤ v.components.length)

/-- The version with a component more, if there is room. -/
def push? (v : Version) (component : Nat) : Option Version :=
  ofComponents? (v.components ++ [component])

/-- The components with dots between. -/
def render (v : Version) : String := ".".intercalate (v.components.map toString)

theorem ofComponents?_components (v : Version) : ofComponents? v.components = some v := by
  simp [ofComponents?, v.nonempty, v.short]

/-- A component is refused exactly when the version is full. -/
theorem push?_eq_none_iff (v : Version) (component : Nat) :
    v.push? component = none ↔ v.isFull = true := by
  have hlen : (v.components ++ [component]).length = v.components.length + 1 := by simp
  have hne : v.components ++ [component] ≠ [] := by simp
  unfold push? ofComponents? isFull
  by_cases h : v.components.length + 1 ≤ 3
  · have hroom : ¬ 3 ≤ v.components.length := by omega
    rw [dif_pos ⟨hne, hlen ▸ h⟩, decide_eq_false hroom]
    exact ⟨nofun, nofun⟩
  · have hfull : 3 ≤ v.components.length := by omega
    rw [dif_neg fun hand => h (hlen ▸ hand.2), decide_eq_true hfull]
    exact ⟨fun _ => rfl, fun _ => rfl⟩

end Version

end PlatformGate
