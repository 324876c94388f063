/-
# Slices of a text by byte offset

Offsets into a text count the bytes of its UTF-8 form.  A slice exists only between two
character boundaries of the text.  The main law, `slice?_append`, says that the slice between the
end of a first part and the end of a second is exactly that second part.
-/

namespace PlatformGate.Text

/-- How many bytes the characters take in UTF-8. -/
def byteLength : List Char → Nat
  | [] => 0
  | c :: cs => c.utf8Size + byteLength cs

@[simp] theorem byteLength_nil : byteLength [] = 0 := rfl

@[simp] theorem byteLength_cons (c : Char) (cs : List Char) :
    byteLength (c :: cs) = c.utf8Size + byteLength cs := rfl

@[simp] theorem byteLength_append (cs ds : List Char) :
    byteLength (cs ++ ds) = byteLength cs + byteLength ds := by
  induction cs with
  | nil => simp
  | cons c cs ih => simp [ih, Nat.add_assoc]

/-- Splits the text after exactly `n` bytes.  There is no split inside a character, nor past the
end. -/
def splitBytes? : Nat → List Char → Option (List Char × List Char)
  | 0, cs => some ([], cs)
  | _ + 1, [] => none
  | n + 1, c :: cs =>
    if c.utf8Size ≤ n + 1 then
      (splitBytes? (n + 1 - c.utf8Size) cs).map fun p => (c :: p.1, p.2)
    else none

/-- The characters from byte `start` up to byte `stop`. -/
def slice? (text : String) (start stop : Nat) : Option String := do
  if start ≤ stop then
    let (_, after) ← splitBytes? start text.toList
    let (kept, _) ← splitBytes? (stop - start) after
    return String.ofList kept
  else none

/-- A split at the end of a first part gives back both parts. -/
theorem splitBytes?_append (cs ds : List Char) :
    splitBytes? (byteLength cs) (cs ++ ds) = some (cs, ds) := by
  induction cs with
  | nil => cases ds <;> simp [splitBytes?]
  | cons c cs ih =>
    have hpos : 0 < c.utf8Size := Char.utf8Size_pos c
    obtain ⟨k, hk⟩ : ∃ k, byteLength (c :: cs) = k + 1 :=
      ⟨c.utf8Size + byteLength cs - 1, by rw [byteLength_cons]; omega⟩
    rw [hk, List.cons_append, splitBytes?]
    rw [byteLength_cons] at hk
    have hsub : k + 1 - c.utf8Size = byteLength cs := by omega
    have hle : c.utf8Size ≤ k + 1 := by omega
    simp [hsub, hle, ih]

/-- The slice between the end of a first part and the end of a second is the second. -/
theorem slice?_append (before kept after : List Char) :
    slice? (String.ofList (before ++ kept ++ after)) (byteLength before)
      (byteLength before + byteLength kept) = some (String.ofList kept) := by
  have h₁ := splitBytes?_append before (kept ++ after)
  have h₂ := splitBytes?_append kept after
  simp [slice?, h₁, h₂]

end PlatformGate.Text
