/-
# The line flags of tokens

The first token of a source starts a line without a newline in front of it.  Every other token that
starts a line does so because a newline stands in front of it, and the two flags of its layout then
agree.
-/
import PlatformGate.Token.Reading

namespace PlatformGate

/-- Where a line starts a newline stands in front. -/
def Layout.Lined (l : Layout) : Prop := l.lineStart = true → l.newline = true

theorem Layout.lined_none : Layout.none.Lined := nofun

theorem Layout.Lined.union {l m : Layout} (hl : l.Lined) (hm : m.Lined) : (l.union m).Lined := by
  intro h
  rcases Bool.or_eq_true_iff.mp h with h | h
  · simp [Layout.union, hl h]
  · simp [Layout.union, hm h]

theorem Layout.lined_mark {s : Shape} {mark : Layout} (h : s.mark? = some mark) : mark.Lined := by
  cases s with
  | blank | comment => cases h; nofun
  | newline => cases h; exact fun _ => rfl
  | _ => exact absurd h nofun

namespace Token

/-- Between tokens only newlines start lines. -/
theorem lined_ofLexemes (ls : List Lexeme) (offset : Nat) (pending : Layout)
    (hp : pending.Lined) : ∀ t ∈ ofLexemes offset pending ls, t.layout.Lined := by
  induction ls generalizing offset pending with
  | nil =>
    intro t ht
    rw [List.mem_singleton.mp ht]
    exact hp
  | cons l ls ih =>
    rw [ofLexemes]
    cases hmark : l.shape.mark? with
    | some mark => exact ih _ _ (hp.union (Layout.lined_mark hmark))
    | none =>
      intro t ht
      rcases List.mem_cons.mp ht with rfl | ht
      · exact hp
      · exact ih _ _ Layout.lined_none t ht

/-- Whatever stands in front of the first token, the others are lined. -/
theorem lined_tail_ofLexemes (ls : List Lexeme) (offset : Nat) (pending : Layout) :
    ∀ t ∈ (ofLexemes offset pending ls).tail, t.layout.Lined := by
  induction ls generalizing offset pending with
  | nil => exact fun t ht => absurd ht (List.not_mem_nil)
  | cons l ls ih =>
    rw [ofLexemes]
    cases hmark : l.shape.mark? with
    | some mark => exact ih _ _
    | none => exact lined_ofLexemes ls _ _ Layout.lined_none

/-- What stands in front of a line start does not change it. -/
theorem lineStart_head_ofLexemes (ls : List Lexeme) (offset : Nat) {pending : Layout}
    (hp : pending.lineStart = true) :
    ∀ t ∈ (ofLexemes offset pending ls).head?, t.layout.lineStart = true := by
  induction ls generalizing offset pending with
  | nil =>
    rintro t ⟨⟩
    exact hp
  | cons l ls ih =>
    rw [ofLexemes]
    cases hmark : l.shape.mark? with
    | some mark => exact ih _ (by simp [Layout.union, hp])
    | none =>
      rintro t ⟨⟩
      exact hp

end Token

end PlatformGate
