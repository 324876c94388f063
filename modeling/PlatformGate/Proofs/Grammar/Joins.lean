/-
# Where a derivation can go on

Two facts about the grammar itself.  Expressions and statements begin with one of the terminals that
`TagSet` lists for them, and take at least that one (`expr_begins`, `stmt_begins`).  And the grammar
is ambiguous in one place only: a `-` at the start of a line is an operator in front of the
expression there as well as one between it and the expression on the line before.  Wherever the
first reading is derivable so is the second (`expr_join`).
-/
import PlatformGate.Proofs.Grammar.Derives

namespace PlatformGate.Grammar

variable {ts ms us : List Terminal}

/-! ## 1. First terminals -/

/-- Something is taken, and it begins with a terminal of the given kinds. -/
def Begins (p : Kind String → Bool) (ts us : List Terminal) : Prop :=
  p (headKind ts) = true ∧ us.length < ts.length

theorem Begins.before {p : Kind String → Bool} (h : Begins p ts ms) (h' : us.length ≤ ms.length) :
    Begins p ts us :=
  ⟨h.1, Nat.lt_of_le_of_lt h' h.2⟩

theorem Begins.mono {p q : Kind String → Bool} (h : Begins p ts us)
    (hpq : ∀ k, p k = true → q k = true) : Begins q ts us :=
  ⟨hpq _ h.1, h.2⟩

/-- The terminal in front has been taken. -/
theorem begins_tail {p : Kind String → Bool} (h : p (headKind ts) = true)
    (hp : p .endOfFile = false) : Begins p ts ts.tail := by
  refine ⟨h, ?_⟩
  cases ts with
  | nil => exact absurd (hp ▸ h) Bool.false_ne_true
  | cons t ts => exact Nat.lt_succ_self _

theorem begins_token {f : Fixed} {p : Kind String → Bool} (h : headKind ts = .fixed f)
    (hf : p (.fixed f) = true) : Begins p ts ts.tail := by
  refine ⟨h ▸ hf, ?_⟩
  cases ts with
  | nil => exact absurd h nofun
  | cons t ts => exact Nat.lt_succ_self _

theorem expressionStart_of_isValue {k : Kind String} (h : isValue k = true) :
    TagSet.expressionStart.contains k = true := by
  cases k with
  | fixed f => cases f <;> first | rfl | exact absurd h (by decide)
  | word | number => rfl
  | poundWord | invalid | endOfFile => exact absurd h Bool.false_ne_true

theorem expressionStart_of_isUnary {k : Kind String} (h : isUnary k = true) :
    TagSet.expressionStart.contains k = true := by
  cases k with
  | fixed f => cases f <;> first | rfl | exact absurd h (by decide)
  | _ => exact absurd h Bool.false_ne_true

theorem statementStart_of_expressionStart {k : Kind String}
    (h : TagSet.expressionStart.contains k = true) : TagSet.statementStart.contains k = true := by
  have hunion : TagSet.statementStart.contains k =
      (TagSet.statementKeywords.contains k || TagSet.expressionStart.contains k) := rfl
  rw [hunion, h, Bool.or_true]

theorem primary_begins (h : Derives (.ref .primary) ts us) :
    Begins TagSet.expressionStart.contains ts us := by
  rcases derives_primary.mp h with ⟨hvalue, rfl⟩ | ⟨hopen, ms, hvalues, -, rfl⟩
  · exact (begins_tail hvalue rfl).mono fun _ => expressionStart_of_isValue
  · refine (begins_token hopen rfl).before ?_
    exact Nat.le_trans (List.length_tail ▸ Nat.sub_le _ _) hvalues.length_le

theorem prefixed_begins (h : Derives (.ref .prefixed) ts us) :
    Begins TagSet.expressionStart.contains ts us := by
  rcases derives_prefixed.mp h with ⟨hsign, h⟩ | h
  · exact ((begins_tail hsign rfl).mono fun _ => expressionStart_of_isUnary).before h.length_le
  · obtain ⟨ms, hprimary, hcalls⟩ := derives_postfixed.mp h
    exact (primary_begins hprimary).before hcalls.length_le

theorem binary_begins (h : Derives (.ref .binary) ts us) :
    Begins TagSet.expressionStart.contains ts us := by
  obtain ⟨ms, hfirst, hlinks⟩ := derives_binary.mp h
  exact (prefixed_begins hfirst).before hlinks.length_le

theorem ternary_begins (h : Derives (.ref .ternary) ts us) :
    Begins TagSet.expressionStart.contains ts us := by
  obtain ⟨ms, hcond, rfl | ⟨-, ns, htrue, -, hfalse⟩⟩ := derives_ternary.mp h
  · exact binary_begins hcond
  · have h1 := htrue.length_le
    have h2 := hfalse.length_le
    simp only [List.length_tail] at h1 h2
    exact (binary_begins hcond).before (by omega)

/-- **An expression takes a terminal** that can begin it. -/
theorem expr_begins (h : Derives (.ref .expr) ts us) :
    Begins TagSet.expressionStart.contains ts us := by
  obtain ⟨ms, htarget, rfl | ⟨-, hvalue⟩⟩ := derives_expr.mp h
  · exact ternary_begins htarget
  · have h1 := hvalue.length_le
    rw [List.length_tail] at h1
    exact (ternary_begins htarget).before (by omega)

theorem binding_begins (h : Derives (.ref .binding) ts us) : Begins isBindingWord ts us := by
  obtain ⟨hword, -, rfl | ⟨-, hvalue⟩⟩ := derives_binding.mp h
  · refine (begins_tail hword rfl).before ?_
    simp only [List.length_tail]
    omega
  · have h1 := hvalue.length_le
    refine (begins_tail hword rfl).before ?_
    simp only [List.length_tail] at h1 ⊢
    omega

theorem statementStart_of_isBindingWord {k : Kind String} (h : isBindingWord k = true) :
    TagSet.statementStart.contains k = true := by
  cases k with
  | fixed f => cases f <;> first | rfl | exact absurd h (by decide)
  | _ => exact absurd h Bool.false_ne_true

theorem ifStmt_begins (h : Derives (.ref .ifStmt) ts us) :
    Begins (· == .fixed .ifWord) ts us := by
  have hle : ∀ {s : Symbol} {xs ys zs : List Terminal}, ys.length ≤ xs.length →
      Derives (.ref s) ys.tail zs → zs.length ≤ xs.length := by
    intro s xs ys zs hle h
    have h1 := h.length_le
    rw [List.length_tail] at h1
    omega
  obtain ⟨hword, ms, hconditions, ns, hblock, htail⟩ := derives_ifStmt.mp h
  have hns := Nat.le_trans hblock.length_le hconditions.length_le
  refine (begins_token hword (by rfl)).before ?_
  rcases htail with rfl | ⟨-, h | h⟩
  · exact hns
  · exact hle hns h
  · exact hle hns h

/-- **A statement takes a terminal** that can begin it. -/
theorem stmt_begins (h : Derives (.ref .stmt) ts us) :
    Begins TagSet.statementStart.contains ts us := by
  rcases derives_stmt.mp h with h | h | h | h | h | h
  · refine (ifStmt_begins h).mono fun k hk => ?_
    rw [eq_of_beq hk]
    rfl
  · obtain ⟨hword, ms, hconditions, -, hblock⟩ := derives_guardStmt.mp h
    have h1 := hblock.length_le
    rw [List.length_tail] at h1
    refine (begins_token hword rfl).before (Nat.le_trans ?_ hconditions.length_le)
    omega
  · obtain ⟨hword, ms, hconditions, hblock⟩ := derives_whileStmt.mp h
    exact (begins_token hword rfl).before (Nat.le_trans hblock.length_le hconditions.length_le)
  · exact (binding_begins h).mono fun _ => statementStart_of_isBindingWord
  · obtain ⟨hword, ⟨-, rfl⟩ | ⟨-, hvalue⟩⟩ := derives_returnStmt.mp h
    · exact begins_token hword rfl
    · exact (begins_token hword rfl).before hvalue.length_le
  · exact (expr_begins h).mono fun _ => statementStart_of_expressionStart

/-! ## 2. A minus between two expressions -/

/-- What begins with `-` begins with that operator. -/
theorem prefixed_of_minus (hm : headKind ms = .fixed .minus) (h : Derives (.ref .prefixed) ms us) :
    Derives (.ref .prefixed) ms.tail us := by
  rcases derives_prefixed.mp h with ⟨-, h⟩ | h
  · exact h
  · obtain ⟨ns, hprimary, -⟩ := derives_postfixed.mp h
    rcases derives_primary.mp hprimary with ⟨hvalue, -⟩ | ⟨hopen, -⟩
    · rw [hm] at hvalue
      exact absurd hvalue Bool.false_ne_true
    · rw [hm] at hopen
      exact absurd hopen nofun

theorem binary_join (h : Derives (.ref .binary) ts ms) (hm : headKind ms = .fixed .minus)
    (h' : Derives (.ref .binary) ms us) : Derives (.ref .binary) ts us := by
  obtain ⟨ns, hfirst, hlinks⟩ := derives_binary.mp h
  obtain ⟨os, hsecond, hlinks'⟩ := derives_binary.mp h'
  have hlink := derives_link.mpr ⟨by rw [hm]; rfl, prefixed_of_minus hm hsecond⟩
  exact derives_binary.mpr ⟨ns, hfirst, hlinks.many_append (.more hlink hlinks')⟩

theorem ternary_join {ts ms us : List Terminal} (h : Derives (.ref .ternary) ts ms)
    (hm : headKind ms = .fixed .minus) (h' : Derives (.ref .ternary) ms us) :
    Derives (.ref .ternary) ts us := by
  obtain ⟨ns, hcond, rfl | ⟨hmark, os, htrue, hcolon, hfalse⟩⟩ := derives_ternary.mp h
  · obtain ⟨os, hcond', htail⟩ := derives_ternary.mp h'
    exact derives_ternary.mpr ⟨os, binary_join hcond hm hcond', htail⟩
  · -- the last branch is the one that goes on
    have hlt : os.tail.length < ts.length := by
      have hcond := (binary_begins hcond).2
      have htrue := htrue.length_le
      simp only [List.length_tail] at htrue ⊢
      omega
    exact derives_ternary.mpr ⟨ns, hcond, .inr ⟨hmark, os, htrue, hcolon,
      ternary_join hfalse hm h'⟩⟩
termination_by ts.length
decreasing_by exact hlt

/-- **Two expressions with a `-` between them are one.** -/
theorem expr_join {ts ms us : List Terminal} (h : Derives (.ref .expr) ts ms)
    (hm : headKind ms = .fixed .minus) (h' : Derives (.ref .expr) ms us) :
    Derives (.ref .expr) ts us := by
  obtain ⟨ns, htarget, rfl | ⟨heq, hvalue⟩⟩ := derives_expr.mp h
  · obtain ⟨os, htarget', htail⟩ := derives_expr.mp h'
    exact derives_expr.mpr ⟨os, ternary_join htarget hm htarget', htail⟩
  · have hlt : ns.tail.length < ts.length := by
      have htarget := (ternary_begins htarget).2
      rw [List.length_tail]
      omega
    exact derives_expr.mpr ⟨ns, htarget, .inr ⟨heq, expr_join hvalue hm h'⟩⟩
termination_by ts.length
decreasing_by exact hlt

/-- A statement that begins with `-` is an expression. -/
theorem expr_of_minus (hm : headKind ts = .fixed .minus) (h : Derives (.ref .stmt) ts us) :
    Derives (.ref .expr) ts us := by
  have hkeyword : ∀ {f : Fixed}, headKind ts = .fixed f → f = .minus := by
    intro f hf
    rw [hm] at hf
    cases hf
    rfl
  rcases derives_stmt.mp h with h | h | h | h | h | h
  · exact absurd (hkeyword (derives_ifStmt.mp h).1) nofun
  · exact absurd (hkeyword (derives_guardStmt.mp h).1) nofun
  · exact absurd (hkeyword (derives_whileStmt.mp h).1) nofun
  · have hword := (derives_binding.mp h).1
    rw [hm] at hword
    exact absurd hword Bool.false_ne_true
  · exact absurd (hkeyword (derives_returnStmt.mp h).1) nofun
  · exact h

end PlatformGate.Grammar
