/-
# The grammar

The language as a table of rules, one for each nonterminal (`production`), and what it means to
derive a stretch of terminals by a rule (`Derives`).  `Derives r ts us` says that `r` takes the
front of `ts` and leaves `us`; so a rule may look at the line flags of what it takes and at what
comes next, which is all that the line-sensitive parts of the language need.

Nothing here mentions a parser.  The levels of binary operators decide how operands are grouped and
not which terminals can be derived, so one rule stands for all of them.
-/
import PlatformGate.Parse.Recovery
import PlatformGate.Syntax.Operator

namespace PlatformGate.Grammar

/-! ## 1. Rules -/

/-- The nonterminals. -/
inductive Symbol
  | stmts | stmt | ifStmt | guardStmt | whileStmt | returnStmt | block
  | conditions | clause | binding | query | entry | version
  | expr | ternary | binary | prefixed | postfixed | call | primary | values
  deriving DecidableEq, Repr

/-- What a production may be built from. -/
inductive Rule
  /-- One terminal, by its kind. -/
  | one (p : Kind String → Bool)
  /-- Nothing, in front of terminals that pass a test. -/
  | before (p : List Terminal → Bool)
  | ref (s : Symbol)
  | seq (rs : List Rule)
  | alt (rs : List Rule)
  | opt (r : Rule)
  | many (r : Rule)

/-- One terminal that is a fixed token. -/
def Rule.token (f : Fixed) : Rule := .one (· == .fixed f)

/-- The kind of the next terminal. -/
def headKind : List Terminal → Kind String
  | [] => .endOfFile
  | t :: _ => t.kind

/-- The next terminal is the first on its line. -/
def startsLine (ts : List Terminal) : Bool := ts.head?.any Terminal.lineStart

/-- No newline stands in front of the next terminal. -/
def onSameLine (ts : List Terminal) : Bool := !ts.head?.any Terminal.newline

/-- A `return` has no value in front of the end, in front of `}` and at the end of its line. -/
def endsReturn (ts : List Terminal) : Bool :=
  ts.isEmpty || startsLine ts || headKind ts == .fixed .rbrace

def isWord : Kind String → Bool
  | .word _ => true
  | _ => false

def isNumber : Kind String → Bool
  | .number _ => true
  | _ => false

def isBindingWord : Kind String → Bool
  | .fixed .letWord | .fixed .varWord => true
  | _ => false

def isPattern : Kind String → Bool
  | .fixed .underscore | .word _ => true
  | _ => false

/-- The values of one terminal. -/
def isValue : Kind String → Bool
  | .number _ | .fixed .trueWord | .fixed .falseWord | .word _ | .fixed .underscore => true
  | _ => false

def isUnary (k : Kind String) : Bool := (UnaryOperator.ofKind? k).isSome

def isBinary (k : Kind String) : Bool := (BinaryOperator.ofKind? k).isSome

/-- **The productions.** -/
def production : Symbol → Rule
  | .stmts => .opt (.seq [.ref .stmt, .many (.seq [.before startsLine, .ref .stmt])])
  | .stmt =>
    .alt [.ref .ifStmt, .ref .guardStmt, .ref .whileStmt, .ref .binding, .ref .returnStmt,
      .ref .expr]
  | .ifStmt =>
    .seq [.token .ifWord, .ref .conditions, .ref .block,
      .opt (.seq [.token .elseWord, .alt [.ref .ifStmt, .ref .block]])]
  | .guardStmt => .seq [.token .guardWord, .ref .conditions, .token .elseWord, .ref .block]
  | .whileStmt => .seq [.token .whileWord, .ref .conditions, .ref .block]
  | .returnStmt =>
    .seq [.token .returnWord,
      .alt [.before endsReturn, .seq [.before fun ts => !endsReturn ts, .ref .expr]]]
  | .block => .seq [.token .lbrace, .ref .stmts, .token .rbrace]
  | .conditions => .seq [.ref .clause, .many (.seq [.token .comma, .ref .clause])]
  | .clause =>
    .alt [.ref .query, .ref .binding,
      .seq [.token .caseWord, .ref .ternary, .token .eq, .ref .expr], .ref .expr]
  | .binding => .seq [.one isBindingWord, .one isPattern, .opt (.seq [.token .eq, .ref .expr])]
  | .query =>
    .seq [.one Kind.isAvailability, .token .lparen, .ref .entry,
      .many (.seq [.token .comma, .ref .entry]), .opt (.token .comma), .token .rparen]
  | .entry => .alt [.token .star, .seq [.one isWord, .opt (.ref .version)]]
  | .version =>
    .seq [.one isNumber,
      .opt (.seq [.token .dot, .one isNumber, .opt (.seq [.token .dot, .one isNumber])])]
  | .expr => .seq [.ref .ternary, .opt (.seq [.token .eq, .ref .expr])]
  | .ternary =>
    .seq [.ref .binary, .opt (.seq [.token .question, .ref .ternary, .token .colon, .ref .ternary])]
  | .binary => .seq [.ref .prefixed, .many (.seq [.one isBinary, .ref .prefixed])]
  | .prefixed => .alt [.seq [.one isUnary, .ref .prefixed], .ref .postfixed]
  | .postfixed => .seq [.ref .primary, .many (.ref .call)]
  | .call => .seq [.before onSameLine, .token .lparen, .ref .values, .token .rparen]
  | .primary => .alt [.one isValue, .seq [.token .lparen, .ref .values, .token .rparen]]
  | .values => .opt (.seq [.ref .expr, .many (.seq [.token .comma, .ref .expr])])

/-- **Derivations.**  The rule takes the front of the first list and leaves the second. -/
inductive Derives : Rule → List Terminal → List Terminal → Prop
  | one {p t ts} (h : p t.kind = true) : Derives (.one p) (t :: ts) ts
  | before {p ts} (h : p ts = true) : Derives (.before p) ts ts
  | ref {s ts us} (h : Derives (production s) ts us) : Derives (.ref s) ts us
  | nil {ts} : Derives (.seq []) ts ts
  | cons {r rs ts ms us} (h : Derives r ts ms) (hs : Derives (.seq rs) ms us) :
      Derives (.seq (r :: rs)) ts us
  | alt {r rs ts us} (hr : r ∈ rs) (h : Derives r ts us) : Derives (.alt rs) ts us
  | none {r ts} : Derives (.opt r) ts ts
  | some {r ts us} (h : Derives r ts us) : Derives (.opt r) ts us
  | done {r ts} : Derives (.many r) ts ts
  | more {r ts ms us} (h : Derives r ts ms) (hs : Derives (.many r) ms us) :
      Derives (.many r) ts us

/-! ## 2. Taking derivations apart -/

variable {r : Rule} {rs : List Rule} {p : Kind String → Bool} {ts ms us : List Terminal}

theorem derives_one : Derives (.one p) ts us ↔ ∃ t, ts = t :: us ∧ p t.kind = true := by
  constructor
  · rintro ⟨h⟩
    exact ⟨_, rfl, h⟩
  · rintro ⟨t, rfl, h⟩
    exact .one h

/-- A terminal is taken by its kind, where the end of file is of no such kind. -/
theorem derives_one_iff (hp : p .endOfFile = false) :
    Derives (.one p) ts us ↔ p (headKind ts) = true ∧ ts.tail = us := by
  rw [derives_one]
  constructor
  · rintro ⟨t, rfl, h⟩
    exact ⟨h, rfl⟩
  · rintro ⟨h, rfl⟩
    cases ts with
    | nil => exact absurd (hp ▸ h) Bool.false_ne_true
    | cons t ts => exact ⟨t, rfl, h⟩

theorem derives_token {f : Fixed} :
    Derives (.token f) ts us ↔ headKind ts = .fixed f ∧ ts.tail = us := by
  rw [Rule.token, derives_one_iff (by rfl), beq_iff_eq]

theorem derives_before {p : List Terminal → Bool} :
    Derives (.before p) ts us ↔ p ts = true ∧ ts = us := by
  constructor
  · intro h
    cases h with
    | before h => exact ⟨h, rfl⟩
  · rintro ⟨h, rfl⟩
    exact .before h

theorem derives_ref {s : Symbol} : Derives (.ref s) ts us ↔ Derives (production s) ts us :=
  ⟨fun h => by cases h; assumption, .ref⟩

theorem derives_nil : Derives (.seq []) ts us ↔ ts = us := by
  constructor
  · intro h
    cases h
    rfl
  · rintro rfl
    exact .nil

theorem derives_cons :
    Derives (.seq (r :: rs)) ts us ↔ ∃ ms, Derives r ts ms ∧ Derives (.seq rs) ms us := by
  constructor
  · intro h
    cases h with
    | cons h hs => exact ⟨_, h, hs⟩
  · rintro ⟨ms, h, hs⟩
    exact .cons h hs

theorem derives_alt : Derives (.alt rs) ts us ↔ ∃ r ∈ rs, Derives r ts us := by
  constructor
  · intro h
    cases h with
    | alt hr h => exact ⟨_, hr, h⟩
  · rintro ⟨r, hr, h⟩
    exact .alt hr h

theorem derives_opt : Derives (.opt r) ts us ↔ ts = us ∨ Derives r ts us := by
  constructor
  · intro h
    cases h with
    | none => exact .inl rfl
    | some h => exact .inr h
  · rintro (rfl | h)
    · exact .none
    · exact .some h

/-- Repetition, one round at a time from the front. -/
theorem Derives.many_induction {P : List Terminal → List Terminal → Prop}
    (hdone : ∀ ts, P ts ts)
    (hmore : ∀ ts ms us, Derives r ts ms → Derives (.many r) ms us → P ms us → P ts us)
    (h : Derives (.many r) ts us) : P ts us := by
  generalize hr : Rule.many r = r' at h
  induction h with
  | done => exact hdone _
  | more h hs _ ih =>
    cases hr
    exact hmore _ _ _ h hs (ih rfl)
  | _ => cases hr

theorem Derives.many_append (h : Derives (.many r) ts ms) (h' : Derives (.many r) ms us) :
    Derives (.many r) ts us :=
  many_induction (P := fun ts ms => Derives (.many r) ms us → Derives (.many r) ts us)
    (fun _ h' => h') (fun _ _ _ h _ ih h' => .more h (ih h')) h h'

/-- What is left is the end of what there was. -/
theorem Derives.suffix (h : Derives r ts us) : us <:+ ts := by
  induction h with
  | one => exact List.suffix_cons _ _
  | before | nil | none | done => exact List.suffix_rfl
  | ref _ ih | alt _ _ ih | some _ ih => exact ih
  | cons _ _ ih ih' | more _ _ ih ih' => exact ih'.trans ih

theorem Derives.length_le (h : Derives r ts us) : us.length ≤ ts.length :=
  h.suffix.length_le

/-! ## 3. The productions one by one -/

theorem derives_stmts : Derives (.ref .stmts) ts us ↔ ts = us ∨
    ∃ ms, Derives (.ref .stmt) ts ms ∧
      Derives (.many (.seq [.before startsLine, .ref .stmt])) ms us := by
  rw [derives_ref]
  simp [production, derives_opt, derives_cons, derives_nil]

theorem derives_line : Derives (.seq [.before startsLine, .ref .stmt]) ts us ↔
    startsLine ts = true ∧ Derives (.ref .stmt) ts us := by
  simp [derives_cons, derives_nil, derives_before, and_assoc]

theorem derives_stmt : Derives (.ref .stmt) ts us ↔
    Derives (.ref .ifStmt) ts us ∨ Derives (.ref .guardStmt) ts us ∨
      Derives (.ref .whileStmt) ts us ∨ Derives (.ref .binding) ts us ∨
      Derives (.ref .returnStmt) ts us ∨ Derives (.ref .expr) ts us := by
  rw [derives_ref]
  simp [production, derives_alt]

theorem derives_ifStmt : Derives (.ref .ifStmt) ts us ↔ headKind ts = .fixed .ifWord ∧
    ∃ ms, Derives (.ref .conditions) ts.tail ms ∧ ∃ ns, Derives (.ref .block) ms ns ∧
      (ns = us ∨ headKind ns = .fixed .elseWord ∧
        (Derives (.ref .ifStmt) ns.tail us ∨ Derives (.ref .block) ns.tail us)) := by
  rw [derives_ref]
  simp [production, derives_opt, derives_alt, derives_cons, derives_nil, derives_token, and_assoc]

theorem derives_guardStmt : Derives (.ref .guardStmt) ts us ↔ headKind ts = .fixed .guardWord ∧
    ∃ ms, Derives (.ref .conditions) ts.tail ms ∧ headKind ms = .fixed .elseWord ∧
      Derives (.ref .block) ms.tail us := by
  rw [derives_ref]
  simp [production, derives_cons, derives_nil, derives_token, and_assoc]

theorem derives_whileStmt : Derives (.ref .whileStmt) ts us ↔ headKind ts = .fixed .whileWord ∧
    ∃ ms, Derives (.ref .conditions) ts.tail ms ∧ Derives (.ref .block) ms us := by
  rw [derives_ref]
  simp [production, derives_cons, derives_nil, derives_token, and_assoc]

theorem derives_returnStmt : Derives (.ref .returnStmt) ts us ↔
    headKind ts = .fixed .returnWord ∧ (endsReturn ts.tail = true ∧ ts.tail = us ∨
      endsReturn ts.tail = false ∧ Derives (.ref .expr) ts.tail us) := by
  rw [derives_ref]
  simp [production, derives_alt, derives_cons, derives_nil, derives_token, derives_before,
    and_assoc]

theorem derives_block : Derives (.ref .block) ts us ↔ headKind ts = .fixed .lbrace ∧
    ∃ ms, Derives (.ref .stmts) ts.tail ms ∧ headKind ms = .fixed .rbrace ∧ ms.tail = us := by
  rw [derives_ref]
  simp [production, derives_cons, derives_nil, derives_token, and_assoc]

theorem derives_conditions : Derives (.ref .conditions) ts us ↔
    ∃ ms, Derives (.ref .clause) ts ms ∧
      Derives (.many (.seq [.token .comma, .ref .clause])) ms us := by
  rw [derives_ref]
  simp [production, derives_cons, derives_nil]

theorem derives_behindComma {s : Symbol} : Derives (.seq [.token .comma, .ref s]) ts us ↔
    headKind ts = .fixed .comma ∧ Derives (.ref s) ts.tail us := by
  simp [derives_cons, derives_nil, derives_token, and_assoc]

theorem derives_clause : Derives (.ref .clause) ts us ↔ Derives (.ref .query) ts us ∨
    Derives (.ref .binding) ts us ∨
    (headKind ts = .fixed .caseWord ∧ ∃ ms, Derives (.ref .ternary) ts.tail ms ∧
      headKind ms = .fixed .eq ∧ Derives (.ref .expr) ms.tail us) ∨
    Derives (.ref .expr) ts us := by
  rw [derives_ref]
  simp [production, derives_alt, derives_cons, derives_nil, derives_token, and_assoc]

theorem derives_binding : Derives (.ref .binding) ts us ↔ isBindingWord (headKind ts) = true ∧
    isPattern (headKind ts.tail) = true ∧ (ts.tail.tail = us ∨
      headKind ts.tail.tail = .fixed .eq ∧ Derives (.ref .expr) ts.tail.tail.tail us) := by
  rw [derives_ref]
  simp [production, derives_opt, derives_cons, derives_nil, derives_token,
    derives_one_iff (p := isBindingWord) rfl, derives_one_iff (p := isPattern) rfl, and_assoc]

theorem derives_query : Derives (.ref .query) ts us ↔ (headKind ts).isAvailability = true ∧
    headKind ts.tail = .fixed .lparen ∧ ∃ ms, Derives (.ref .entry) ts.tail.tail ms ∧
      ∃ ns, Derives (.many (.seq [.token .comma, .ref .entry])) ms ns ∧
        ∃ os, Derives (.opt (.token .comma)) ns os ∧ headKind os = .fixed .rparen ∧
          os.tail = us := by
  rw [derives_ref]
  simp [production, derives_cons, derives_nil, derives_token,
    derives_one_iff (p := Kind.isAvailability) rfl, and_assoc]

theorem derives_entry : Derives (.ref .entry) ts us ↔ headKind ts = .fixed .star ∧ ts.tail = us ∨
    isWord (headKind ts) = true ∧ (ts.tail = us ∨ Derives (.ref .version) ts.tail us) := by
  rw [derives_ref]
  simp [production, derives_alt, derives_opt, derives_cons, derives_nil, derives_token,
    derives_one_iff (p := isWord) rfl, and_assoc]

theorem derives_version : Derives (.ref .version) ts us ↔ isNumber (headKind ts) = true ∧
    (ts.tail = us ∨ headKind ts.tail = .fixed .dot ∧ isNumber (headKind ts.tail.tail) = true ∧
      (ts.tail.tail.tail = us ∨ headKind ts.tail.tail.tail = .fixed .dot ∧
        isNumber (headKind ts.tail.tail.tail.tail) = true ∧
          ts.tail.tail.tail.tail.tail = us)) := by
  rw [derives_ref]
  simp [production, derives_opt, derives_cons, derives_nil, derives_token,
    derives_one_iff (p := isNumber) rfl, and_assoc]

theorem derives_expr : Derives (.ref .expr) ts us ↔ ∃ ms, Derives (.ref .ternary) ts ms ∧
    (ms = us ∨ headKind ms = .fixed .eq ∧ Derives (.ref .expr) ms.tail us) := by
  rw [derives_ref]
  simp [production, derives_opt, derives_cons, derives_nil, derives_token, and_assoc]

theorem derives_ternary : Derives (.ref .ternary) ts us ↔ ∃ ms, Derives (.ref .binary) ts ms ∧
    (ms = us ∨ headKind ms = .fixed .question ∧ ∃ ns, Derives (.ref .ternary) ms.tail ns ∧
      headKind ns = .fixed .colon ∧ Derives (.ref .ternary) ns.tail us) := by
  rw [derives_ref]
  simp [production, derives_opt, derives_cons, derives_nil, derives_token, and_assoc]

theorem derives_binary : Derives (.ref .binary) ts us ↔ ∃ ms, Derives (.ref .prefixed) ts ms ∧
    Derives (.many (.seq [.one isBinary, .ref .prefixed])) ms us := by
  rw [derives_ref]
  simp [production, derives_cons, derives_nil]

theorem derives_link : Derives (.seq [.one isBinary, .ref .prefixed]) ts us ↔
    isBinary (headKind ts) = true ∧ Derives (.ref .prefixed) ts.tail us := by
  simp [derives_cons, derives_nil, derives_one_iff (p := isBinary) rfl, and_assoc]

theorem derives_prefixed : Derives (.ref .prefixed) ts us ↔
    isUnary (headKind ts) = true ∧ Derives (.ref .prefixed) ts.tail us ∨
      Derives (.ref .postfixed) ts us := by
  rw [derives_ref]
  simp [production, derives_alt, derives_cons, derives_nil, derives_one_iff (p := isUnary) rfl,
    and_assoc]

theorem derives_postfixed : Derives (.ref .postfixed) ts us ↔
    ∃ ms, Derives (.ref .primary) ts ms ∧ Derives (.many (.ref .call)) ms us := by
  rw [derives_ref]
  simp [production, derives_cons, derives_nil]

theorem derives_call : Derives (.ref .call) ts us ↔ onSameLine ts = true ∧
    headKind ts = .fixed .lparen ∧ ∃ ms, Derives (.ref .values) ts.tail ms ∧
      headKind ms = .fixed .rparen ∧ ms.tail = us := by
  rw [derives_ref]
  simp [production, derives_cons, derives_nil, derives_token, derives_before, and_assoc]

theorem derives_primary : Derives (.ref .primary) ts us ↔
    isValue (headKind ts) = true ∧ ts.tail = us ∨
      headKind ts = .fixed .lparen ∧ ∃ ms, Derives (.ref .values) ts.tail ms ∧
        headKind ms = .fixed .rparen ∧ ms.tail = us := by
  rw [derives_ref]
  simp [production, derives_alt, derives_cons, derives_nil, derives_token,
    derives_one_iff (p := isValue) rfl, and_assoc]

theorem derives_values : Derives (.ref .values) ts us ↔ ts = us ∨
    ∃ ms, Derives (.ref .expr) ts ms ∧
      Derives (.many (.seq [.token .comma, .ref .expr])) ms us := by
  rw [derives_ref]
  simp [production, derives_opt, derives_cons, derives_nil]

end PlatformGate.Grammar
