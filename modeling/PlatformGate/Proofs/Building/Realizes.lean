/-
# Builders realize plans

A parser reads a whole tree before any node of it is kept; a builder keeps a node as soon as its
parts are kept, and everything it keeps is numbered by machine words.  `Builds` says that a builder
comes to the same: run from a session with words, it does what the parser does, then keeps what is
planned for the value, and cuts off all ids.

A builder is followed step by step.  `Realizes` is the same statement in the middle of it: `m` has
been kept already, what is left of the builder goes on from the ids that this gave, and `plan` is
still the whole plan.  Reading does not touch the arena and keeping does not touch the rest of the
session, so the two can be exchanged; that is what each rule rests on.  The rules follow the steps
of a builder, and where the builder ends, what was kept on the way has to be the plan.

Whether a parser reported nothing is the one thing that it is told about reports.  A builder compares
counts of errors instead, which no limit changes (`Session.run_quietly`).
-/
import PlatformGate.Proofs.Building.Plans
import PlatformGate.Proofs.Parse.Ensures
import PlatformGate.Proofs.Report.Emit

namespace PlatformGate

variable {α β γ δ : Type}

/-! ## 1. Sessions -/

namespace Session

/-- The session with words for all ids. -/
def words (s : Session) : Session := { s with arena := s.arena.words }

/-- Keeps what is planned. -/
def follow (s : Session) (m : Plan α) : α × Session := s.keep (m s.locate)

/-- Runs a parser and keeps what is planned for its value. -/
def build (s : Session) (plan : α → Plan β) (p : Parser α) : β × Session :=
  (s.run p).2.follow (plan (s.run p).1)

variable (s : Session)

/-- **Reading and keeping can be exchanged.** -/
theorem run_follow (m : Plan α) (p : Parser β) :
    (s.follow m).2.run p = ((s.run p).1, ((s.run p).2.follow m).2) := rfl

theorem run_words (p : Parser α) : s.words.run p = ((s.run p).1, (s.run p).2.words) := rfl

/-- A parser that only looks leaves the session as it is. -/
theorem run_look {s : Session} {p : Parser α} {a : α} (h : p s.input = ⟨a, [], s.input⟩) :
    s.run p = (a, s) := by
  rw [run, h]
  rfl

theorem run_bind (p : Parser α) (f : α → Parser β) :
    s.run (p >>= f) = (s.run p).2.run (f (s.run p).1) := by
  simp only [run, Parser.bind_apply, List.map_append, Sink.emitAll_append]
  rfl

theorem build_bind (plan : β → Plan γ) (p : Parser α) (f : α → Parser β) :
    s.build plan (p >>= f) = (s.run p).2.build plan (f (s.run p).1) := by
  rw [build, run_bind]
  rfl

/-- **Whether a parser reported nothing can be told from the count of errors,** before and after,
whatever the limit. -/
theorem run_quietly (p : Parser α) : s.run (Parser.quietly p) =
    (((s.run p).1, (s.run p).2.sink.errorCount == s.sink.errorCount), (s.run p).2) := by
  have hcount : (s.run p).2.sink.errorCount =
      s.sink.errorCount + (p s.input).reports.length :=
    (Sink.errorCount_emitAll _ _).trans (by rw [List.length_map])
  have hquiet : (p s.input).reports.isEmpty =
      ((s.run p).2.sink.errorCount == s.sink.errorCount) := by
    rw [hcount]
    cases (p s.input).reports <;> simp
  rw [← hquiet]
  rfl

end Session

/-! ## 2. Builders in the middle of a plan -/

namespace Builder

open Session

/-- From the input on, with `m` kept already, what is left of the builder keeps the plan for what the
parser reads. -/
def Realizes (word : γ → δ) (plan : α → Plan γ) (i : Input) (m : Plan β) (q : β → Builder δ)
    (p : Parser α) : Prop :=
  ∀ s : Session, s.input = i →
    q (s.follow m).1 (s.follow m).2.words = Prod.map word Session.words (s.build plan p)

/-- **The builder keeps the plan for what the parser reads,** from the input on. -/
def Builds (word : γ → δ) (plan : α → Plan γ) (i : Input) (q : Builder δ) (p : Parser α) : Prop :=
  Realizes word plan i (pure ()) (fun _ => q) p

/-- What the builder does is to keep `m`, and to cut off the ids. -/
def Performs (word : β → δ) (q : Builder δ) (m : Plan β) : Prop :=
  ∀ s : Session, q s.words = Prod.map word Session.words (s.follow m)

variable {word : γ → δ} {plan : α → Plan γ} {i : Input} {m : Plan β}

theorem builds_iff {q : Builder δ} {p : Parser α} : Builds word plan i q p ↔
    ∀ s : Session, s.input = i → q s.words = Prod.map word Session.words (s.build plan p) := Iff.rfl

/-- What has been kept may be written in another way. -/
theorem realizes_relabel {ε : Type} {f : β → ε} {m' : Plan ε} {q : ε → Builder δ} {p : Parser α}
    (hm : m' = m >>= fun b => pure (f b)) :
    Realizes word plan i m' q p ↔ Realizes word plan i m (fun b => q (f b)) p := by
  subst hm
  exact Iff.rfl

/-- Only what the parser does at the input counts. -/
theorem Realizes.of_eq {q : β → Builder δ} {p p' : Parser α} (h : Realizes word plan i m q p)
    (hp : p' i = p i) : Realizes word plan i m q p' := by
  intro s hs
  have hrun : s.run p' = s.run p := by rw [run, run, hs, hp]
  rw [build, hrun]
  exact h s hs

section Rules

variable {ε ζ η : Type} {P : Parser α} {q : β → Builder δ}

/-- A step of reading is the same for both. -/
theorem Realizes.read {r : Parser ε} {f : β → ε → Builder δ} {g : ε → Parser α}
    (h : Realizes word plan (r i).next m (fun b => f b (r i).value) (g (r i).value)) :
    Realizes word plan i m (fun b => Builder.read r >>= f b) (r >>= g) := by
  intro s hs
  subst hs
  change f _ ((s.follow m).2.words.run r).1 ((s.follow m).2.words.run r).2 = _
  rw [run_words, run_follow, build_bind]
  exact h (s.run r).2 rfl

/-- A look that only the builder takes. -/
theorem Realizes.look {r : Parser ε} {f : β → ε → Builder δ} {e : ε} (hlook : r i = ⟨e, [], i⟩)
    (h : Realizes word plan i m (fun b => f b e) P) :
    Realizes word plan i m (fun b => Builder.read r >>= f b) P := by
  intro s hs
  have hrun : (s.follow m).2.words.run r = (e, (s.follow m).2.words) :=
    run_look (hs ▸ hlook)
  change f _ ((s.follow m).2.words.run r).1 ((s.follow m).2.words.run r).2 = _
  rw [hrun]
  exact h s hs

/-- A look that only the parser takes. -/
theorem Realizes.glance {r : Parser ε} {g : ε → Parser α} {e : ε} (hlook : r i = ⟨e, [], i⟩)
    (h : Realizes word plan i m q (g e)) : Realizes word plan i m q (r >>= g) := by
  refine h.of_eq ?_
  rw [Parser.bind_apply, hlook]
  rfl

/-- What another builder keeps. -/
theorem Realizes.bind {word' : ζ → η} {plan' : ε → Plan ζ} {r : Builder η} {p : Parser ε}
    {f : β → η → Builder δ} {g : ε → Parser α} (hr : Builds word' plan' i r p)
    (h : Realizes word plan (p i).next (do let b ← m; let z ← plan' (p i).value; return (b, z))
      (fun bz => f bz.1 (word' bz.2)) (g (p i).value)) :
    Realizes word plan i m (fun b => r >>= f b) (p >>= g) := by
  intro s hs
  subst hs
  have hkept := builds_iff.mp hr (s.follow m).2 rfl
  have hrest := h (s.run p).2 rfl
  change f _ (r (s.follow m).2.words).1 (r (s.follow m).2.words).2 = _
  rw [hkept, build_bind]
  exact hrest

/-- What another builder keeps before anything else. -/
theorem Builds.bind {word' : ζ → η} {plan' : ε → Plan ζ} {r : Builder η} {p : Parser ε}
    {f : η → Builder δ} {g : ε → Parser α} (hr : Builds word' plan' i r p)
    (h : Realizes word plan (p i).next (plan' (p i).value) (fun z => f (word' z))
      (g (p i).value)) : Builds word plan i (r >>= f) (p >>= g) :=
  Realizes.bind hr ((realizes_relabel (f := fun z => ((), z)) rfl).mpr h)

/-- What another builder keeps, and whether it met with an error. -/
theorem Realizes.quietly {word' : ζ → η} {plan' : ε → Plan ζ} {r : Builder η} {p : Parser ε}
    {f : β → η × Bool → Builder δ} {g : ε × Bool → Parser α} (hr : Builds word' plan' i r p)
    (h : Realizes word plan (p i).next (do let b ← m; let z ← plan' (p i).value; return (b, z))
      (fun bz => f bz.1 (word' bz.2, (p i).reports.isEmpty))
      (g ((p i).value, (p i).reports.isEmpty))) :
    Realizes word plan i m (fun b => Builder.quietly r >>= f b) (Parser.quietly p >>= g) := by
  intro s hs
  subst hs
  have hkept := builds_iff.mp hr (s.follow m).2 rfl
  have hrest := h (s.run p).2 rfl
  have hcounts : Builder.quietly r (s.follow m).2.words =
      (((r (s.follow m).2.words).1,
        (r (s.follow m).2.words).2.sink.errorCount == s.sink.errorCount),
        (r (s.follow m).2.words).2) := rfl
  -- the builder tells from the counts what the parser is told
  have hquiet : (p s.input).reports.isEmpty =
      ((s.run p).2.sink.errorCount == s.sink.errorCount) :=
    congrArg (fun run : (ε × Bool) × Session => run.1.2) (s.run_quietly p)
  rw [hquiet] at hrest
  change f _ (Builder.quietly r _).1 (Builder.quietly r _).2 = _
  rw [hcounts, hkept, build_bind, run_quietly]
  exact hrest

/-- What is kept besides. -/
theorem Realizes.step {word' : ζ → η} {r : β → Builder η} {m' : β → Plan ζ}
    {f : β → η → Builder δ} (hr : ∀ b, Performs word' (r b) (m' b))
    (h : Realizes word plan i (do let b ← m; let z ← m' b; return (b, z))
      (fun bz => f bz.1 (word' bz.2)) P) :
    Realizes word plan i m (fun b => r b >>= f b) P := by
  intro s hs
  have hkept := hr (s.follow m).1 (s.follow m).2
  change f _ (r _ (s.follow m).2.words).1 (r _ (s.follow m).2.words).2 = _
  rw [hkept]
  exact h s hs

/-- A node that is kept completes a part of the plan. -/
theorem Realizes.node {word' : ζ → η} {r : β → Builder η} {m' : β → Plan ζ} {M : Plan ζ}
    {f : η → Builder δ} (hr : ∀ b, Performs word' (r b) (m' b)) (hM : M = m >>= m')
    (h : Realizes word plan i M (fun z => f (word' z)) P) :
    Realizes word plan i m (fun b => r b >>= f) P := by
  subst hM
  exact .step hr h

/-- The last thing that is kept completes the plan. -/
theorem Realizes.last {a : α} {m' : β → Plan γ} (hq : ∀ b, Performs word (q b) (m' b))
    (hplan : plan a = m >>= m') : Realizes word plan i m q (pure a) := by
  intro s _
  have hkept := hq (s.follow m).1 (s.follow m).2
  have hbuild : s.build plan (pure a) = s.follow (plan a) := rfl
  rw [hkept, hbuild, hplan]
  rfl

theorem Realizes.done {a : α} {f : β → γ} {v : β → δ} (hv : ∀ b, v b = word (f b))
    (hplan : plan a = m >>= fun b => pure (f b)) :
    Realizes word plan i m (fun b => pure (v b)) (pure a) := by
  refine .last (fun b s => ?_) hplan
  rw [hv]
  rfl

theorem Realizes.ite {c : Prop} [Decidable c] {q' : β → Builder δ} {p p' : Parser α}
    (h : c → Realizes word plan i m q p) (h' : ¬ c → Realizes word plan i m q' p') :
    Realizes word plan i m (fun b => if c then q b else q' b) (if c then p else p') := by
  split
  · exact h ‹c›
  · exact h' ‹¬ c›

/-- A span is looked up where the parser takes the run. -/
theorem Realizes.spanFrom {start : Nat} {f : β → Span → Builder δ} {g : Run → Parser α}
    (h : Realizes word plan i (do
        let b ← m
        let place ← Plan.spanOf ⟨start, i.position⟩
        return (b, place)) (fun bz => f bz.1 bz.2) (g ⟨start, i.position⟩)) :
    Realizes word plan i m (fun b => Builder.spanFrom start >>= f b)
      (Parser.runFrom start >>= g) := by
  intro s hs
  subst hs
  exact h s rfl

end Rules

/-! ## 3. Keeping nodes -/

theorem Performs.bind {ε ζ : Type} {word : β → δ} {word' : ε → ζ} {q : Builder δ} {m : Plan β}
    {f : δ → Builder ζ} {g : β → Plan ε} (h : Performs word q m)
    (hf : ∀ b, Performs word' (f (word b)) (g b)) : Performs word' (q >>= f) (m >>= g) := by
  intro s
  change f (q s.words).1 (q s.words).2 = _
  rw [h]
  exact hf _ _

theorem performs_pure {word : β → δ} (b : β) : Performs word (pure (word b)) (pure b) :=
  fun _ => rfl

theorem performs_located {ε : Type} (f : (Run → Span) → ε) :
    Performs id (located f) (Plan.located f) := fun _ => rfl

/-- Keeping nodes under words is keeping them and cutting off the ids. -/
theorem performs_keep {word : β → δ} {nodes : StateM (Arena Span) β}
    {nodes' : StateM (Arena Span) δ}
    (h : ∀ a : Arena Span, nodes' a.words = Prod.map word Arena.words (nodes a)) :
    Performs word (keep nodes') (fun _ => nodes) := by
  intro s
  change ((nodes' s.arena.words).1, { s.words with arena := (nodes' s.arena.words).2 }) = _
  rw [h]
  rfl

theorem performs_expr (form : ExprForm) (place : Span) :
    Performs Id.word (expr form.word place) (Plan.expr form place) :=
  performs_keep fun a => a.allocExpr_words ⟨form, place⟩

theorem performs_exprs (ids : List (Id .expr)) :
    Performs Slots.word (exprs (ids.map Id.word)) (Plan.exprs ids) :=
  performs_keep fun a => a.allocExprs_words ids

theorem performs_stmt (form : StmtForm Span) (place : Span) :
    Performs Id.word (stmt form.word place) (Plan.stmt form place) :=
  performs_keep fun a => a.allocStmt_words ⟨form, place⟩

theorem performs_stmts (ids : List (Id .stmt)) :
    Performs Slots.word (stmts (ids.map Id.word)) (Plan.stmts ids) :=
  performs_keep fun a => a.allocStmts_words ids

theorem performs_clause (form : ClauseForm Span) (place : Span) :
    Performs Id.word (clause form.word place) (Plan.clause form place) :=
  performs_keep fun a => a.allocClause_words ⟨form, place⟩

theorem performs_clauses (ids : List (Id .clause)) :
    Performs Slots.word (clauses (ids.map Id.word)) (Plan.clauses ids) :=
  performs_keep fun a => a.allocClauses_words ids

/-! ## 4. Options and loops -/

/-- What is read without any nodes is only put in its place in the source. -/
theorem builds_located (p : Parser α) (f : (Run → Span) → α → γ) (i : Input) :
    Builds id (fun a => Plan.located fun locate => f locate a) i (do
      let a ← read p
      located fun locate => f locate a) p := by
  refine (Realizes.read (g := pure) ?_).of_eq (congrFun (bind_pure p) i).symm
  exact Realizes.last (fun _ => performs_located _) rfl

/-- What stands behind a token is kept if the token comes next. -/
theorem builds_behind? (f : Fixed) {item : Builder δ} {item' : Parser α}
    (h : ∀ i, Builds word plan i item item') (i : Input) :
    Builds (Option.map word) (Plan.optional plan) i (do
      if ← read (Parser.eat f) then
        let a ← item
        return some a
      else return none) (do
      if ← Parser.eat f then
        let a ← item'
        return some a
      else return none) := by
  refine Realizes.read ?_
  refine Realizes.ite (fun _ => ?_) (fun _ => ?_)
  · refine Builds.bind (h _) ?_
    exact .done (f := some) (fun _ => rfl) rfl
  · exact .done (f := fun _ => none) (fun _ => rfl) rfl

/-- **A loop keeps what is planned for its items,** one after the other. -/
theorem builds_collect {item : Builder (Option δ)} {item' : Parser (Option α)}
    (h : ∀ i, Builds (Option.map word) (Plan.optional plan) i item item') (i : Input) :
    Builds (List.map word) (Plan.all plan) i (collect item) (Parser.collect item') := by
  have hwithin : ∀ n i, Builds (List.map word) (Plan.all plan) i (collectWithin item n)
      (Parser.collectWithin item' n) := by
    intro n
    induction n with
    | zero => exact fun i => Realizes.done (f := fun _ => []) (fun _ => rfl) rfl
    | succ n ih =>
      intro i
      refine Builds.bind (h i) ?_
      cases (item' i).value with
      | none =>
        refine (realizes_relabel (f := fun _ => none) (m := pure ()) rfl).mpr ?_
        exact .done (f := fun _ => []) (fun _ => rfl) rfl
      | some a =>
        refine (realizes_relabel (f := some) (m := plan a) rfl).mpr ?_
        exact Realizes.bind (ih _) (.done (f := fun b => b.1 :: b.2) (fun _ => rfl) rfl)
  exact Realizes.look rfl ((hwithin _ i).of_eq rfl)

end Builder

end PlatformGate
