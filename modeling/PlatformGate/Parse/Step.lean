/-
# Steps of reading

A reader looks at terminals: the kind of each token and how it lies in its line, and nothing else.
A parser takes an input and always comes to a value; on the way it reports causes at runs of
tokens.  `collect` is the only loop: it repeats a parser for as long as that gives an item.
-/
import PlatformGate.Report.Cause
import PlatformGate.Syntax.Run
import PlatformGate.Token.Basic

namespace PlatformGate

/-- What a reader sees of a token. -/
structure Terminal where
  kind : Kind String
  /-- The token is the first on its line. -/
  lineStart : Bool := false
  /-- A newline stands between the token and the one before. -/
  newline : Bool := false
  deriving DecidableEq, Repr, Inhabited

namespace Terminal

def ofToken (t : Token String) : Terminal := ⟨t.kind, t.layout.lineStart, t.layout.newline⟩

/-- The terminals in front of the end of file. -/
def ofTokens (ts : List (Token String)) : List Terminal :=
  (ts.takeWhile fun t => t.kind != .endOfFile).map ofToken

end Terminal

/-- The terminals that are still to be read, and the index of the first of them.  Nothing left
means the end of file. -/
structure Input where
  position : Nat
  rest : List Terminal
  deriving DecidableEq, Repr, Inhabited

namespace Input

/-- The input in front of all terminals. -/
def start (ts : List Terminal) : Input := ⟨0, ts⟩

/-- The kind of the next terminal. -/
def kind (i : Input) : Kind String :=
  match i.rest with
  | [] => .endOfFile
  | t :: _ => t.kind

/-- The input behind the next `n` terminals. -/
def skip (n : Nat) (i : Input) : Input := ⟨i.position + n, i.rest.drop n⟩

/-- The input behind the next terminal; at the end of file it stays. -/
def next (i : Input) : Input :=
  match i.rest with
  | [] => i
  | _ :: ts => ⟨i.position + 1, ts⟩

end Input

/-- A value, what was reported before it was found, and what is left to read. -/
structure Step (α : Type) where
  value : α
  reports : List (Report Run)
  next : Input

/-- A way of reading that always comes to a value. -/
def Parser (α : Type) : Type := Input → Step α

namespace Parser

variable {α β : Type}

instance : Monad Parser where
  pure a := fun i => ⟨a, [], i⟩
  bind p f := fun i =>
    let s := p i
    let t := f s.value s.next
    ⟨t.value, s.reports ++ t.reports, t.next⟩

theorem pure_apply (a : α) (i : Input) : (pure a : Parser α) i = ⟨a, [], i⟩ := rfl

theorem bind_apply (p : Parser α) (f : α → Parser β) (i : Input) :
    (p >>= f) i =
      ⟨(f (p i).value (p i).next).value, (p i).reports ++ (f (p i).value (p i).next).reports,
        (f (p i).value (p i).next).next⟩ := rfl

theorem ext {p q : Parser α} (h : ∀ i, p i = q i) : p = q := funext h

instance : LawfulMonad Parser :=
  LawfulMonad.mk' Parser
    (fun p => ext fun i => by
      change (⟨(p i).value, (p i).reports ++ [], (p i).next⟩ : Step _) = p i
      rw [List.append_nil])
    (fun _ _ => ext fun _ => by simp [bind, pure])
    (fun _ _ _ => ext fun _ => by simp [bind, List.append_assoc])

/-! ## 1. Looking and moving -/

/-- The index of the next terminal. -/
def position : Parser Nat := fun i => ⟨i.position, [], i⟩

/-- The kind of the next terminal. -/
def kind : Parser (Kind String) := fun i => ⟨i.kind, [], i⟩

/-- Whether the next terminal is the first on its line. -/
def atLineStart : Parser Bool := fun i => ⟨i.rest.head?.any Terminal.lineStart, [], i⟩

/-- Whether a newline stands in front of the next terminal. -/
def afterNewline : Parser Bool := fun i => ⟨i.rest.head?.any Terminal.newline, [], i⟩

/-- Whether nothing is left. -/
def atEnd : Parser Bool := fun i => ⟨i.rest.isEmpty, [], i⟩

/-- What is left. -/
def rest : Parser (List Terminal) := fun i => ⟨i.rest, [], i⟩

/-- Moves behind the next terminal. -/
def next : Parser Unit := fun i => ⟨(), [], i.next⟩

/-- Moves behind the next `n` terminals. -/
def skip (n : Nat) : Parser Unit := fun i => ⟨(), [], i.skip n⟩

/-- Whether the next terminal is the given token. -/
def check (f : Fixed) : Parser Bool := fun i => ⟨i.kind == .fixed f, [], i⟩

/-- Moves behind the given token if it comes next, and says whether it did. -/
def eat (f : Fixed) : Parser Bool := fun i =>
  if i.kind == .fixed f then ⟨true, [], i.next⟩ else ⟨false, [], i⟩

/-- The run from the given terminal up to here. -/
def runFrom (start : Nat) : Parser Run := fun i => ⟨⟨start, i.position⟩, [], i⟩

/-! ## 2. Reporting -/

/-- Reports a cause at a run. -/
def report (cause : Cause Run) (place : Run) : Parser Unit := fun i => ⟨(), [⟨cause, place⟩], i⟩

/-- Reports a cause at the next terminal. -/
def reportHere (cause : Cause Run) : Parser Unit := fun i =>
  ⟨(), [⟨cause, Run.token i.position⟩], i⟩

/-- The value of a parser, and whether it reported nothing. -/
def quietly (p : Parser α) : Parser (α × Bool) := fun i =>
  let s := p i
  ⟨(s.value, s.reports.isEmpty), s.reports, s.next⟩

/-- Moves behind a token that is invalid, and reports it. -/
def invalidToken : Parser Run := do
  let start ← position
  next
  report .invalidToken (Run.token start)
  return Run.token start

/-! ## 3. Repetition -/

/-- The items that a parser gives in at most `n` rounds. -/
def collectWithin (item : Parser (Option α)) : Nat → Parser (List α)
  | 0 => pure []
  | n + 1 => do
    match ← item with
    | none => return []
    | some a =>
      let as ← collectWithin item n
      return a :: as

/-- The items that a parser gives until it gives none.  Every item takes at least one terminal, so
one round more than there are terminals is enough. -/
def collect (item : Parser (Option α)) : Parser (List α) := fun i =>
  collectWithin item (i.rest.length + 1) i

end Parser

end PlatformGate
