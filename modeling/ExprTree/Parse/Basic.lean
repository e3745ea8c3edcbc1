import ExprTree.Parse.Error
import ExprTree.Source.Cursor

/-!
Parsers as steps from one state to the next. A parse is done with a value, or fails with an error,
or is left unfinished because the rounds it was given ran out; the last two end the whole parse,
and only `lookAhead` and `recover` go on after a failure.
-/

namespace ExprTree

/-- Where a parse is. -/
structure State where
  cursor : Cursor
  /-- Whether a branch of a conditional is being read. A numeral then ends at a colon, even if the
  colon is a character of names. -/
  inBranch : Bool
deriving DecidableEq, Repr

/-- How a step of a parse ends. -/
inductive Outcome (α : Type) where
  | done (value : α) (state : State)
  | failed (error : ParseError)
  /-- The rounds ran out. -/
  | unfinished

/-- A step of a parse. -/
def Parse (α : Type) := State → Outcome α

namespace Parse

variable {α β : Type}

def pure (a : α) : Parse α :=
  fun s => .done a s

def bind (p : Parse α) (f : α → Parse β) : Parse β := fun s =>
  match p s with
  | .done a s => f a s
  | .failed e => .failed e
  | .unfinished => .unfinished

instance : Monad Parse where
  pure := pure
  bind := bind

theorem bind_of_done {p : Parse α} {s t : State} {a : α} (h : p s = .done a t)
    (f : α → Parse β) : (p >>= f) s = f a t := by
  change bind p f s = _
  simp [bind, h]

theorem bind_of_failed {p : Parse α} {s : State} {e : ParseError} (h : p s = .failed e)
    (f : α → Parse β) : (p >>= f) s = .failed e := by
  change bind p f s = _
  simp [bind, h]

theorem bind_of_unfinished {p : Parse α} {s : State} (h : p s = .unfinished)
    (f : α → Parse β) : (p >>= f) s = .unfinished := by
  change bind p f s = _
  simp [bind, h]

/-- The step that never ends. -/
def endless : Parse α :=
  fun _ => .unfinished

def failAt (index : Nat) (cause : Cause) : Parse α :=
  fun _ => .failed ⟨cause, index⟩

/-- Fails at the place that was reached. -/
def fail (cause : Cause) : Parse α :=
  fun s => .failed ⟨cause, s.cursor.index⟩

/-- The place that was reached. -/
def here : Parse Cursor :=
  fun s => .done s.cursor s

/-- Goes on from another place. -/
def moveTo (c : Cursor) : Parse Unit :=
  fun s => .done () { s with cursor := c }

def inBranch : Parse Bool :=
  fun s => .done s.inBranch s

def setInBranch (b : Bool) : Parse Unit :=
  fun s => .done () { s with inBranch := b }

def peek : Parse (Option Char) :=
  fun s => .done s.cursor.peek? s

def advance (n : Nat) : Parse Unit :=
  fun s => .done () { s with cursor := s.cursor.advance n }

def skipBlanks : Parse Unit :=
  fun s => .done () { s with cursor := s.cursor.skipBlanks }

/-- Passes a character if it is the next one, and says whether it was. -/
def eat (c : Char) : Parse Bool := fun s =>
  if s.cursor.peek? = some c then .done true { s with cursor := s.cursor.advance 1 }
  else .done false s

/-- A character that has to be there. -/
def expect (c : Char) (cause : Cause) : Parse Unit := do
  if ← eat c then return () else fail cause

/-- The characters ahead that satisfy a test, up to the first one that does not. -/
def takeWhile (p : Char → Bool) : Parse (List Char) := fun s =>
  let taken := s.cursor.ahead.takeWhile p
  .done taken { s with cursor := s.cursor.advance taken.length }

/-- A part that has to be there. -/
def require (cause : Cause) (p : Parse (Option α)) : Parse α := do
  match ← p with
  | some a => return a
  | none => fail cause

/-- What a parser would give here; nothing if it would fail. The state stays as it is. -/
def lookAhead (p : Parse α) : Parse (Option α) := fun s =>
  match p s with
  | .done a _ => .done (some a) s
  | .failed _ => .done none s
  | .unfinished => .unfinished

/-- A parser, or another one from the same place if it fails. -/
def recover (p q : Parse α) : Parse α := fun s =>
  match p s with
  | .failed _ => q s
  | outcome => outcome

end Parse

end ExprTree
