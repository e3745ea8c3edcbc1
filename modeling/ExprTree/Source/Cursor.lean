/-!
A place in a source text, kept as the characters already passed and the characters still ahead.
Moving forward never runs past the end, and no move loses or changes a character: `text_advance`
says that the whole text is the same at every place, and `index_advance` where a move ends.
-/

namespace ExprTree

/-- Space and tab are the only blanks; a line break is an ordinary character. -/
def isBlank (c : Char) : Bool :=
  c == ' ' || c == '\t'

/-- A place in a text. -/
structure Cursor where
  /-- The characters already passed, the nearest one first. -/
  passed : List Char
  /-- The characters still ahead, the nearest one first. -/
  ahead : List Char
deriving DecidableEq, Repr

namespace Cursor

/-- The place in front of a whole text. -/
def start (text : List Char) : Cursor :=
  ⟨[], text⟩

/-- The whole text, whatever the place in it. -/
def text (c : Cursor) : List Char :=
  c.passed.reverse ++ c.ahead

/-- How many characters have been passed. -/
def index (c : Cursor) : Nat :=
  c.passed.length

def peek? (c : Cursor) : Option Char :=
  c.ahead.head?

/-- The character `n` places after the nearest one ahead. -/
def peekAt? (c : Cursor) (n : Nat) : Option Char :=
  c.ahead[n]?

/-- The character just passed. -/
def previous? (c : Cursor) : Option Char :=
  c.passed.head?

/-- The place `n` characters further on, or the end of the text if it is nearer. -/
def advance (c : Cursor) (n : Nat) : Cursor :=
  ⟨(c.ahead.take n).reverse ++ c.passed, c.ahead.drop n⟩

/-- Past the blanks ahead. -/
def skipBlanks (c : Cursor) : Cursor :=
  c.advance (c.ahead.takeWhile isBlank).length

@[simp] theorem text_advance (c : Cursor) (n : Nat) : (c.advance n).text = c.text := by
  simp [text, advance, List.append_assoc]

@[simp] theorem index_advance (c : Cursor) (n : Nat) :
    (c.advance n).index = c.index + min n c.ahead.length := by
  simp only [index, advance, List.length_append, List.length_reverse, List.length_take]
  omega

@[simp] theorem ahead_advance (c : Cursor) (n : Nat) : (c.advance n).ahead = c.ahead.drop n := rfl

theorem advance_zero (c : Cursor) : c.advance 0 = c := by
  simp [advance]

/-- Two moves are one move of their joint length. -/
theorem advance_advance (c : Cursor) (m n : Nat) :
    (c.advance m).advance n = c.advance (m + n) := by
  simp only [advance, List.drop_drop, mk.injEq, and_true]
  rw [List.take_add, List.reverse_append, List.append_assoc]

@[simp] theorem text_skipBlanks (c : Cursor) : c.skipBlanks.text = c.text :=
  c.text_advance _

theorem ahead_skipBlanks (c : Cursor) : c.skipBlanks.ahead = c.ahead.dropWhile isBlank := by
  have joined : c.ahead.takeWhile isBlank ++ c.ahead.dropWhile isBlank = c.ahead :=
    List.takeWhile_append_dropWhile
  calc c.ahead.drop (c.ahead.takeWhile isBlank).length
      = (c.ahead.takeWhile isBlank ++ c.ahead.dropWhile isBlank).drop
          (c.ahead.takeWhile isBlank).length := by rw [joined]
    _ = c.ahead.dropWhile isBlank := List.drop_left

theorem skipBlanks_skipBlanks (c : Cursor) : c.skipBlanks.skipBlanks = c.skipBlanks := by
  have hnone : (c.ahead.dropWhile isBlank).takeWhile isBlank = [] := by
    cases hrest : c.ahead.dropWhile isBlank with
    | nil => rfl
    | cons d rest =>
      have hd := List.head?_dropWhile_not isBlank c.ahead
      rw [hrest] at hd
      simp_all
  rw [skipBlanks.eq_def c.skipBlanks, ahead_skipBlanks, hnone, List.length_nil, advance_zero]

/-- The place is within the text, wherever it is. -/
theorem index_le (c : Cursor) : c.index ≤ c.text.length := by
  simp [index, text]

end Cursor

end ExprTree
