/-!
Lines and columns of a text. A line ends at each line feed; a location counts lines from one and
columns from zero. The lines that are shown drop a carriage return in front of the line feed, and
do not count the empty rest after a final line feed as a line.
-/

namespace ExprTree

/-- A place in a text as a line, counted from one, and a column, counted from zero. -/
structure Location where
  line : Nat
  column : Nat
deriving DecidableEq, Repr

namespace Location

/-- The location after one more character: a line feed begins a line, all else is one column. -/
def next (l : Location) (c : Char) : Location :=
  if c = '\n' then ⟨l.line + 1, 0⟩ else ⟨l.line, l.column + 1⟩

/-- The location of an offset in a text; an offset past the end stands for the end. -/
def ofOffset (text : List Char) (offset : Nat) : Location :=
  (text.take offset).foldl next ⟨1, 0⟩

end Location

/-- The pieces of a text between its line feeds; there is one more of them than line feeds. -/
def pieces : List Char → List (List Char)
  | [] => [[]]
  | c :: rest =>
    match c == '\n', pieces rest with
    | true, ps => [] :: ps
    | false, [] => [[c]]
    | false, p :: ps => (c :: p) :: ps

/-- A line feed may be written with a carriage return in front of it, which is no part of the
line. -/
def dropReturn (piece : List Char) : List Char :=
  if piece.getLast? = some '\r' then piece.dropLast else piece

/-- The lines of a text as they are shown: each piece that a line feed ends, then what follows the
last line feed unless it is empty. -/
def shownLines (text : List Char) : List (List Char) :=
  let ps := pieces text
  ps.dropLast.map dropReturn ++ ps.getLast?.toList.filter (· ≠ [])

theorem pieces_ne_nil (text : List Char) : pieces text ≠ [] := by
  cases text with
  | nil => simp [pieces]
  | cons c rest =>
    unfold pieces
    split <;> simp

end ExprTree
