import ExprTree.Node.Basic
import ExprTree.Number.Layout

/-!
The values of literals as plain text: numbers without an exponent and without a point where there
is no fraction, texts without quotes.
-/

namespace ExprTree

/-- How numbers are shown: always in place. -/
def LiteralValue.layout : Layout where
  tie := .up
  inPlace _ := true
  whole := []

/-- A number as it is shown. -/
def LiteralValue.numberText (x : Binary64) : List Char :=
  if x.isFinite then layout.write x
  else if x.negative then "-inf".toList
  else "inf".toList

/-- The plain text of a literal's value. -/
def LiteralValue.display : LiteralValue → String
  | null => "null"
  | bool b => if b then "true" else "false"
  | number x => String.ofList (numberText x)
  | string s => s

/-- The text of a text literal. -/
def LiteralValue.string? : LiteralValue → Option String
  | string s => some s
  | _ => none

/-- The number of a number literal. -/
def LiteralValue.number? : LiteralValue → Option Binary64
  | number x => some x
  | _ => none

end ExprTree
