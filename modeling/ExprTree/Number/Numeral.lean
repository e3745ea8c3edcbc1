import ExprTree.Number.Binary64

/-!
Decimal numerals: digits, a point with digits, an exponent. `munch` takes the longest beginning of
a text that has this shape, also where digits are missing that a number needs (`1e`, `.`);
`isComplete` tells which of them are numbers. `text_munch` says that munching splits the text in
two and loses nothing.
-/

namespace ExprTree

/-- The exponent of a numeral as it is written. -/
structure Exponent where
  marker : Char
  sign : Option Char
  digits : List Char
deriving DecidableEq, Repr

/-- A numeral as it is written; any of its runs of digits may be empty. -/
structure Numeral where
  whole : List Char
  /-- The digits after the point, if there is a point. -/
  fraction : Option (List Char)
  exponent : Option Exponent
deriving DecidableEq, Repr

/-- The value of decimal digits, the leading one first. -/
def digitsValue (digits : List Char) : Nat :=
  digits.foldl (fun n d => 10 * n + (d.toNat - '0'.toNat)) 0

namespace Exponent

def text (e : Exponent) : List Char :=
  e.marker :: (e.sign.toList ++ e.digits)

def value (e : Exponent) : Int :=
  if e.sign = some '-' then -(digitsValue e.digits : Int) else digitsValue e.digits

/-- The exponent at the beginning of a text, and what follows. A marker is enough to begin one. -/
def munch : List Char → Option Exponent × List Char
  | [] => (none, [])
  | m :: cs =>
    if m = 'e' ∨ m = 'E' then
      match cs with
      | [] => (some ⟨m, none, []⟩, [])
      | s :: ds =>
        if s = '+' ∨ s = '-' then
          (some ⟨m, some s, ds.takeWhile Char.isDigit⟩, ds.dropWhile Char.isDigit)
        else
          (some ⟨m, none, (s :: ds).takeWhile Char.isDigit⟩, (s :: ds).dropWhile Char.isDigit)
    else (none, m :: cs)

theorem text_munch (cs : List Char) :
    ((munch cs).1.elim [] text) ++ (munch cs).2 = cs := by
  unfold munch
  split
  · rfl
  · split
    · split
      · rfl
      · split <;> simp [text, List.takeWhile_append_dropWhile]
    · rfl

end Exponent

namespace Numeral

/-- The point and the digits after it, if the text begins with a point. -/
def munchFraction : List Char → Option (List Char) × List Char
  | '.' :: cs => (some (cs.takeWhile Char.isDigit), cs.dropWhile Char.isDigit)
  | cs => (none, cs)

/-- The longest numeral at the beginning of a text, and what follows it. -/
def munch (cs : List Char) : Numeral × List Char :=
  let whole := cs.takeWhile Char.isDigit
  let (fraction, afterFraction) := munchFraction (cs.dropWhile Char.isDigit)
  let (exponent, rest) := Exponent.munch afterFraction
  (⟨whole, fraction, exponent⟩, rest)

/-- The numeral as it is written. -/
def text (n : Numeral) : List Char :=
  n.whole ++ n.fraction.elim [] ('.' :: ·) ++ n.exponent.elim [] Exponent.text

/-- All digits in front of the exponent. -/
def mantissa (n : Numeral) : List Char :=
  n.whole ++ n.fraction.getD []

/-- An exponent without digits is begun but not finished. -/
def lacksExponent (n : Numeral) : Bool :=
  n.exponent.any (·.digits.isEmpty)

/-- A numeral stands for a number if it has a digit in front of the exponent, and one in the
exponent if there is one. -/
def isComplete (n : Numeral) : Bool :=
  !n.mantissa.isEmpty && !n.lacksExponent

/-- The number nearest to what the numeral says. -/
def value (n : Numeral) : Binary64 :=
  .ofDecimal (digitsValue n.mantissa)
    (n.exponent.elim 0 Exponent.value - (n.fraction.getD []).length)

/-- The number that a text stands for, if the whole text is a complete numeral. -/
def read? (text : List Char) : Option Binary64 :=
  match munch text with
  | (n, []) => if n.isComplete then some n.value else none
  | _ => none

theorem text_munchFraction (cs : List Char) :
    ((munchFraction cs).1.elim [] ('.' :: ·)) ++ (munchFraction cs).2 = cs := by
  unfold munchFraction
  split <;> simp [List.takeWhile_append_dropWhile]

/-- Munching splits a text in two and loses nothing. -/
theorem text_munch (cs : List Char) : (munch cs).1.text ++ (munch cs).2 = cs := by
  have hf := text_munchFraction (cs.dropWhile Char.isDigit)
  have he := Exponent.text_munch (munchFraction (cs.dropWhile Char.isDigit)).2
  simp only [munch, text, List.append_assoc]
  rw [he, hf, List.takeWhile_append_dropWhile]

end Numeral

example : (Numeral.munch "1.5e+3x".toList).1.text = "1.5e+3".toList := by decide

end ExprTree
