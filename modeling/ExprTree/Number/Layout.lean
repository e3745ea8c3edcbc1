import ExprTree.Number.Shortest

/-!
How a decimal is written out: in place, with zeros up to the point, or with an exponent. A
`Layout` holds the choices, so that one writer serves every text that shows a number.
-/

namespace ExprTree

namespace Decimal

/-- The digits in place: zeros fill up to the point, and a whole number ends in `whole`. -/
def inPlace (whole : List Char) (d : Decimal) : List Char :=
  if d.exponent < 0 then
    '0' :: '.' :: (List.replicate (-d.exponent - 1).toNat '0' ++ d.digits)
  else
    let n := d.exponent.toNat + 1
    if d.digits.length ≤ n then
      d.digits ++ List.replicate (n - d.digits.length) '0' ++ whole
    else d.digits.take n ++ '.' :: d.digits.drop n

/-- One digit in front of the point, the others after it, then the exponent with its sign. -/
def withExponent (d : Decimal) : List Char :=
  let sign := if d.exponent < 0 then '-' else '+'
  let point := if d.digits.length ≤ 1 then [] else ['.']
  d.digits.take 1 ++ point ++ d.digits.drop 1 ++ 'e' :: sign :: Nat.toDigits 10 d.exponent.natAbs

end Decimal

/-- The choices that a text of numbers makes. -/
structure Layout where
  /-- Which of two shortest decimals that are equally near is written. -/
  tie : Tie
  /-- The exponents that are written in place. -/
  inPlace : Int → Bool
  /-- What ends a whole number written in place. -/
  whole : List Char

/-- The text of a finite number. -/
def Layout.write (l : Layout) (x : Binary64) : List Char :=
  let d := Binary64.shortest l.tie x.rank
  let sign := if x.negative then ['-'] else []
  sign ++ if l.inPlace d.exponent then d.inPlace l.whole else d.withExponent

end ExprTree
