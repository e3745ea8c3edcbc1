import ExprTree.Json.Basic
import ExprTree.Number.Layout
import ExprTree.Number.Numeral

/-!
The numbers of a JSON text. An integer that fits 64 bits is kept as it is. Every other number is a
double, found in two steps with a rounding in each: the leading digits that fit 64 bits, then one
scaling by a power of ten. A number beyond the finite doubles is no JSON number.

The written form of a double is its shortest decimal, in place for a leading digit between the
fifth place after the point and the sixteenth in front of it, else with an exponent. There is no
written form of infinity; `null` stands for it.
-/

namespace ExprTree

namespace Binary64

/-- The rank of the magnitude nearest to a power of ten. -/
def tenthPower (n : Nat) : Nat :=
  nearestRank (Nat.pow 10 n) 1

/-- The rank nearest to the product of two magnitudes. -/
def timesRank (a b : Nat) : Nat :=
  nearestRank (units a * units b) (Nat.pow 2 2148)

/-- The rank nearest to the quotient of two magnitudes. -/
def overRank (a b : Nat) : Nat :=
  nearestRank (units a) (units b)

/-- Divides by `10 ^ 308` so many times, or until nothing is left. -/
def shrink : Nat → Nat → Nat
  | 0, rank => rank
  | n + 1, rank => if rank = 0 then 0 else shrink n (overRank rank (tenthPower 308))

/-- A magnitude scaled by a power of ten that is itself rounded, `10 ^ 308` being the last such
power; there is no answer beyond the finite magnitudes. -/
def scale? (rank : Nat) (power : Int) : Option Nat :=
  if power < 0 then
    let n := power.natAbs
    let rounds := (n - 1) / 308
    some (overRank (shrink rounds rank) (tenthPower (n - 308 * rounds)))
  else if rank = 0 then some 0
  else if 308 < power then none
  else
    let scaled := timesRank rank (tenthPower power.toNat)
    if scaled < topRank then some scaled else none

end Binary64

namespace JsonNumber

/-- Extends a number by digits as long as it fits 64 bits; the second part is what is left over. -/
def absorb (n : Nat) : List Char → Nat × List Char
  | [] => (n, [])
  | d :: ds =>
    let next := 10 * n + (d.toNat - '0'.toNat)
    if next < Nat.pow 2 64 then absorb next ds else (n, d :: ds)

/-- What a JSON text admits as a numeral: no leading zeros, and no empty run of digits. -/
def isAdmitted (n : Numeral) : Bool :=
  !n.whole.isEmpty && (n.whole.head? ≠ some '0' || n.whole.length == 1) &&
    n.fraction ≠ some [] && !n.lacksExponent

/-- The double that an admitted numeral stands for, its sign apart. -/
def magnitude? (n : Numeral) : Option Nat :=
  let fraction := n.fraction.getD []
  let (whole, overflow) := absorb 0 n.whole
  let (significand, rest) := absorb whole fraction
  let power : Int := overflow.length - (fraction.length - rest.length : Nat)
  Binary64.scale? (Binary64.nearestRank significand 1)
    (power + n.exponent.elim 0 Exponent.value)

/-- The number that a numeral with a sign stands for. -/
def ofNumeral? (negative : Bool) (n : Numeral) : Option JsonNumber :=
  let value := digitsValue n.whole
  let isInteger := n.fraction.isNone && n.exponent.isNone
  if !isAdmitted n then none
  else if isInteger && !negative && value < Nat.pow 2 64 then some (.integer value)
  else if isInteger && negative && 0 < value && value ≤ Nat.pow 2 63 then some (.integer (-value))
  else (magnitude? n).map fun rank => .real (.ofRank negative rank)

/-- The number at the beginning of a text, and what follows it. -/
def read? (text : List Char) : Option (JsonNumber × List Char) :=
  match text with
  | '-' :: cs =>
    let (n, rest) := Numeral.munch cs
    (ofNumeral? true n).map (·, rest)
  | cs =>
    let (n, rest) := Numeral.munch cs
    (ofNumeral? false n).map (·, rest)

/-- How doubles are written in a JSON text. -/
def layout : Layout where
  tie := .even
  inPlace e := decide (-5 ≤ e ∧ e ≤ 15)
  whole := ['.', '0']

/-- The text of an integer in decimal. -/
def integerText (n : Int) : List Char :=
  if n < 0 then '-' :: Nat.toDigits 10 n.natAbs else Nat.toDigits 10 n.natAbs

/-- The written form of a number. -/
def text : JsonNumber → List Char
  | .integer n => integerText n
  | .real x => if x.isFinite then layout.write x else "null".toList

end JsonNumber

end ExprTree
