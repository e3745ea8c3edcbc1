/-!
Double-precision numbers without "not a number". Such a number is a sign and a rank: the place of
its magnitude among all magnitudes in increasing order, from zero at rank 0 to infinity. The rank
is also the bit pattern below the sign bit, so the next number up has the next rank.

`nearestRank` rounds an exact quotient to the nearest magnitude, a tie to the even rank.
-/

namespace ExprTree

/-- A double-precision number that is not "not a number". -/
structure Binary64 where
  negative : Bool
  /-- The place of the magnitude among all magnitudes, from zero up to infinity. -/
  rank : Nat
  rank_le : rank ≤ 2047 * Nat.pow 2 52
deriving DecidableEq

namespace Binary64

/-- The rank of infinity, the last one. -/
def topRank : Nat :=
  2047 * Nat.pow 2 52

/-- The magnitude at a rank, in units of the least positive one, which is `2 ^ -1074`. The first
`2 ^ 53` ranks are one unit apart; after them the distance doubles every `2 ^ 52` ranks. -/
def units (rank : Nat) : Nat :=
  let span := Nat.pow 2 52
  if rank < span then rank else (span + rank % span) * Nat.pow 2 (rank / span - 1)

/-- The quotient of two integers rounded to the nearest integer, a tie to the even one. -/
def roundHalfEven (num den : Nat) : Nat :=
  let q := num / den
  let r := num % den
  if 2 * r < den then q
  else if den < 2 * r then q + 1
  else q + q % 2

/-- The rank of the magnitude nearest to a quotient, a tie to the even rank. A quotient of 53 + s
bits in units is rounded to a multiple of `2 ^ s` units. -/
def nearestRank (num den : Nat) : Nat :=
  let inUnits := num * Nat.pow 2 1074
  let s := (inUnits / den).log2 - 52
  min topRank (s * Nat.pow 2 52 + roundHalfEven inUnits (den * Nat.pow 2 s))

/-- The rank of the magnitude nearest to `significand * 10 ^ power`. Far out powers are settled
without the exact quotient: `10 ^ 400` is beyond every finite magnitude, and below `10 ^ -400`
all is nearest to zero. -/
def decimalRank (significand : Nat) (power : Int) : Nat :=
  if significand = 0 then 0
  else if 400 < power then topRank
  else if power + significand.log2 < -400 then 0
  else if 0 ≤ power then nearestRank (significand * Nat.pow 10 power.toNat) 1
  else nearestRank significand (Nat.pow 10 (-power).toNat)

/-- The number with a sign and a rank, infinite if there is no such rank. -/
def ofRank (negative : Bool) (rank : Nat) : Binary64 :=
  ⟨negative, min topRank rank, Nat.min_le_left _ _⟩

/-- The number nearest to `significand * 10 ^ power`. -/
def ofDecimal (significand : Nat) (power : Int) : Binary64 :=
  ofRank false (decimalRank significand power)

/-- The number nearest to an integer. -/
def ofInt (n : Int) : Binary64 :=
  ofRank (decide (n < 0)) (nearestRank n.natAbs 1)

def zero : Binary64 :=
  ofRank false 0

def isFinite (x : Binary64) : Bool :=
  decide (x.rank < topRank)

/-- The 64-bit pattern: the sign bit, then the rank. -/
def bits (x : Binary64) : Nat :=
  (if x.negative then Nat.pow 2 63 else 0) + x.rank

instance : Inhabited Binary64 := ⟨zero⟩

/-- The pattern has 64 bits, and the last of them is the sign. -/
theorem bits_lt (x : Binary64) :
    x.bits < Nat.pow 2 64 ∧ (x.negative = true ↔ Nat.pow 2 63 ≤ x.bits) := by
  have hrank : x.rank < 9223372036854775808 := Nat.lt_of_le_of_lt x.rank_le (by decide)
  unfold bits
  cases x.negative with
  | false => simpa using ⟨by omega, hrank⟩
  | true =>
    simp only [if_true, Nat.pow_eq, Nat.reducePow, true_iff]
    omega

example : (ofInt (-2)).bits = 0xc000000000000000 := by decide +kernel

end Binary64

end ExprTree
