import ExprTree.Number.Binary64

/-!
The fewest decimal digits that read back as a given magnitude. For one digit, two, and so on, the
two neighbours of the value among the decimals of that many digits are read; the first count of
digits at which one of them reads back is taken, and of two that do the nearer one.
-/

namespace ExprTree

/-- Which of two decimals is taken when a value lies exactly midway between them. -/
inductive Tie where
  | even
  | up
deriving DecidableEq, Repr

/-- The decimal `d.ddd * 10 ^ exponent`, the first digit in front of the point. -/
structure Decimal where
  digits : List Char
  exponent : Int
deriving DecidableEq, Repr

namespace Decimal

/-- The zeros at the end of the digits say nothing and are left out; zero itself keeps one. -/
def ofScaled (significand : Nat) (power : Int) : Decimal :=
  let ds := Nat.toDigits 10 significand
  let kept := (ds.reverse.dropWhile (· == '0')).reverse
  ⟨if kept.isEmpty then ['0'] else kept, power + ds.length - 1⟩

end Decimal

namespace Binary64

/-- The quotient whose integer part and remainder place a magnitude on the grid of the multiples of
`10 ^ power`. -/
def onGrid (rank : Nat) (power : Int) : Nat × Nat :=
  if 0 ≤ power then (units rank, Nat.pow 2 1074 * Nat.pow 10 power.toNat)
  else (units rank * Nat.pow 10 (-power).toNat, Nat.pow 2 1074)

/-- Of the two multiples of `10 ^ power` around a magnitude, the one that reads back as it; if both
do, the nearer one. -/
def readBack? (tie : Tie) (rank : Nat) (power : Int) : Option Nat :=
  let (num, den) := onGrid rank power
  let q := num / den
  let r := num % den
  let upper := den < 2 * r ∨ (den = 2 * r ∧ (tie = .up ∨ q % 2 = 1))
  match decide (decimalRank q power = rank), decide (decimalRank (q + 1) power = rank) with
  | true, true => some (if upper then q + 1 else q)
  | true, false => some q
  | false, true => some (q + 1)
  | false, false => none

/-- What is taken reads back, and it is one of the two multiples around the magnitude. -/
theorem readBack?_spec {tie : Tie} {rank q : Nat} {power : Int}
    (h : readBack? tie rank power = some q) :
    decimalRank q power = rank ∧
      (q = (onGrid rank power).1 / (onGrid rank power).2 ∨
        q = (onGrid rank power).1 / (onGrid rank power).2 + 1) := by
  unfold readBack? at h
  dsimp only at h
  split at h
  · rename_i hlower hupper
    rw [decide_eq_true_iff] at hlower hupper
    split at h <;> cases h
    · exact ⟨hupper, .inr rfl⟩
    · exact ⟨hlower, .inl rfl⟩
  · rename_i hlower _
    cases h
    exact ⟨of_decide_eq_true hlower, .inl rfl⟩
  · rename_i _ hupper
    cases h
    exact ⟨of_decide_eq_true hupper, .inr rfl⟩
  · cases h

/-- The least positive magnitude lies between 4 and 5 on the grid of `10 ^ -324`. -/
example : readBack? .even 1 (-324) = some 5 := by decide +kernel

/-- The decimal exponent of a positive magnitude's leading digit. -/
def leadingExponent (rank : Nat) : Int :=
  let (num, den) := onGrid rank (-400)
  (Nat.toDigits 10 (num / den)).length - 401

/-- The first grid with a hit, going on for `fuel` more digits from the grid of `10 ^ power`. -/
def firstHit (tie : Tie) (rank : Nat) : (fuel : Nat) → (power : Int) → Decimal
  | 0, power =>
    let (num, den) := onGrid rank power
    .ofScaled (num / den) power
  | fuel + 1, power =>
    match readBack? tie rank power with
    | some significand => .ofScaled significand power
    | none => firstHit tie rank fuel (power - 1)

/-- The shortest decimal that reads back as the finite magnitude at a rank, the nearest to it of
those. Seventeen digits are always enough. -/
def shortest (tie : Tie) (rank : Nat) : Decimal :=
  if rank = 0 then ⟨['0'], 0⟩ else firstHit tie rank 17 (leadingExponent rank)

end Binary64

end ExprTree
