import FlowOpt.Number.Binary64

/-!
# The fewest digits that read back

For each count of digits the two decimals next to the value are tried, so the first count with a
decimal that rounds to the number is the least one. Of two such decimals the nearer is taken; the
caller says which one at equal distance.
-/

namespace FlowOpt

/-- The value `mantissa * 10 ^ exponent`. -/
structure Decimal where
  mantissa : Nat
  exponent : Int
  deriving DecidableEq, Repr

/-- What is taken of two decimals at equal distance. -/
inductive Tie
  | even
  | up
  deriving DecidableEq, Repr

namespace Decimal

def digitCount (n : Nat) : Nat := (Nat.toDigits 10 n).length

/-- The magnitude of the double-precision number nearest to the decimal. -/
def nearestMagnitude (d : Decimal) : Nat :=
  Binary64.nearestMagnitude (d.mantissa * tenPow d.exponent) (tenPow (-d.exponent))

/-- Trailing zeros moved to the exponent, at most `fuel` of them. -/
def trim : Nat → Decimal → Decimal
  | 0, d => d
  | fuel + 1, d =>
    if d.mantissa % 10 = 0 ∧ d.mantissa ≠ 0 then trim fuel ⟨d.mantissa / 10, d.exponent + 1⟩
    else d

/-- The exponent of the leading digit of `units * 2 ^ (-1074)`, for `units` above zero. -/
def leading (units : Nat) : Int :=
  let one := 1 <<< 1074
  if one ≤ units then (digitCount (units / one) : Int) - 1
  else -(digitCount ((one - 1) / units) : Int)

/-- Of the two multiples of `10 ^ exponent` around `units * 2 ^ (-1074)` one that reads back as
`magnitude`, the nearer if both do. -/
def onGrid? (tie : Tie) (magnitude units : Nat) (exponent : Int) : Option Decimal :=
  let num := units * tenPow (-exponent)
  let den := tenPow exponent <<< 1074
  let low : Decimal := ⟨num / den, exponent⟩
  let high : Decimal := ⟨num / den + 1, exponent⟩
  let twice := 2 * (num % den)
  let nearer :=
    if twice < den then low
    else if den < twice then high
    else match tie with
      | .even => if low.mantissa % 2 = 0 then low else high
      | .up => high
  let farther := if nearer = low then high else low
  if nearer.nearestMagnitude = magnitude then some nearer
  else if farther.nearestMagnitude = magnitude then some farther
  else none

/-- All digits of `units * 2 ^ (-1074)`. -/
def exact (units : Nat) : Decimal := ⟨units * Nat.pow 5 1074, -1074⟩

/-- The decimal of fewest digits that reads back as the finite number `x`. -/
def shortest (tie : Tie) (x : Binary64) : Decimal :=
  if x.magnitude = 0 then ⟨0, 0⟩
  else
    let units := x.scaled
    let found := (List.range 17).findSome? fun (k : Nat) =>
      onGrid? tie x.magnitude units (leading units - k)
    let d := found.getD (exact units)
    trim d.mantissa.log2 d

end Decimal

end FlowOpt
