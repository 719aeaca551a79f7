/-!
# Double-precision numbers

A number is a sign and the low 63 bits of its encoding. Read as a natural number those bits are
ordered like the absolute values they stand for, so the next number up is the next magnitude.
Finite values are integers in units of `2 ^ (-1074)`, and rounding is a division of naturals.
-/

namespace FlowOpt

structure Binary64 where
  negative : Bool
  magnitude : Nat
  magnitude_lt : magnitude < 1 <<< 63
  deriving DecidableEq

/-- Ten to a power that is not negative; to a negative one it is one. -/
def tenPow (exponent : Int) : Nat := Nat.pow 10 exponent.toNat

namespace Binary64

/-- The magnitude of infinity: all exponent bits set, no fraction. -/
def infinite : Nat := 2047 <<< 52

def isNaN (x : Binary64) : Bool := infinite < x.magnitude

def isFinite (x : Binary64) : Bool := x.magnitude < infinite

def zero (negative : Bool) : Binary64 := ⟨negative, 0, by decide⟩

/-- The two zeros are equal, and a number that is not one differs from everything. -/
def equal (x y : Binary64) : Bool :=
  !x.isNaN && !y.isNaN && x.magnitude == y.magnitude &&
    (x.magnitude == 0 || x.negative == y.negative)

instance : BEq Binary64 := ⟨equal⟩

/-- The absolute value of a finite number, in units of `2 ^ (-1074)`. -/
def scaled (x : Binary64) : Nat :=
  let exponent := x.magnitude >>> 52
  let fraction := x.magnitude % (1 <<< 52)
  if exponent = 0 then fraction else (1 <<< 52 + fraction) <<< (exponent - 1)

/-- The integer nearest to `num / den`; a half goes to the even neighbour. -/
def roundDiv (num den : Nat) : Nat :=
  let quotient := num / den
  let twice := 2 * (num % den)
  if twice < den then quotient
  else if den < twice then quotient + 1
  else if quotient % 2 = 0 then quotient else quotient + 1

/-- The magnitude nearest to `num / den`. From `infinite` on, the value is out of range. -/
def nearestMagnitude (num den : Nat) : Nat :=
  let units := num <<< 1074
  let shift := (units / den).log2 - 52
  shift <<< 52 + roundDiv units (den <<< shift)

/-- A finite number of that sign and magnitude, if there is one. -/
def ofMagnitude? (negative : Bool) (magnitude : Nat) : Option Binary64 :=
  if h : magnitude < infinite then
    some ⟨negative, magnitude, Nat.lt_trans h (by decide)⟩
  else none

/-- The number nearest to `mantissa * 10 ^ exponent`, or `none` beyond the largest one. Exponents
that settle the answer alone are settled before any power is taken. -/
def ofDecimal? (negative : Bool) (mantissa : Nat) (exponent : Int) : Option Binary64 :=
  if mantissa = 0 then some (zero negative)
  else if 400 < exponent then none
  else if exponent < -((401 + mantissa.log2 : Nat) : Int) then some (zero negative)
  else
    ofMagnitude? negative
      (nearestMagnitude (mantissa * tenPow exponent) (tenPow (-exponent)))

end Binary64

end FlowOpt
