import FlowOpt.Number.Shortest

/-!
# The text of a number

A layout says where the plain notation ends and how many decimals it has at least. Beyond its ends
the scientific notation has one digit before the point, if any follow, and a signed exponent.
-/

namespace FlowOpt

structure Layout where
  tie : Tie
  /-- The least and the greatest exponent of a leading digit that is written plainly. -/
  plain : Option (Int × Int)
  decimals : Nat

namespace Layout

def isPlain (l : Layout) (leading : Int) : Bool :=
  match l.plain with
  | none => true
  | some (low, high) => low ≤ leading && leading ≤ high

/-- The digits of `d` with the point in its place and at least `decimals` digits after it. -/
def plainDigits (decimals : Nat) (d : Decimal) : List Char :=
  let digits := Nat.toDigits 10 d.mantissa ++ List.replicate d.exponent.toNat '0'
  let places := (-d.exponent).toNat
  let padded := List.replicate (places + 1 - digits.length) '0' ++ digits
  let whole := padded.take (padded.length - places)
  let fraction := padded.drop (padded.length - places)
  let fraction := fraction ++ List.replicate (decimals - fraction.length) '0'
  if fraction.isEmpty then whole else whole ++ '.' :: fraction

def signedExponent (e : Int) : List Char :=
  (if e < 0 then '-' else '+') :: Nat.toDigits 10 e.natAbs

/-- One digit, the others after a point, and the exponent of the first. -/
def scientificDigits (d : Decimal) (leading : Int) : List Char :=
  let mantissa := match Nat.toDigits 10 d.mantissa with
    | first :: second :: rest => first :: '.' :: second :: rest
    | digits => digits
  mantissa ++ 'e' :: signedExponent leading

/-- The text of a finite number; the sign is written for a negative zero too. -/
def render (l : Layout) (x : Binary64) : List Char :=
  let d := Decimal.shortest l.tie x
  let leading := d.exponent + ((Nat.toDigits 10 d.mantissa).length : Int) - 1
  let digits :=
    if d.mantissa = 0 || l.isPlain leading then plainDigits l.decimals d
    else scientificDigits d leading
  if x.negative then '-' :: digits else digits

end Layout

end FlowOpt
