import FlowOpt.Json.Text
import FlowOpt.Json.Value

/-!
# Numerals

A numeral is scanned by its grammar alone; its value is taken where it is read. An integer of 64
bits is an integer, every other numeral the nearest double-precision number, and one that is too
large for that has no value. A minus before zero makes a negative zero.
-/

namespace FlowOpt.Json

structure Numeral where
  negative : Bool
  /-- All digits before the exponent, the point left out. -/
  digits : List Char
  exponent : Int
  /-- No point and no exponent is written. -/
  isPlain : Bool

namespace Numeral

def mantissa (n : Numeral) : Nat := Nat.ofDigitChars 10 n.digits 0

def value? (n : Numeral) : Option Json :=
  let magnitude := n.mantissa
  let signed : Int := if n.negative then -magnitude else magnitude
  let fits := Int64.minValue.toInt ≤ signed ∧ signed ≤ Int64.maxValue.toInt
  if n.isPlain ∧ ¬ (n.negative ∧ magnitude = 0) ∧ fits then some (.int signed)
  else (Binary64.ofDecimal? n.negative magnitude n.exponent).map .float

end Numeral

/-- A fault met in a numeral: a reader tells the end of the text from a wrong character, who skips
the numeral does not. -/
def missingDigit : List Char → Fault
  | [] => .unfinished
  | _ :: _ => .illFormed

/-- The sign and the digits after an exponent mark. -/
def scanExponent (cs : List Char) : Except Fault (Int × List Char) :=
  let (negative, cs) := match cs with
    | '-' :: cs => (true, cs)
    | '+' :: cs => (false, cs)
    | cs => (false, cs)
  let digits := cs.takeWhile Char.isDigit
  let rest := cs.dropWhile Char.isDigit
  if digits.isEmpty then .error (missingDigit rest)
  else
    let size : Int := (Nat.ofDigitChars 10 digits 0 : Nat)
    .ok (if negative then -size else size, rest)

/-- The digits after a point, if a point is next. -/
def scanFraction : List Char → Except Fault (List Char × List Char)
  | '.' :: cs =>
    let fraction := cs.takeWhile Char.isDigit
    let rest := cs.dropWhile Char.isDigit
    if fraction.isEmpty then .error (missingDigit rest) else .ok (fraction, rest)
  | cs => .ok ([], cs)

/-- The exponent after its mark, if a mark is next. -/
def scanMark : List Char → Except Fault (Option Int × List Char)
  | 'e' :: cs | 'E' :: cs => (scanExponent cs).map fun (exponent, rest) => (some exponent, rest)
  | cs => .ok (none, cs)

/-- The numeral after its minus sign, if it has one. -/
def scanNumeral (negative : Bool) (cs : List Char) : Except Fault (Numeral × List Char) := do
  let whole := cs.takeWhile Char.isDigit
  let rest := cs.dropWhile Char.isDigit
  if whole.isEmpty then throw (missingDigit rest)
  if 1 < whole.length ∧ whole.head? = some '0' then throw .illFormed
  let (fraction, rest) ← scanFraction rest
  let (exponent, rest) ← scanMark rest
  return (⟨negative, whole ++ fraction, exponent.getD 0 - fraction.length,
    fraction.isEmpty && exponent.isNone⟩, rest)

end FlowOpt.Json
