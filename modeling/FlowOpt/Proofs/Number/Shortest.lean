import FlowOpt.Proofs.Number.Rounding

/-!
# The fewest digits read back

Wherever the search for the fewest digits ends, its decimal rounds to the number it was made for.
The value of a decimal stays the same when zeros go from its digits to its exponent.
-/

namespace FlowOpt.Decimal

theorem tenPow_shift (e : Int) (k : Nat) :
    10 ^ k * tenPow (e - k) * tenPow (-e) = tenPow e * tenPow (-(e - k)) := by
  simp only [tenPow, Nat.pow_eq, ← Nat.pow_add]
  congr 1
  omega

/-- Zeros moved from the exponent to the digits leave the value. -/
theorem nearestMagnitude_shift (d : Decimal) (k : Nat) :
    (⟨d.mantissa * 10 ^ k, d.exponent - k⟩ : Decimal).nearestMagnitude = d.nearestMagnitude := by
  apply Binary64.nearestMagnitude_eq_of_mul_eq (tenPow_pos _) (tenPow_pos _)
  simp only [Nat.mul_assoc]
  rw [← Nat.mul_assoc (10 ^ k), tenPow_shift]

theorem ofDecimal?_of_nearestMagnitude {d : Decimal} {x : Binary64} (hx : x.isFinite)
    (h : d.nearestMagnitude = x.magnitude) :
    Binary64.ofDecimal? x.negative d.mantissa d.exponent = some x := by
  have hlt : x.magnitude < Binary64.infinite := of_decide_eq_true hx
  rw [Binary64.ofDecimal?_eq, ← Decimal.nearestMagnitude, h, Binary64.ofMagnitude?, dif_pos hlt]

theorem nearestMagnitude_trim (fuel : Nat) (d : Decimal) :
    (trim fuel d).nearestMagnitude = d.nearestMagnitude := by
  induction fuel generalizing d with
  | zero => rfl
  | succ fuel ih =>
    unfold trim
    split
    case isTrue h =>
      have hdigits : d.mantissa / 10 * 10 ^ 1 = d.mantissa := Nat.div_mul_cancel
        (Nat.dvd_of_mod_eq_zero h.1)
      have hshift := nearestMagnitude_shift ⟨d.mantissa / 10, d.exponent + 1⟩ 1
      rw [hdigits, Int.natCast_one, Int.add_sub_cancel] at hshift
      rw [ih, ← hshift]
    case isFalse => rfl

theorem nearestMagnitude_of_onGrid? {tie : Tie} {magnitude units : Nat} {e : Int} {d : Decimal}
    (h : onGrid? tie magnitude units e = some d) : d.nearestMagnitude = magnitude := by
  unfold onGrid? at h
  extract_lets num den low high twice nearer farther at h
  split at h
  case isTrue hit => exact Option.some.inj h ▸ hit
  split at h
  case isTrue hit => exact Option.some.inj h ▸ hit
  case isFalse => cases h

theorem nearestMagnitude_five_pow (units k : Nat) :
    (⟨units * Nat.pow 5 k, -(k : Int)⟩ : Decimal).nearestMagnitude =
      Binary64.nearestMagnitude units (1 <<< k) := by
  have hpow : Nat.pow 5 k * 1 <<< k = tenPow k := by
    rw [Nat.shiftLeft_eq, Nat.one_mul, Nat.pow_eq, ← Nat.mul_pow]
    rfl
  apply Binary64.nearestMagnitude_eq_of_mul_eq (tenPow_pos _)
    (Nat.shiftLeft_eq 1 k ▸ Nat.mul_pos Nat.one_pos (Nat.two_pow_pos k))
  rw [tenPow_of_nonpos (Int.neg_nonpos_of_nonneg (Int.natCast_nonneg k)), Nat.mul_one,
    Nat.mul_assoc, hpow, Int.neg_neg]

/-- All digits of a number are those of its value. -/
theorem nearestMagnitude_exact (units : Nat) :
    (exact units).nearestMagnitude = Binary64.nearestMagnitude units (1 <<< 1074) := by
  have hcast : (-1074 : Int) = -((1074 : Nat) : Int) := rfl
  rw [exact, hcast]
  generalize 1074 = k
  exact nearestMagnitude_five_pow units k

theorem nearestMagnitude_shortest (tie : Tie) (x : Binary64) :
    (shortest tie x).nearestMagnitude = x.magnitude := by
  unfold shortest
  split
  case isTrue h =>
    rw [nearestMagnitude, Nat.zero_mul, Binary64.nearestMagnitude_zero, h]
  case isFalse =>
    rw [nearestMagnitude_trim]
    cases hfound : (List.range 17).findSome? fun (k : Nat) =>
        onGrid? tie x.magnitude x.scaled (leading x.scaled - k) with
    | none => exact (nearestMagnitude_exact _).trans x.nearestMagnitude_scaled
    | some d =>
      obtain ⟨k, -, hk⟩ := List.exists_of_findSome?_eq_some hfound
      exact nearestMagnitude_of_onGrid? hk

theorem shortest_exponent_of_mantissa {tie : Tie} {x : Binary64}
    (h : (shortest tie x).mantissa = 0) : (shortest tie x).exponent = 0 := by
  have hzero : x.magnitude = 0 := by
    rw [← nearestMagnitude_shortest tie x, nearestMagnitude, h, Nat.zero_mul,
      Binary64.nearestMagnitude_zero]
  rw [shortest, if_pos hzero]

end FlowOpt.Decimal
