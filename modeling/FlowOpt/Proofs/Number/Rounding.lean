import FlowOpt.Number.Shortest
import Mathlib.Algebra.Group.Nat.Defs

/-!
# Rounding reads back what it wrote

A quotient rounds by its value alone, whatever fraction it is given as. The value of a finite number
rounds to the number itself, so whatever has that value reads back as it. The exponents that settle
a reading alone settle it as the rounding would.
-/

namespace FlowOpt

@[simp] theorem tenPow_pos (e : Int) : 0 < tenPow e := Nat.pow_pos (by decide)

theorem tenPow_of_nonpos {e : Int} (h : e ≤ 0) : tenPow e = 1 := by
  simp [tenPow, Int.toNat_of_nonpos h]

namespace Binary64

theorem roundDiv_scale (num den : Nat) {k : Nat} (hk : 0 < k) :
    roundDiv (num * k) (den * k) = roundDiv num den := by
  have hr : num * k % (den * k) = num % den * k := Nat.mul_mod_mul_right k num den
  have below : 2 * (num % den * k) < den * k ↔ 2 * (num % den) < den := by
    rw [← Nat.mul_assoc]
    exact Nat.mul_lt_mul_right hk
  have above : den * k < 2 * (num % den * k) ↔ den < 2 * (num % den) := by
    rw [← Nat.mul_assoc]
    exact Nat.mul_lt_mul_right hk
  simp only [roundDiv, Nat.mul_div_mul_right _ _ hk, hr, below, above]

theorem roundDiv_mul (q : Nat) {den : Nat} (hden : 0 < den) : roundDiv (q * den) den = q := by
  simp [roundDiv, Nat.mul_div_cancel _ hden, hden]

theorem nearestMagnitude_scale (num den : Nat) {k : Nat} (hk : 0 < k) :
    nearestMagnitude (num * k) (den * k) = nearestMagnitude num den := by
  have hs (n shift : Nat) : (n * k) <<< shift = n <<< shift * k := by
    simp only [Nat.shiftLeft_eq, Nat.mul_right_comm]
  simp only [nearestMagnitude, hs, Nat.mul_div_mul_right _ _ hk, roundDiv_scale _ _ hk]

theorem nearestMagnitude_eq_of_mul_eq {num den num' den' : Nat} (hd : 0 < den) (hd' : 0 < den')
    (h : num * den' = num' * den) : nearestMagnitude num den = nearestMagnitude num' den' :=
  calc nearestMagnitude num den
    _ = nearestMagnitude (num * den') (den * den') := (nearestMagnitude_scale _ _ hd').symm
    _ = nearestMagnitude (num' * den) (den' * den) := by rw [h, Nat.mul_comm den]
    _ = nearestMagnitude num' den' := nearestMagnitude_scale _ _ hd

@[simp] theorem nearestMagnitude_zero (den : Nat) : nearestMagnitude 0 den = 0 := by
  simp [nearestMagnitude, roundDiv]

/-- In units the division by `2 ^ 1074` leaves the grid of a number's own exponent. -/
theorem nearestMagnitude_units (units : Nat) :
    nearestMagnitude units (1 <<< 1074) =
      (units.log2 - 52) <<< 52 + roundDiv units (1 <<< (units.log2 - 52)) := by
  have hpos : 0 < 1 <<< 1074 := by decide
  have hu : units <<< 1074 = units * 1 <<< 1074 := by simp only [Nat.shiftLeft_eq, Nat.one_mul]
  have hs (shift : Nat) : (1 <<< 1074) <<< shift = 1 <<< shift * 1 <<< 1074 := by
    simp only [Nat.shiftLeft_eq, Nat.one_mul, Nat.mul_comm]
  simp only [nearestMagnitude, hu, hs, Nat.mul_div_cancel _ hpos, roundDiv_scale _ _ hpos]

theorem log2_eq_of_le_of_lt {n k : Nat} (low : 2 ^ k ≤ n) (high : n < 2 ^ (k + 1)) :
    n.log2 = k := by
  have hn : n ≠ 0 := Nat.ne_of_gt (Nat.lt_of_lt_of_le (Nat.two_pow_pos k) low)
  exact (Nat.log2_eq_iff hn).mpr ⟨low, high⟩

/-- A number is its own rounding. -/
theorem nearestMagnitude_scaled (x : Binary64) :
    nearestMagnitude x.scaled (1 <<< 1074) = x.magnitude := by
  have hsplit : (x.magnitude >>> 52) * 2 ^ 52 + x.magnitude % 2 ^ 52 = x.magnitude := by
    rw [Nat.shiftRight_eq_div_pow]
    exact Nat.div_add_mod' _ _
  have hfraction : x.magnitude % 2 ^ 52 < 2 ^ 52 := Nat.mod_lt _ (by decide)
  rw [nearestMagnitude_units]
  simp only [scaled, Nat.shiftLeft_eq, Nat.one_mul]
  generalize x.magnitude % 2 ^ 52 = fraction at *
  cases hexponent : x.magnitude >>> 52 with
  | zero =>
    have hshift : fraction.log2 - 52 = 0 := by
      by_cases h : fraction = 0
      · simp [h]
      · have := (Nat.log2_lt h).mpr hfraction
        omega
    have hround := roundDiv_mul fraction Nat.one_pos
    rw [Nat.mul_one] at hround
    rw [hexponent] at hsplit
    simp only [if_pos, hshift, Nat.pow_zero, hround]
    omega
  | succ shift =>
    have hlog : ((2 ^ 52 + fraction) * 2 ^ shift).log2 = 52 + shift := by
      apply log2_eq_of_le_of_lt
      · rw [Nat.pow_add]
        exact Nat.mul_le_mul_right _ (Nat.le_add_right _ _)
      · rw [Nat.add_right_comm, Nat.pow_add]
        exact Nat.mul_lt_mul_of_pos_right (by omega) (Nat.two_pow_pos shift)
    have hround := roundDiv_mul (2 ^ 52 + fraction) (Nat.two_pow_pos shift)
    rw [hexponent] at hsplit
    simp only [Nat.add_one_ne_zero, if_false, Nat.add_sub_cancel, hlog, Nat.add_sub_cancel_left,
      hround]
    rw [← hsplit, Nat.succ_mul, Nat.add_assoc]

theorem nearestMagnitude_eq_zero {num den e d : Nat} (hnum : num < 2 ^ e) (hden : 2 ^ d ≤ den)
    (hd : e + 1075 ≤ d) : nearestMagnitude num den = 0 := by
  have hunits : num <<< 1074 < 2 ^ (e + 1074) := by
    rw [Nat.shiftLeft_eq, Nat.pow_add]
    exact Nat.mul_lt_mul_of_pos_right hnum (Nat.two_pow_pos 1074)
  have hdouble : 2 * 2 ^ (e + 1074) ≤ den :=
    calc 2 * 2 ^ (e + 1074)
      _ = 2 ^ (e + 1074 + 1) := Nat.pow_succ'.symm
      _ ≤ 2 ^ d := Nat.pow_le_pow_right (by decide) hd
      _ ≤ den := hden
  have htwice : 2 * num <<< 1074 < den :=
    Nat.lt_of_lt_of_le ((Nat.mul_lt_mul_left (by decide)).mpr hunits) hdouble
  have hlt : num <<< 1074 < den :=
    Nat.lt_of_le_of_lt (Nat.le_mul_of_pos_left _ (by decide)) htwice
  have hshift : Nat.log2 0 - 52 = 0 := by decide
  rw [nearestMagnitude, Nat.div_eq_of_lt hlt, hshift, Nat.zero_shiftLeft, Nat.shiftLeft_zero,
    roundDiv, Nat.mod_eq_of_lt hlt, if_pos htwice, Nat.div_eq_of_lt hlt]

theorem infinite_le_nearestMagnitude {num e : Nat} (h : 2 ^ e ≤ num) (he : 1025 ≤ e) :
    infinite ≤ nearestMagnitude num 1 := by
  have hlog : e + 1074 ≤ (num <<< 1074).log2 := by
    have hunits : 2 ^ (e + 1074) ≤ num <<< 1074 := by
      rw [Nat.shiftLeft_eq, Nat.pow_add]
      exact Nat.mul_le_mul_right _ h
    exact (Nat.le_log2 (Nat.ne_of_gt (Nat.lt_of_lt_of_le (Nat.two_pow_pos _) hunits))).mpr hunits
  have hshift : 2047 ≤ (num <<< 1074).log2 - 52 := by omega
  rw [nearestMagnitude, Nat.div_one, infinite, Nat.shiftLeft_eq, Nat.shiftLeft_eq]
  exact Nat.le_add_right_of_le (Nat.mul_le_mul_right _ hshift)

theorem two_pow_le_ten_pow (e : Nat) : 2 ^ (3 * e) ≤ 10 ^ e := by
  rw [Nat.pow_mul]
  exact Nat.pow_le_pow_left (by decide) e

/-- The exponents that are settled first are settled as the rounding would. -/
theorem ofDecimal?_eq (negative : Bool) (mantissa : Nat) (exponent : Int) :
    ofDecimal? negative mantissa exponent = ofMagnitude? negative
      (nearestMagnitude (mantissa * tenPow exponent) (tenPow (-exponent))) := by
  have hzero : ofMagnitude? negative 0 = some (zero negative) := rfl
  unfold ofDecimal?
  split
  case isTrue hm => rw [hm, Nat.zero_mul, nearestMagnitude_zero, hzero]
  split
  case isTrue hbig =>
    have hden : tenPow (-exponent) = 1 := tenPow_of_nonpos (by omega)
    have hnum : 2 ^ (3 * exponent.toNat) ≤ mantissa * tenPow exponent :=
      Nat.le_trans (two_pow_le_ten_pow _) (Nat.le_mul_of_pos_left _ (Nat.pos_of_ne_zero ‹_›))
    have hinfinite := infinite_le_nearestMagnitude hnum (by omega)
    rw [hden, ofMagnitude?, dif_neg (Nat.not_lt.mpr hinfinite)]
  split
  case isTrue hsmall =>
    have hnum : tenPow exponent = 1 := tenPow_of_nonpos (by omega)
    have hzeroed : nearestMagnitude mantissa (10 ^ (-exponent).toNat) = 0 :=
      nearestMagnitude_eq_zero Nat.lt_log2_self (two_pow_le_ten_pow _) (by omega)
    rw [hnum, Nat.mul_one, tenPow, Nat.pow_eq, hzeroed, hzero]
  case isFalse => rfl

end Binary64

end FlowOpt
