import EffectMachine.Proofs.Number.Quotients
import EffectMachine.Proofs.Number.Remainders
import Mathlib.Data.Rat.Floor
import Mathlib.Tactic.Positivity
import Mathlib.Tactic.FieldSimp

namespace EffectMachine

/-- What is left of `x` after taking away `y` a whole number of times, down to the largest one that
is not above it. -/
def exactModulo (x y : ℚ) : ℚ := Int.fract (x / y) * y

namespace Scalar

open Float.Model (Format UnpackedFloat)
open Float.Model.UnpackedFloat

variable {x y : Scalar} {a : Int}

def toRat (x : Scalar) : ℚ := units x.number / 2 ^ 149

theorem two_pow_pos : (0 : ℚ) < 2 ^ 149 := by positivity

theorem abs_toRat (x : Scalar) : |x.toRat| = (units x.number).natAbs / 2 ^ 149 := by
  rw [toRat, abs_div, abs_of_pos two_pow_pos, Nat.cast_natAbs, Int.cast_abs]

theorem toRat_le_iff (hx : IsFinite x.number) (hy : IsFinite y.number) :
    x ≤ y ↔ x.toRat ≤ y.toRat := by
  rw [le_iff_place hx.ne_nan hy.ne_nan, place_le_iff hx hy, toRat, toRat,
    div_le_div_iff_of_pos_right two_pow_pos, Int.cast_le]

theorem toRat_lt_iff (hx : IsFinite x.number) (hy : IsFinite y.number) :
    x < y ↔ x.toRat < y.toRat := by
  rw [← not_le_iff hy.ne_nan hx.ne_nan, toRat_le_iff hy hx, not_le]

theorem toRat_zero : (0 : Scalar).toRat = 0 := by
  have h : units (0 : Scalar).number = 0 := rfl
  rw [toRat, h]
  simp

theorem IsWhole.toRat (h : x.IsWhole a) : x.toRat = a := by
  rw [Scalar.toRat, h.units, Int.cast_mul, Int.cast_pow, Int.cast_ofNat,
    mul_div_cancel_right₀ _ two_pow_pos.ne']

theorem isWhole_iff (hx : IsFinite x.number) : x.IsWhole a ↔ x.toRat = a := by
  refine ⟨IsWhole.toRat, fun h => ⟨hx, ?_⟩⟩
  rw [Scalar.toRat, div_eq_iff two_pow_pos.ne'] at h
  exact_mod_cast h

/-- What is between zero and a finite number is finite. -/
theorem isFinite_of_le (hx : 0 ≤ x) (hxy : x ≤ y) (hy : IsFinite y.number) : IsFinite x.number := by
  obtain ⟨hzero, hnum⟩ := isNumber_of_le hx
  have bounds := abs_place_lt hy
  rw [le_iff_place hzero hnum] at hx
  rw [le_iff_place hnum hy.ne_nan] at hxy
  change 0 ≤ _ at hx
  exact x.isCanonical_number.finite_of_lt hnum (by omega) (by omega)

/-- The largest finite number. -/
theorem abs_toRat_le (hx : IsFinite x.number) : |x.toRat| ≤ 2 ^ 128 - 2 ^ 104 := by
  have hu : (units x.number).natAbs ≤ (2 ^ 24 - 1) * 2 ^ 253 := by
    generalize x.number = u at hx
    cases hx with
    | zero s => exact Nat.zero_le _
    | finite s m e hm k he fits =>
      have hmant := fits.mantissa
      rw [units_finite he, natAbs_apply]
      exact Nat.mul_le_mul (by omega) (Nat.pow_le_pow_right (by decide) fits.exponent)
  rw [abs_toRat, div_le_iff₀ two_pow_pos]
  calc ((units x.number).natAbs : ℚ) ≤ ((2 ^ 24 - 1) * 2 ^ 253 : Nat) := Nat.cast_le.mpr hu
    _ = (2 ^ 128 - 2 ^ 104) * 2 ^ 149 := by norm_num

/-- The exact remainder is that of the units. -/
theorem units_emod (hpos : 0 < units y.number) :
    ((units x.number % units y.number : Int) : ℚ) / 2 ^ 149 = exactModulo x.toRat y.toRat := by
  rw [exactModulo, toRat, toRat, div_div_div_cancel_right₀ two_pow_pos.ne']
  obtain ⟨n, hn⟩ := Int.eq_ofNat_of_zero_le (Int.le_of_lt hpos)
  rw [hn] at hpos ⊢
  have hne : (n : ℚ) ≠ 0 := by
    norm_cast
    omega
  rw [Int.cast_natCast, Int.fract_div_intCast_eq_div_intCast_mod, ← mul_div_assoc,
    div_mul_cancel₀ _ hne]

/-- A remainder is exact up to its rounding: the order is kept. -/
theorem modulo_lt_iff (hx : x.isFinite = true) (hy : y.isFinite = true)
    (hpos : 0 < units y.number) {z : Scalar} (hz : IsFinite z.number) {n : Int}
    (hn : ∀ m : Int, nearestPlace m < place z.number ↔ m < n) :
    x.modulo y < z ↔ exactModulo x.toRat y.toRat < n / 2 ^ 149 := by
  obtain ⟨hnum, hplace⟩ := place_modulo hx hy hpos
  rw [lt_iff_place hnum hz.ne_nan, hplace, hn, ← units_emod hpos,
    div_lt_div_iff_of_pos_right two_pow_pos, Int.cast_lt]

section Overflow

open Layout (nearest)

def overflow : ℚ := 2 ^ 128 - 2 ^ 103

theorem tooMany_eq : (tooMany : ℚ) = overflow * 2 ^ 149 := by
  rw [overflow, tooMany]
  norm_num

/-- What is rounded from a number that is not too large is finite. -/
theorem isFinite_of_nearestPlace {n : Int} (hx : x.IsNumber)
    (hp : place x.number = nearestPlace n) (h : |(n : ℚ) / 2 ^ 149| < overflow) :
    IsFinite x.number := by
  have hn : n.natAbs < tooMany := by
    rw [abs_div, abs_of_pos two_pow_pos, div_lt_iff₀ two_pow_pos, ← tooMany_eq, ← Int.cast_abs,
      ← Nat.cast_natAbs] at h
    exact Nat.cast_lt.mp h
  rw [← nearest_lt_iff] at hn
  rw [nearestPlace] at hp
  refine x.isCanonical_number.finite_of_lt hx ?_ ?_ <;> rw [hp, infinityBits_eq] <;>
    split <;> omega

theorem isFinite_add (hx : IsFinite x.number) (hy : IsFinite y.number)
    (h : |x.toRat + y.toRat| < overflow) : IsFinite (x + y).number := by
  rw [toRat, toRat, ← add_div, ← Int.cast_add] at h
  exact isFinite_of_nearestPlace (isNumber_add.mpr (add_ne_nan hx hy))
    ((congrArg place (number_add x y)).trans (place_add hx hy)) h

theorem isFinite_sub (hx : IsFinite x.number) (hy : IsFinite y.number)
    (h : |x.toRat - y.toRat| < overflow) : IsFinite (x - y).number := by
  rw [toRat, toRat, ← sub_div, ← Int.cast_sub] at h
  have hn : sub .binary32 x.number y.number ≠ .notANumber := by
    rw [sub_eq_add_neg]
    exact add_ne_nan hx hy.neg
  exact isFinite_of_nearestPlace (isNumber_sub.mpr hn)
    ((congrArg place (number_sub x y)).trans (place_sub hx hy)) h

/-- A quotient is finite as long as the exact one is not too large. -/
theorem isFinite_div_iff (hx : IsFinite x.number) (hy : IsFinite y.number) (hne : y.toRat ≠ 0) :
    IsFinite (x / y).number ↔ |x.toRat / y.toRat| < overflow := by
  have hu : units y.number ≠ 0 := by
    intro h
    rw [toRat, h] at hne
    simp at hne
  have hcast (a b : Nat) : (a * 2 ^ 149 < tooMany * b) ↔ (a : ℚ) < overflow * b := by
    have h : ((a * 2 ^ 149 : Nat) : ℚ) < ((tooMany * b : Nat) : ℚ) ↔ a * 2 ^ 149 < tooMany * b :=
      Nat.cast_lt
    rw [← h, Nat.cast_mul, Nat.cast_mul, Nat.cast_pow, Nat.cast_ofNat, tooMany_eq, mul_right_comm,
      mul_lt_mul_iff_of_pos_right two_pow_pos]
  rw [isFinite_div hx hy hu, hcast, abs_div, div_lt_iff₀ (abs_pos.mpr hne), abs_toRat, abs_toRat,
    ← mul_div_assoc, div_lt_div_iff_of_pos_right two_pow_pos]

end Overflow

end Scalar
end EffectMachine
