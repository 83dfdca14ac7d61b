import EffectMachine.Proofs.Number.Patterns
import EffectMachine.Proofs.Number.Wholes

namespace EffectMachine.Layout

/-- Rounding goes by the number of units, whatever the exponent that the number is given with. -/
theorem round_eq_nearest (negative : Bool) (m k : Nat) :
    single.round ⟨negative, m, (k : Int) - 149⟩ =
      (if negative then 2 ^ 31 else 0) + nearest (m * 2 ^ k) := by
  rw [round]
  dsimp only
  split
  next h =>
    subst h
    rw [Nat.zero_mul]
    rfl
  next h =>
    have hlog := log2_mul_two_pow h k
    have hlast : max single.leastExponent ((k : Int) - 149 + m.log2 - single.fractionBits) =
        (lostPlaces (m * 2 ^ k) : Int) - 149 := by
      change max (-149) ((k : Int) - 149 + m.log2 - (23 : Nat)) = _
      rw [lostPlaces, hlog]
      omega
    have hunits : ((lostPlaces (m * 2 ^ k) : Int) - 149 - single.leastExponent).toNat =
        lostPlaces (m * 2 ^ k) := by
      change ((lostPlaces (m * 2 ^ k) : Int) - 149 - -149).toNat = _
      omega
    rw [hlast, hunits, nearest_eq, unbounded]
    congr 3
    generalize lostPlaces (m * 2 ^ k) = p
    split
    next hp =>
      -- No place is lost: the mantissa is taken up as far as the exponent goes down.
      have hsplit : m * 2 ^ k = m * 2 ^ (k - p) * 2 ^ p := by
        rw [Nat.mul_assoc, ← Nat.pow_add]
        congr 2
        omega
      rw [hsplit, halve_exact]
      congr 2
      omega
    next hp =>
      have hk : k ≤ p := by omega
      have hkp : k + (p - k) = p := Nat.add_sub_cancel' hk
      conv_rhs => rw [← hkp, Nat.add_comm]
      rw [halve_mul]
      congr 1
      omega

end EffectMachine.Layout

namespace EffectMachine.Scalar

open Float.Model (Format UnpackedFloat)
open Float.Model.UnpackedFloat
open Layout (nearest)

variable {x y : Scalar} {m k m' k' : Nat}

theorem nearest_le (n : Nat) : nearest n ≤ 255 * 2 ^ 23 := by
  rw [Layout.nearest_eq, infinityBits_eq]
  exact Nat.min_le_left _ _

section Dyadic

variable (negative : Bool) (m k : Nat)

theorem toNat_ofDyadic : (ofDyadic ⟨negative, m, (k : Int) - 149⟩).bits.toNat =
    (if negative then 2 ^ 31 else 0) + nearest (m * 2 ^ k) := by
  have hle := nearest_le (m * 2 ^ k)
  rw [ofDyadic, Layout.round_eq_nearest, UInt32.toNat_ofNat']
  apply Nat.mod_eq_of_lt
  cases negative <;> simp only [Bool.false_eq_true, if_false, if_true] <;> omega

theorem magnitude_ofDyadic :
    (ofDyadic ⟨negative, m, (k : Int) - 149⟩).magnitude = nearest (m * 2 ^ k) := by
  have hle := nearest_le (m * 2 ^ k)
  rw [magnitude, toNat_ofDyadic]
  cases negative <;> simp only [Bool.false_eq_true, if_false, if_true] <;> omega

theorem isSignMinus_ofDyadic :
    (ofDyadic ⟨negative, m, (k : Int) - 149⟩).isSignMinus = negative := by
  have hle := nearest_le (m * 2 ^ k)
  rw [Bool.eq_iff_iff, isSignMinus_iff, toNat_ofDyadic]
  cases negative <;> simp only [Bool.false_eq_true, if_false, if_true, iff_true, iff_false] <;> omega

theorem isNumber_ofDyadic : (ofDyadic ⟨negative, m, (k : Int) - 149⟩).IsNumber := by
  apply isNumber_of_isNaN
  rw [Bool.eq_false_iff, ne_eq, isNaN_iff, magnitude_ofDyadic]
  exact Nat.not_lt.mpr (nearest_le _)

end Dyadic

/-- A mantissa of no more than 24 places fits, once it is taken up as far as it goes. -/
theorem exists_fits (hm : m < 2 ^ 24) (hk : k ≤ 253) :
    ∃ m' k', FitsFields m' k' ∧ m' * 2 ^ k' = m * 2 ^ k := by
  rcases Nat.eq_zero_or_pos m with rfl | hpos
  · exact ⟨0, 0, ⟨by decide, by decide, .inr rfl⟩, by omega⟩
  have hlog := (Nat.log2_lt (Nat.ne_of_gt hpos)).mpr hm
  have hlow := Nat.log2_self_le (Nat.ne_of_gt hpos)
  have hhigh : m < 2 ^ (m.log2 + 1) := Nat.lt_log2_self
  generalize hl : m.log2 = l at *
  have small (j : Nat) (hj : j ≤ 23 - l) : m * 2 ^ j < 2 ^ 24 := by
    calc m * 2 ^ j < 2 ^ (l + 1) * 2 ^ j := Nat.mul_lt_mul_of_pos_right hhigh (Nat.two_pow_pos j)
      _ = 2 ^ (l + 1 + j) := (Nat.pow_add ..).symm
      _ ≤ 2 ^ 24 := Nat.pow_le_pow_right (by decide) (by omega)
  have same (j : Nat) (hj : j ≤ k) : m * 2 ^ j * 2 ^ (k - j) = m * 2 ^ k := by
    rw [Nat.mul_assoc, ← Nat.pow_add, Nat.add_sub_cancel' hj]
  rcases Nat.le_total (23 - l) k with hle | hle
  · have normal : 2 ^ 23 ≤ m * 2 ^ (23 - l) := by
      calc 2 ^ 23 = 2 ^ l * 2 ^ (23 - l) := by rw [← Nat.pow_add]; congr 1; omega
        _ ≤ m * 2 ^ (23 - l) := Nat.mul_le_mul_right _ hlow
    exact ⟨_, _, ⟨small _ (Nat.le_refl _), by omega, .inl normal⟩, same _ hle⟩
  · exact ⟨_, _, ⟨small k hle, by omega, .inr (Nat.sub_self k)⟩, same k (Nat.le_refl k)⟩

/-- Such a number is not changed by rounding. -/
theorem units_ofDyadic (negative : Bool) (hm : m < 2 ^ 24) (hk : k ≤ 253) :
    IsFinite (ofDyadic ⟨negative, m, (k : Int) - 149⟩).number ∧
      units (ofDyadic ⟨negative, m, (k : Int) - 149⟩).number =
        (if negative then Sign.negative else .positive).apply (m * 2 ^ k : Nat) := by
  obtain ⟨m', k', fits, hunits⟩ := exists_fits hm hk
  have hplace := place_number (isNumber_ofDyadic negative m k)
  rw [sign, isSignMinus_ofDyadic, magnitude_ofDyadic, ← hunits, fits.nearest_eq] at hplace
  rw [← hunits]
  generalize (if negative then Sign.negative else Sign.positive) = s at hplace ⊢
  rcases Nat.eq_zero_or_pos m' with rfl | hpos
  · have hk' : k' = 0 := by
      have hnormal := fits.normal
      omega
    subst hk'
    have hzero := units_of_place (isNumber_ofDyadic negative m k) (.zero s)
      (hplace.trans (by cases s <;> rfl))
    exact ⟨hzero.1, hzero.2.trans (by cases s <;> rfl)⟩
  · have hfin : IsFinite (.finite s m' ((k' : Int) - 149) hpos) := .finite s m' _ hpos k' rfl fits
    have h := units_of_place (isNumber_ofDyadic negative m k) hfin
      (hplace.trans (place_finite rfl).symm)
    exact ⟨h.1, h.2.trans (units_finite rfl)⟩

/-- A remainder is what integer division of the units leaves. -/
theorem units_remainder (hx : x.isFinite = true) (hy : y.isFinite = true)
    (hne : units y.number ≠ 0) :
    IsFinite (x.remainder y).number ∧
      units (x.remainder y).number = (units x.number).tmod (units y.number) := by
  obtain ⟨m, k, fx⟩ := exists_fields hx
  obtain ⟨m', k', fy⟩ := exists_fields hy
  rw [fx.units_number, fy.units_number] at *
  have hm' : m' ≠ 0 := by
    rintro rfl
    rw [Nat.zero_mul] at hne
    exact hne (by cases y.sign <;> rfl)
  obtain ⟨e, hek, hek', he⟩ : ∃ e, e ≤ k ∧ e ≤ k' ∧ (e = k ∨ e = k') := by
    rcases Nat.le_total k k' with h | h
    · exact ⟨k, Nat.le_refl k, h, .inl rfl⟩
    · exact ⟨k', h, Nat.le_refl k', .inr rfl⟩
  have hmin : (if (k : Int) - 149 ≤ (k' : Int) - 149 then (k : Int) - 149 else (k' : Int) - 149) =
      (e : Int) - 149 := by
    split <;> omega
  have hrem : x.remainder y = ofDyadic ⟨x.isSignMinus, (m * 2 ^ (k - e)) % (m' * 2 ^ (k' - e)),
      (e : Int) - 149⟩ := by
    rw [remainder, fx.reading, fy.reading]
    dsimp only
    rw [if_neg hm', hmin, show ((k : Int) - 149 - ((e : Int) - 149)).toNat = k - e by omega,
      show ((k' : Int) - 149 - ((e : Int) - 149)).toNat = k' - e by omega]
    rfl
  -- One of both operands has its mantissa unchanged, and the rest is no larger.
  have small : (m * 2 ^ (k - e)) % (m' * 2 ^ (k' - e)) < 2 ^ 24 := by
    rcases he with rfl | rfl
    · rw [Nat.sub_self, Nat.pow_zero, Nat.mul_one]
      exact Nat.lt_of_le_of_lt (Nat.mod_le ..) fx.fits.mantissa
    · rw [Nat.sub_self, Nat.pow_zero, Nat.mul_one]
      exact Nat.lt_trans (Nat.mod_lt _ (Nat.pos_of_ne_zero hm')) fy.fits.mantissa
  have hle : e ≤ 253 := Nat.le_trans hek fx.fits.exponent
  obtain ⟨hfin, hunits⟩ := units_ofDyadic x.isSignMinus small hle
  rw [hrem]
  refine ⟨hfin, ?_⟩
  have up (n j : Nat) (hj : e ≤ j) : n * 2 ^ (j - e) * 2 ^ e = n * 2 ^ j := by
    rw [Nat.mul_assoc, ← Nat.pow_add, Nat.sub_add_cancel hj]
  rw [hunits, ← Nat.mul_mod_mul_right, up m k hek, up m' k' hek', sign]
  generalize m * 2 ^ k = a
  generalize m' * 2 ^ k' = b
  cases x.isSignMinus <;> cases y.sign <;> simp [Int.tmod_eq_emod_of_nonneg]

theorem magnitude_abs (x : Scalar) : x.abs.magnitude = x.magnitude := by
  have hbits : x.abs.bits.toNat = x.magnitude := toNat_and_mask x
  rw [magnitude, hbits, magnitude, Nat.mod_mod]

theorem isSignMinus_abs (x : Scalar) : x.abs.isSignMinus = false := by
  have hbits : x.abs.bits.toNat = x.magnitude := toNat_and_mask x
  have hlt : x.magnitude < 2 ^ 31 := Nat.mod_lt _ (Nat.two_pow_pos 31)
  rw [Bool.eq_false_iff, ne_eq, isSignMinus_iff, hbits]
  omega

/-- A scalar above zero is its own absolute value. -/
theorem units_abs (h : x.isFinite = true) (hpos : 0 < units x.number) :
    IsFinite x.abs.number ∧ units x.abs.number = units x.number := by
  have hx := isFinite_number h
  have hnum : x.abs.IsNumber := by
    apply isNumber_of_isNaN
    rw [isFinite_iff] at h
    rw [Bool.eq_false_iff, ne_eq, isNaN_iff, magnitude_abs]
    omega
  refine units_of_place hnum hx ?_
  have hplace := place_number hx.ne_nan
  rw [place_number hnum, magnitude_abs, sign, isSignMinus_abs]
  cases hs : x.isSignMinus with
  | false => rw [hplace, sign, hs]
  | true =>
    -- What has the sign bit is not above zero.
    rw [sign, hs, if_pos rfl, negative_apply] at hplace
    have hzero := (place_le_iff hx (.zero .positive)).mp (by rw [hplace, place_zero]; omega)
    rw [units_zero] at hzero
    omega

/-- It is rounded to the nearest scalar, and that may be the modulus itself. -/
theorem place_modulo (hx : x.isFinite = true) (hy : y.isFinite = true)
    (hpos : 0 < units y.number) :
    (x.modulo y).IsNumber ∧
      place (x.modulo y).number = nearestPlace (units x.number % units y.number) := by
  obtain ⟨hfin, hunits⟩ := units_remainder hx hy (Int.ne_of_gt hpos)
  obtain ⟨habs, habs'⟩ := units_abs hy hpos
  have hmod := Int.emod_nonneg (units x.number) (Int.ne_of_gt hpos)
  have htop := Int.emod_lt_of_pos (units x.number) hpos
  have htmod := Int.tmod_eq_emod (a := units x.number) (b := units y.number)
  have hneg : x.remainder y < 0 ↔ (units x.number).tmod (units y.number) < 0 := by
    rw [lt_iff_place hfin.ne_nan isFinite_zero.ne_nan, ← Int.not_le,
      place_le_iff isFinite_zero hfin, hunits]
    exact Int.not_le
  rw [modulo]
  split
  next h =>
    rw [hneg] at h
    refine ⟨isNumber_add.mpr (add_ne_nan hfin habs), ?_⟩
    rw [number_add, place_add hfin habs, hunits, habs']
    congr 1
    split at htmod <;> omega
  next h =>
    rw [hneg] at h
    refine ⟨hfin.ne_nan, ?_⟩
    rw [← nearestPlace_units hfin, hunits]
    congr 1
    split at htmod <;> omega

/-- Nothing is rounded where nothing is below zero. -/
theorem units_modulo (hx : x.isFinite = true) (hy : y.isFinite = true)
    (hpos : 0 < units y.number) (h : 0 ≤ units x.number) :
    units (x.modulo y).number = units x.number % units y.number := by
  obtain ⟨hfin, hunits⟩ := units_remainder hx hy (Int.ne_of_gt hpos)
  rw [Int.tmod_eq_emod_of_nonneg h] at hunits
  have hneg : ¬x.remainder y < 0 := by
    rw [← not_le_iff isFinite_zero.ne_nan hfin.ne_nan, Classical.not_not,
      le_iff_place isFinite_zero.ne_nan hfin.ne_nan, place_le_iff isFinite_zero hfin, hunits]
    exact Int.emod_nonneg _ (Int.ne_of_gt hpos)
  rw [modulo, if_neg hneg, hunits]

/-- A modulus leaves a finite number between zero and itself. -/
theorem modulo_finite (hx : x.isFinite = true) (hy : y.isFinite = true)
    (hpos : 0 < units y.number) : IsFinite (x.modulo y).number ∧ 0 ≤ x.modulo y ∧ x.modulo y ≤ y := by
  obtain ⟨hnum, hplace⟩ := place_modulo hx hy hpos
  have hfin := isFinite_number hy
  have hlow : 0 ≤ place (x.modulo y).number := by
    rw [hplace]
    exact nearestPlace_mono (Int.emod_nonneg _ (Int.ne_of_gt hpos))
  have hhigh : place (x.modulo y).number ≤ place y.number := by
    rw [hplace, ← nearestPlace_units hfin]
    exact nearestPlace_mono (Int.le_of_lt (Int.emod_lt_of_pos _ hpos))
  have bounds := abs_place_lt hfin
  refine ⟨(x.modulo y).isCanonical_number.finite_of_lt hnum (by omega) (by omega), ?_, ?_⟩
  · exact (le_iff_place isFinite_zero.ne_nan hnum).mpr hlow
  · exact (le_iff_place hnum hfin.ne_nan).mpr hhigh

end EffectMachine.Scalar
