import EffectMachine.Proofs.Number.Sums
import Mathlib.Tactic.Ring

namespace EffectMachine.Scalar

open Float.Model (Format UnpackedFloat)
open Float.Model.UnpackedFloat
open Layout (lostPlaces nearest unbounded)

section Quarters

variable {q n d : Nat} {acc : Accuracy} {s : Sign} {t : Int}

/-- Quarters of a place that stand for what is left below it: for the rounding only how that
compares with a half counts. -/
def quarters : Accuracy → Nat
  | .exact => 0
  | .inexact .lt => 1
  | .inexact .eq => 2
  | .inexact .gt => 3

theorem quarters_lt (acc : Accuracy) : quarters acc < 4 := by
  rcases acc with _ | (_ | _ | _) <;> decide

/-- What is left is put into two more places. -/
theorem ofMantissaAndAccuracy_eq (q : Nat) (acc : Accuracy) :
    ExtendedMantissa.ofMantissaAndAccuracy q acc =
      ExtendedMantissa.ofMantissaAndAccuracy (4 * q + quarters acc) .exact >>> 2 := by
  have hlt := quarters_lt acc
  rw [shiftRight_eq, show (4 * q + quarters acc) / 2 ^ 2 = q by omega,
    show (4 * q + quarters acc) % 2 ^ 2 = quarters acc by omega]
  rcases acc with _ | (_ | _ | _) <;> rfl

theorem shiftRight_shiftRight (em : ExtendedMantissa) (n : Nat) : em >>> 2 >>> n = em >>> (2 + n) := by
  induction n with
  | zero => rfl
  | succ n ih => exact congrArg ExtendedMantissa.shiftRightOne ih

theorem log2_quarters (hq : q ≠ 0) {c : Nat} (hc : c < 4) : (4 * q + c).log2 = q.log2 + 2 := by
  have hlow := Nat.log2_self_le hq
  have hhigh : q < 2 ^ (q.log2 + 1) := Nat.lt_log2_self
  refine (Nat.log2_eq_iff (by omega)).mpr ⟨?_, ?_⟩
  · rw [Nat.pow_add]
    omega
  · rw [show q.log2 + 2 + 1 = q.log2 + 1 + 2 by omega, Nat.pow_add _ (q.log2 + 1)]
    omega

/-- Two more places make what is left exact. -/
theorem roundWithAccuracy_quarters (hq : q ≠ 0)
    (ht : t ≤ Format.binary32.targetExponent (Float.Model.totalExponent q t)) :
    roundWithAccuracy .binary32 s q t acc =
      roundWithAccuracy .binary32 s (4 * q + quarters acc) (t - 2) .exact := by
  have htotal : Float.Model.totalExponent (4 * q + quarters acc) (t - 2) =
      Float.Model.totalExponent q t := by
    rw [Float.Model.totalExponent, Float.Model.totalExponent, log2_quarters hq (quarters_lt acc)]
    omega
  have hshift : shiftToTargetExponent .binary32 q t acc =
      shiftToTargetExponent .binary32 (4 * q + quarters acc) (t - 2) .exact := by
    rw [shiftToTargetExponent, shiftToTargetExponent, htotal]
    generalize Format.binary32.targetExponent (Float.Model.totalExponent q t) = target at ht ⊢
    rw [shiftToExponent, shiftToExponent, ofMantissaAndAccuracy_eq,
      shiftRight_shiftRight, show (target - (t - 2)).toNat = 2 + (target - t).toNat by omega]
    congr 1
    omega
  rw [roundWithAccuracy, hshift]
  rfl

/-- Two quarters are the half that the rest reaches. -/
theorem quarters_half (hd : 0 < d) (hn : n < d) :
    quarters (accuracyOfFraction n d) / 2 = 2 * n / d := by
  rw [accuracyOfFraction]
  split
  next h =>
    rw [h]
    exact (Nat.zero_div d).symm
  next h =>
    rcases Nat.lt_trichotomy (2 * n) d with hlt | heq | hgt
    · rw [Nat.compare_eq_lt.mpr hlt, Nat.div_eq_of_lt hlt]
      rfl
    · rw [Nat.compare_eq_eq.mpr heq, heq, Nat.div_self hd]
      rfl
    · have hone : 2 * n / d = 1 := Nat.div_eq_of_lt_le (by omega) (by omega)
      rw [Nat.compare_eq_gt.mpr hgt, hone]
      rfl

/-- The whole part with its quarters is below an even number of quarters only if the quotient is. -/
theorem quarters_lt_iff (hd : 0 < d) (u : Nat) :
    4 * (n / d) + quarters (accuracyOfFraction (n % d) d) < 2 * u ↔ 2 * n < u * d := by
  have hhalf : 2 * n / d = 2 * (n / d) + 2 * (n % d) / d := by
    rw [← Nat.mul_add_div hd, Nat.mul_left_comm, ← Nat.mul_add, Nat.div_add_mod]
  rw [← Nat.div_lt_iff_lt_mul hd, hhalf, ← quarters_half hd (Nat.mod_lt n hd)]
  omega

end Quarters

section Small

variable {s : Sign} {m q : Nat} {e : Int} {acc : Accuracy}

/-- Where the exponent has not all of its bits, the number is finite. -/
theorem isFinite_unpack {b : BitVec Format.binary32.numBits} (h : unpackExponent b ≠ -1#8) :
    IsFinite (unpack .binary32 b) := by
  have hc := isCanonical_unpack b
  by_cases hz : unpackExponent b = 0#8
  · by_cases hm : unpackMantissa b = 0#23
    · have hzero : unpack .binary32 b = .zero (Sign.ofBitVec (unpackSign b)) := by
        unfold unpack
        dsimp only
        rw [if_neg h, if_pos hz, dif_pos hm]
      rw [hzero]
      exact .zero _
    · have hpos : (unpackMantissa b).toNat ≠ 0 := fun h => hm (BitVec.eq_of_toNat_eq h)
      rw [unpack_of_subnormal hz (Nat.pos_of_ne_zero hpos)] at hc ⊢
      cases hc with
      | finite _ _ _ _ k he fits => exact .finite _ _ _ _ k he fits
  · rw [unpack_of_normal hz h] at hc ⊢
    cases hc with
    | finite _ _ _ _ k he fits => exact .finite _ _ _ _ k he fits

/-- With a small exponent no mantissa is too large. -/
theorem isFinite_pack {hm : 0 < m} (he : e ≤ 0) :
    IsFinite (unpack .binary32 (pack .binary32 (.finite s m e hm))) := by
  have hbiased : (e + (Format.binary32.exponentBias : Int) +
      (Format.binary32.mantissaBitsWithoutImplicit : Int)).toNat ≤ 150 := by
    change (e + (127 : Int) + (23 : Int)).toNat ≤ 150
    omega
  delta pack
  dsimp only
  generalize (e + (Format.binary32.exponentBias : Int) +
    (Format.binary32.mantissaBitsWithoutImplicit : Int)).toNat = k at hbiased
  rw [if_neg (show ¬2 ^ 8 ≤ k + 1 by omega)]
  split
  · refine isFinite_unpack fun h => ?_
    rw [unpackExponent_packComponents] at h
    have hk : k % 2 ^ 8 = 255 := congrArg BitVec.toNat h
    omega
  · refine isFinite_unpack fun h => ?_
    rw [unpackExponent_packComponents] at h
    cases h

theorem mantissa_shiftRight_le (em : ExtendedMantissa) (n : Nat) :
    (em >>> n).mantissa ≤ em.mantissa := by
  induction n with
  | zero => exact Nat.le_refl _
  | succ n ih => exact Nat.le_trans (Nat.div_le_self _ 2) ih

theorem roundedMantissa_le (em : ExtendedMantissa) : em.roundedMantissa ≤ em.mantissa + 1 := by
  obtain ⟨q, high, low⟩ := em
  rw [roundedMantissa_mk]
  dsimp only
  split <;> omega

theorem mantissa_ofMantissaAndAccuracy (q : Nat) (acc : Accuracy) :
    (ExtendedMantissa.ofMantissaAndAccuracy q acc).mantissa = q := by
  rcases acc with _ | (_ | _ | _) <;> rfl

/-- The exponent goes up by no more places than the mantissa has too many. -/
theorem shiftToTargetExponent_le (e : Int) (acc : Accuracy) (hq : q < 2 ^ 27) :
    (shiftToTargetExponent .binary32 q e acc).1.mantissa ≤ q ∧
      (shiftToTargetExponent .binary32 q e acc).2 ≤ Max.max (e + 3) (-149) := by
  have hlog : q.log2 ≤ 26 := by
    rcases Nat.eq_zero_or_pos q with rfl | hpos
    · decide
    · exact Nat.le_of_lt_succ ((Nat.log2_lt (Nat.ne_of_gt hpos)).mpr hq)
  rw [shiftToTargetExponent, shiftToExponent]
  dsimp only
  refine ⟨Nat.le_trans (mantissa_shiftRight_le _ _) (Nat.le_of_eq
    (mantissa_ofMantissaAndAccuracy q acc)), ?_⟩
  change e + ((Max.max ((q.log2 : Int) + 1 + e - (24 : Nat)) (-149) - e).toNat : Int) ≤ _
  omega

theorem isFinite_roundWithAccuracy (hq : q < 2 ^ 26) (he : e ≤ -100) :
    IsFinite (unpack .binary32 (pack .binary32 (roundWithAccuracy .binary32 s q e acc))) := by
  obtain ⟨hmant, hexp⟩ := shiftToTargetExponent_le e acc (Nat.lt_trans hq (by decide))
  rw [roundWithAccuracy]
  generalize shiftToTargetExponent .binary32 q e acc = x at hmant hexp
  have hround := roundedMantissa_le x.1
  have hexp' := (shiftToTargetExponent_le x.2 .exact
    (show x.1.roundedMantissa < 2 ^ 27 by omega)).2
  dsimp only
  generalize shiftToTargetExponent .binary32 x.1.roundedMantissa x.2 .exact = y at hexp'
  by_cases hz : y.1.mantissa = 0
  · rw [dif_pos hz]
    cases s <;> exact .zero _
  · rw [dif_neg hz]
    exact isFinite_pack (by omega)

end Small

section Division

variable {x y : Scalar} {m k m' k' : Nat}

/-- From here on what is rounded becomes infinity: halfway between the largest finite scalar and the
power of two above it, in units. -/
def tooMany : Nat := 2 ^ 149 * (2 ^ 128 - 2 ^ 103)

theorem nearest_lt_iff (n : Nat) : nearest n < 255 * 2 ^ 23 ↔ n < tooMany := by
  have hlow : nearest (tooMany - 1) < 255 * 2 ^ 23 := by decide +kernel
  have hhigh : nearest tooMany = 255 * 2 ^ 23 := by decide +kernel
  constructor
  · intro h
    by_contra hn
    have := Layout.nearest_mono (Nat.not_lt.mp hn)
    omega
  · intro h
    have := Layout.nearest_mono (show n ≤ tooMany - 1 by omega)
    omega

/-- What is rounded stays finite as long as it is nearer to the largest finite scalar than to the
next power of two. -/
theorem RoundsTo.isFinite_iff {s : Sign} {n : Nat} {u : UnpackedFloat} (h : RoundsTo s n u) :
    IsFinite (unpack .binary32 (pack .binary32 u)) ↔ n < tooMany := by
  have hplace := h.place_eq
  rw [← nearest_lt_iff]
  constructor
  · intro hf
    have bounds := abs_place_lt hf
    rw [hplace, infinityBits_eq] at bounds
    cases s <;> simp only [negative_apply, positive_apply] at bounds <;> omega
  · intro hlt
    refine (isCanonical_unpack _).finite_of_lt (unpack_pack_ne_nan h.ne_nan) ?_ ?_ <;>
      rw [hplace, infinityBits_eq] <;> cases s <;>
      simp only [negative_apply, positive_apply] <;> omega

/-- A quotient with its quarters is too large when it is so exactly. -/
theorem quarters_lt_tooMany {n d : Nat} (hd : 0 < d) (hn : 2 ^ 23 * d ≤ n) (j : Nat) :
    (4 * (n / d) + quarters (accuracyOfFraction (n % d) d)) * 2 ^ j < tooMany ↔
      n * 2 ^ (j + 2) < tooMany * d := by
  have hpos := Nat.two_pow_pos j
  rcases Nat.lt_or_ge 251 j with hj | hj
  · have hq : 2 ^ 23 ≤ n / d := (Nat.le_div_iff_mul_le hd).mpr hn
    have hle : 2 ^ 252 ≤ 2 ^ j := Nat.pow_le_pow_right (by decide) hj
    have left : tooMany ≤ (4 * (n / d) + quarters (accuracyOfFraction (n % d) d)) * 2 ^ j :=
      calc tooMany ≤ 2 ^ 25 * 2 ^ 252 := by decide
        _ ≤ _ := Nat.mul_le_mul (by omega) hle
    have right : tooMany * d ≤ n * 2 ^ (j + 2) :=
      calc tooMany * d ≤ 2 ^ 23 * d * (2 ^ 252 * 2 ^ 2) := by
            rw [tooMany]
            omega
        _ ≤ n * 2 ^ (j + 2) := Nat.mul_le_mul hn (by rw [Nat.pow_add]; omega)
    omega
  · -- Below the bound there is room for another place, so the bound is even.
    have hu : tooMany = 2 * ((2 ^ 25 - 1) * 2 ^ (251 - j)) * 2 ^ j := by
      rw [Nat.mul_assoc, Nat.mul_assoc, ← Nat.pow_add, Nat.sub_add_cancel hj]
      decide
    have hn2 : n * 2 ^ (j + 2) = 2 * n * (2 * 2 ^ j) := by
      rw [Nat.pow_add]
      ring
    rw [hn2, hu, Nat.mul_lt_mul_right hpos, quarters_lt_iff hd]
    generalize (2 ^ 25 - 1) * 2 ^ (251 - j) = u
    rw [show 2 * u * 2 ^ j * d = u * d * (2 * 2 ^ j) by ring]
    exact (Nat.mul_lt_mul_right (by omega)).symm

theorem number_div (x y : Scalar) :
    (x / y).number = unpack .binary32 (pack .binary32 (div .binary32 x.number y.number)) := by
  rw [← unpack_value x, ← unpack_value y]
  rfl

/-- How a quotient is set up: the dividend is moved up by so many places that the whole part has at
least as many as are rounded to, unless they are below the least exponent. -/
theorem exists_divCore (e e' : Int) (hm : 0 < m) (hm' : 0 < m') (hlt : m < 2 ^ 24) :
    ∃ (h : Nat) (t : Int), t + h = e - e' ∧ m * 2 ^ h < 2 ^ 25 * m' ∧
      (-149 < t → 2 ^ 23 * m' ≤ m * 2 ^ h) ∧
      divCore .binary32 m e m' e' =
        (m * 2 ^ h / m', t, accuracyOfFraction (m * 2 ^ h % m') m') := by
  have hlow := Nat.log2_self_le (Nat.ne_of_gt hm)
  have hhigh : m < 2 ^ (m.log2 + 1) := Nat.lt_log2_self
  have hlow' := Nat.log2_self_le (Nat.ne_of_gt hm')
  have hhigh' : m' < 2 ^ (m'.log2 + 1) := Nat.lt_log2_self
  rw [divCore, Nat.shiftLeft_eq]
  have htarget : Format.binary32.targetExponent
      (Float.Model.totalExponent m e - Float.Model.totalExponent m' e') =
      Max.max ((m.log2 : Int) + e - (m'.log2 + e') - 24) (-149) := by
    change Max.max (((m.log2 : Int) + 1 + e) - (m'.log2 + 1 + e') - (24 : Nat)) (-149) = _
    omega
  rw [htarget]
  generalize m.log2 = l at *
  generalize m'.log2 = l' at *
  refine ⟨_, _, ?_, ?_, ?_, rfl⟩
  · omega
  · generalize hh : (e - e' - _).toNat = h
    rcases Nat.eq_zero_or_pos h with rfl | hpos
    · omega
    · calc m * 2 ^ h < 2 ^ (l + 1) * 2 ^ h := Nat.mul_lt_mul_of_pos_right hhigh (Nat.two_pow_pos h)
        _ = 2 ^ (l + 1 + h) := (Nat.pow_add ..).symm
        _ ≤ 2 ^ (25 + l') := Nat.pow_le_pow_right (by decide) (by omega)
        _ ≤ 2 ^ 25 * m' := by
          rw [Nat.pow_add]
          exact Nat.mul_le_mul_left _ hlow'
  · intro ht
    generalize hh : (e - e' - _).toNat = h
    calc 2 ^ 23 * m' ≤ 2 ^ 23 * 2 ^ (l' + 1) := Nat.mul_le_mul_left _ (Nat.le_of_lt hhigh')
      _ = 2 ^ (23 + (l' + 1)) := (Nat.pow_add ..).symm
      _ ≤ 2 ^ (l + h) := Nat.pow_le_pow_right (by decide) (by omega)
      _ = 2 ^ l * 2 ^ h := Nat.pow_add ..
      _ ≤ m * 2 ^ h := Nat.mul_le_mul_right _ hlow

/-- The quotient of two finite numbers is finite exactly as long as the exact one is not too large.
-/
theorem isFinite_div_finite (s s' : Sign) {e e' : Int} (hm : 0 < m) (hm' : 0 < m')
    (he : e = k - 149) (he' : e' = k' - 149) (hlt : m < 2 ^ 24) :
    IsFinite (unpack .binary32 (pack .binary32
      (div .binary32 (.finite s m e hm) (.finite s' m' e' hm')))) ↔
      m * 2 ^ k * 2 ^ 149 < tooMany * (m' * 2 ^ k') := by
  obtain ⟨h, t, hsum, hhigh, hlow, hcore⟩ := exists_divCore e e' hm hm' hlt
  have hdiv : div .binary32 (.finite s m e hm) (.finite s' m' e' hm') =
      roundWithAccuracy .binary32 (s / s') (divCore .binary32 m e m' e').1
        (divCore .binary32 m e m' e').2.1 (divCore .binary32 m e m' e').2.2 := rfl
  rw [hdiv, hcore]
  dsimp only
  rcases Int.lt_or_le t (-147) with ht | ht
  · -- The quotient is so small that it has no place above the units.
    have hq : m * 2 ^ h / m' < 2 ^ 26 := by
      rw [Nat.div_lt_iff_lt_mul hm']
      omega
    have hright : m * 2 ^ k * 2 ^ 149 < tooMany * (m' * 2 ^ k') :=
      calc m * 2 ^ k * 2 ^ 149 = m * 2 ^ (k + 149) := by rw [Nat.mul_assoc, ← Nat.pow_add]
        _ ≤ m * 2 ^ (h + (1 + k')) :=
          Nat.mul_le_mul_left _ (Nat.pow_le_pow_right (by decide) (by omega))
        _ = m * 2 ^ h * (2 ^ 1 * 2 ^ k') := by rw [Nat.pow_add, Nat.mul_assoc, Nat.pow_add]
        _ < 2 ^ 25 * m' * (2 ^ 1 * 2 ^ k') :=
          Nat.mul_lt_mul_of_pos_right hhigh (Nat.mul_pos (by decide) (Nat.two_pow_pos k'))
        _ = 2 ^ 26 * (m' * 2 ^ k') := by ring
        _ ≤ tooMany * (m' * 2 ^ k') := Nat.mul_le_mul_right _ (by decide)
    exact iff_of_true (isFinite_roundWithAccuracy hq (by omega)) hright
  · obtain ⟨j, rfl⟩ : ∃ j : Nat, t = j - 147 := ⟨(t + 147).toNat, by omega⟩
    have hlow := hlow (by omega)
    have hq : 2 ^ 23 ≤ m * 2 ^ h / m' := (Nat.le_div_iff_mul_le hm').mpr hlow
    have hne : m * 2 ^ h / m' ≠ 0 := by omega
    have hlog : 23 ≤ (m * 2 ^ h / m').log2 := (Nat.le_log2 hne).mpr hq
    have hc := quarters_lt (accuracyOfFraction (m * 2 ^ h % m') m')
    have hlog' := log2_quarters hne hc
    have hround := roundWithAccuracy_roundsTo (s := s / s')
      (m := 4 * (m * 2 ^ h / m') + quarters (accuracyOfFraction (m * 2 ^ h % m') m')) (j := j)
      (e := (j : Int) - 147 - 2) (by omega) (by omega) (by
        rw [lostPlaces, Layout.log2_mul_two_pow (by omega), hlog']
        omega)
    rw [roundWithAccuracy_quarters hne, hround.isFinite_iff, quarters_lt_tooMany hm' hlow]
    · have hk : m * 2 ^ k * 2 ^ 149 = m * 2 ^ h * 2 ^ (j + 2) * 2 ^ k' := by
        rw [Nat.mul_assoc, ← Nat.pow_add, Nat.mul_assoc, Nat.mul_assoc, ← Nat.pow_add, ← Nat.pow_add]
        congr 2
        omega
      rw [hk, ← Nat.mul_assoc]
      exact (Nat.mul_lt_mul_right (Nat.two_pow_pos k')).symm
    · change _ ≤ Max.max (((m * 2 ^ h / m').log2 : Int) + 1 + (j - 147) - (24 : Nat)) (-149)
      omega

theorem natAbs_apply (s : Sign) (n : Nat) : (s.apply n).natAbs = n := by
  cases s with
  | negative => exact Int.natAbs_neg n
  | positive => rfl

/-- A quotient of finite scalars is finite as long as the exact one is not too large. -/
theorem isFinite_div (hx : IsFinite x.number) (hy : IsFinite y.number) (hne : units y.number ≠ 0) :
    IsFinite (x / y).number ↔
      (units x.number).natAbs * 2 ^ 149 < tooMany * (units y.number).natAbs := by
  rw [number_div]
  generalize x.number = u at hx ⊢
  generalize y.number = v at hy hne ⊢
  cases hy with
  | zero => exact absurd rfl hne
  | finite s' m' e' hm' k' he' fits' =>
    have hb : 0 < m' * 2 ^ k' := Nat.mul_pos hm' (Nat.two_pow_pos k')
    rw [units_finite he', natAbs_apply]
    cases hx with
    | zero s =>
      refine iff_of_true ?_ ?_
      · change IsFinite (unpack .binary32 (pack .binary32 (.zero (s / s'))))
        rw [(IsCanonical.zero _).unpack_pack]
        exact .zero _
      · rw [units_zero, Int.natAbs_zero, Nat.zero_mul]
        exact Nat.mul_pos (by decide) hb
    | finite s m e hm k he fits =>
      rw [units_finite he, natAbs_apply]
      exact isFinite_div_finite s s' hm hm' he he' fits.mantissa

end Division

end EffectMachine.Scalar
