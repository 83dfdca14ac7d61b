import EffectMachine.Proofs.Number.Places

namespace EffectMachine.Scalar

open Float.Model (Format UnpackedFloat)
open Float.Model.UnpackedFloat
open Layout (halve lostPlaces nearest unbounded)

section Rounding

variable {m n k j : Nat} {s : Sign}

/-- Places shifted out: the highest of them, and whether there is anything below it. -/
theorem shiftRight_eq (m n : Nat) :
    ExtendedMantissa.ofMantissaAndAccuracy m .exact >>> n =
      ⟨m / 2 ^ n, decide (2 ^ n ≤ 2 * (m % 2 ^ n)), decide (2 * (m % 2 ^ n) % 2 ^ n ≠ 0)⟩ := by
  induction n with
  | zero => simp [Nat.mod_one]; rfl
  | succ n ih =>
    change ExtendedMantissa.shiftRightOne
      (ExtendedMantissa.ofMantissaAndAccuracy m .exact >>> n) = _
    have hr : m % 2 ^ n < 2 ^ n := Nat.mod_lt _ (Nat.two_pow_pos n)
    have hs : m % 2 ^ (n + 1) = m % 2 ^ n + 2 ^ n * (m / 2 ^ n % 2) := Nat.mod_pow_succ
    rw [ih, ExtendedMantissa.shiftRightOne, hs]
    have hb : m / 2 ^ n % 2 = 0 ∨ m / 2 ^ n % 2 = 1 := Nat.mod_two_eq_zero_or_one _
    congr 1
    · rw [Nat.pow_succ, Nat.div_div_eq_div_mul]
    · rw [Bool.eq_iff_iff, bne_iff_ne, decide_eq_true_eq, Nat.pow_succ]
      rcases hb with hb | hb <;> rw [hb] <;> omega
    · have hsmall : 2 * (m % 2 ^ n) % 2 ^ (n + 1) = 2 * (m % 2 ^ n) :=
        Nat.mod_eq_of_lt (by rw [Nat.pow_succ]; omega)
      have hlow : 2 * (m % 2 ^ n + 2 ^ n * (m / 2 ^ n % 2)) % 2 ^ (n + 1) = 2 * (m % 2 ^ n) := by
        rw [Nat.mul_add, ← Nat.mul_assoc, ← Nat.pow_succ', Nat.add_mul_mod_self_left, hsmall]
      rw [hlow, Bool.eq_iff_iff, Bool.or_eq_true, decide_eq_true_eq, decide_eq_true_eq,
        decide_eq_true_eq]
      by_cases hp : 2 ^ n ≤ 2 * (m % 2 ^ n)
      · simp only [hp, true_or, true_iff]
        have := Nat.two_pow_pos n
        omega
      · rw [Nat.mod_eq_of_lt (Nat.not_le.mp hp)]
        simp [hp]

theorem roundedMantissa_mk (q : Nat) (high low : Bool) :
    (ExtendedMantissa.mk q high low).roundedMantissa =
      if high = true ∧ (low = true ∨ q % 2 = 1) then q + 1 else q := by
  cases high with
  | false => cases low <;> rfl
  | true =>
    cases low with
    | true => rfl
    | false =>
      change q + q % 2 = _
      rcases Nat.mod_two_eq_zero_or_one q with h | h <;> simp [h]

theorem roundedMantissa_shiftRight (m n : Nat) :
    (ExtendedMantissa.ofMantissaAndAccuracy m .exact >>> n).roundedMantissa = halve m n := by
  have hr : m % 2 ^ n < 2 ^ n := Nat.mod_lt _ (Nat.two_pow_pos n)
  rw [shiftRight_eq, roundedMantissa_mk, halve]
  simp only [Nat.pow_eq, decide_eq_true_eq]
  refine if_congr ?_ rfl rfl
  generalize m % 2 ^ n = rest at hr ⊢
  generalize 2 ^ n = unit at hr ⊢
  rcases Nat.lt_or_ge (2 * rest) unit with hp | hp
  · omega
  · rw [Nat.mod_eq_sub_mod hp, Nat.mod_eq_of_lt (by omega)]
    omega

/-- Rounded to the nearest pattern, if there were patterns without an end. -/
inductive RoundsTo (s : Sign) (n : Nat) : UnpackedFloat → Prop where
  | fields (m k : Nat) (e : Int) (hm : 0 < m) (he : e = k - 149) (small : m < 2 ^ 24)
      (normal : 2 ^ 23 ≤ m ∨ k = 0) (place : k * 2 ^ 23 + m = unbounded n) :
      RoundsTo s n (.finite s m e hm)

theorem RoundsTo.ne_nan {s : Sign} {n : Nat} {u : UnpackedFloat} (h : RoundsTo s n u) :
    u ≠ .notANumber := by
  cases h
  exact UnpackedFloat.noConfusion

theorem targetExponent_eq {e : Int} (hm : m ≠ 0) (he : e = j - 149) :
    Format.binary32.targetExponent (Float.Model.totalExponent m e) =
      (lostPlaces (m * 2 ^ j) : Int) - 149 := by
  change Max.max ((m.log2 : Int) + 1 + e - 24) (-149) = _
  rw [lostPlaces, Layout.log2_mul_two_pow hm]
  omega

/-- The shift to the exponent that fits, and the rounding. -/
theorem shiftToTargetExponent_eq {e : Int} (hm : m ≠ 0) (he : e = j - 149)
    (hj : j ≤ lostPlaces (m * 2 ^ j)) :
    shiftToTargetExponent .binary32 m e .exact =
      (ExtendedMantissa.ofMantissaAndAccuracy m .exact >>> (lostPlaces (m * 2 ^ j) - j),
        (lostPlaces (m * 2 ^ j) : Int) - 149) := by
  rw [shiftToTargetExponent, shiftToExponent, targetExponent_eq hm he]
  rw [show ((lostPlaces (m * 2 ^ j) : Int) - 149 - e).toNat = lostPlaces (m * 2 ^ j) - j by omega,
    show e + ((lostPlaces (m * 2 ^ j) - j : Nat) : Int) = (lostPlaces (m * 2 ^ j) : Int) - 149 by
      omega]

/-- A rounded mantissa has 24 places, or one more where the rounding carried over. -/
theorem halve_lostPlaces (n : Nat) :
    halve n (lostPlaces n) ≤ 2 ^ 24 ∧ (2 ^ 23 ≤ halve n (lostPlaces n) ∨ lostPlaces n = 0) := by
  have hup := Layout.halve_le_add_one n (lostPlaces n)
  have hlow := Layout.le_halve n (lostPlaces n)
  have hlt := Layout.div_lostPlaces_lt n
  refine ⟨by omega, ?_⟩
  rcases Nat.eq_zero_or_pos (lostPlaces n) with hz | hz
  · exact .inr hz
  · have hge := Layout.le_div_lostPlaces (Nat.ne_of_gt hz)
    exact .inl (by omega)

/-- A mantissa that has carried over goes one place further. -/
theorem carried {r p : Nat} (hr : r ≠ 0) (hle : r ≤ 2 ^ 24) (hge : 2 ^ 23 ≤ r ∨ p = 0) :
    ∃ m k, m ≠ 0 ∧ m < 2 ^ 24 ∧ (2 ^ 23 ≤ m ∨ k = 0) ∧ k * 2 ^ 23 + m = p * 2 ^ 23 + r ∧
      (shiftToTargetExponent .binary32 r (p - 149) .exact).1.mantissa = m ∧
      (shiftToTargetExponent .binary32 r (p - 149) .exact).2 = k - 149 := by
  rcases Nat.lt_or_eq_of_le hle with hlt | rfl
  · have hl : lostPlaces (r * 2 ^ p) = p := Layout.lostPlaces_mul hlt hge
    refine ⟨r, p, hr, hlt, hge, rfl, ?_⟩
    rw [shiftToTargetExponent_eq hr rfl (Nat.le_of_eq hl.symm), hl, Nat.sub_self, shiftRight_eq]
    exact ⟨Nat.div_one r, rfl⟩
  · have hl : lostPlaces (2 ^ 24 * 2 ^ p) = p + 1 := by
      rw [show 2 ^ 24 * 2 ^ p = 2 ^ 23 * 2 ^ (p + 1) by rw [Nat.pow_succ]; omega]
      exact Layout.lostPlaces_mul (by decide) (.inl (Nat.le_refl _))
    refine ⟨2 ^ 23, p + 1, by decide, by decide, .inl (Nat.le_refl _), by omega, ?_⟩
    rw [shiftToTargetExponent_eq hr rfl (by omega), hl, Nat.add_sub_cancel_left, shiftRight_eq]
    exact ⟨show 2 ^ 24 / 2 ^ 1 = 2 ^ 23 by decide, rfl⟩

/-- What is rounded from too many places comes to the nearest pattern. -/
theorem roundWithAccuracy_roundsTo {e : Int} (hm : m ≠ 0) (he : e = j - 149)
    (hj : j ≤ lostPlaces (m * 2 ^ j)) :
    RoundsTo s (m * 2 ^ j) (roundWithAccuracy .binary32 s m e .exact) := by
  have hh : halve m (lostPlaces (m * 2 ^ j) - j) = halve (m * 2 ^ j) (lostPlaces (m * 2 ^ j)) := by
    rw [← Layout.halve_mul m _ j, Nat.sub_add_cancel hj]
  have hn : m * 2 ^ j ≠ 0 := Nat.mul_ne_zero hm (Nat.ne_of_gt (Nat.two_pow_pos j))
  obtain ⟨hle, hge⟩ := halve_lostPlaces (m * 2 ^ j)
  have hr : halve (m * 2 ^ j) (lostPlaces (m * 2 ^ j)) ≠ 0 := by
    rcases hge with hge | hz
    · omega
    · rwa [hz, Layout.halve_zero]
  obtain ⟨m', k', hm', small, normal, place, hmant, hexp⟩ := carried hr hle hge
  rw [roundWithAccuracy, shiftToTargetExponent_eq hm he hj]
  dsimp only
  rw [roundedMantissa_shiftRight, hh, dif_neg (hmant ▸ hm')]
  exact .fields _ k' _ _ hexp (hmant ▸ small) (hmant ▸ normal) (hmant ▸ place)

/-- Whatever the exponent, a number is rounded to the nearest pattern. -/
theorem round_roundsTo {e : Int} (hm : m ≠ 0) (he : e = j - 149) :
    RoundsTo s (m * 2 ^ j) (UnpackedFloat.round .binary32 s m e) := by
  have ht := targetExponent_eq hm he
  rw [UnpackedFloat.round, ht, decreaseExponent]
  dsimp only
  generalize hp : lostPlaces (m * 2 ^ j) = p
  have hd : (e - ((p : Int) - 149)).toNat = j - p := by omega
  -- Of the mantissa as many places are taken up as the exponent goes down.
  have hn : m <<< (j - p) * 2 ^ (j - (j - p)) = m * 2 ^ j := by
    rw [Nat.shiftLeft_eq, Nat.mul_assoc, ← Nat.pow_add, Nat.add_sub_cancel' (Nat.sub_le j p)]
  have hz : m <<< (j - p) ≠ 0 := by
    rw [Nat.shiftLeft_eq]
    exact Nat.mul_ne_zero hm (Nat.ne_of_gt (Nat.two_pow_pos _))
  have hr := roundWithAccuracy_roundsTo (s := s) (j := j - (j - p)) (e := e - (j - p : Nat)) hz
    (by omega) (by rw [hn]; omega)
  rw [hn] at hr
  rw [hd]
  exact hr

end Rounding

def nearestPlace (z : Int) : Int :=
  if z < 0 then -(Layout.nearest z.natAbs : Int) else Layout.nearest z.natAbs

section Nearest

variable {m n k j : Nat} {s : Sign} {u v : UnpackedFloat}

/-- A larger number of units is never rounded to a lower place. -/
theorem nearestPlace_mono {y z : Int} (h : y ≤ z) : nearestPlace y ≤ nearestPlace z := by
  unfold nearestPlace
  split
  · split
    · have := Layout.nearest_mono (show z.natAbs ≤ y.natAbs by omega)
      omega
    · omega
  · have := Layout.nearest_mono (show y.natAbs ≤ z.natAbs by omega)
    rw [if_neg (by omega)]
    omega

/-- What does not fit its pattern becomes infinity. -/
theorem RoundsTo.place_eq {u : UnpackedFloat} (h : RoundsTo s n u) :
    place (unpack .binary32 (pack .binary32 u)) = s.apply (nearest n) := by
  cases h with
  | fields m k e hm he small normal hp =>
    rw [Layout.nearest_eq, ← hp]
    rcases Nat.lt_or_ge k 254 with hk | hk
    · have hfin : k * 2 ^ 23 + m ≤ Layout.single.infinityBits := by
        rw [infinityBits_eq]
        omega
      rw [unpack_pack_finite he ⟨small, by omega, normal⟩, place_finite he, Nat.min_eq_right hfin]
    · have hinf : Layout.single.infinityBits ≤ k * 2 ^ 23 + m := by
        rw [infinityBits_eq]
        omega
      rw [Nat.min_eq_left hinf]
      have hbiased : (e + (Format.binary32.exponentBias : Int) +
          (Format.binary32.mantissaBitsWithoutImplicit : Int)).toNat = k + 1 := by
        change (e + (127 : Int) + (23 : Int)).toNat = k + 1
        omega
      delta pack
      dsimp only
      rw [hbiased, if_pos (by omega)]
      cases s <;> rfl

/-- What is put together from units has the place of the nearest pattern. -/
theorem place_normalize {z e : Int} (he : e = j - 149) (zero : Sign) :
    place (unpack .binary32 (pack .binary32 (UnpackedFloat.normalize .binary32 z e zero))) =
      nearestPlace (z * 2 ^ j) := by
  have hpos : (0 : Int) < 2 ^ j := Int.pow_pos (by decide)
  have habs : (z * 2 ^ j).natAbs = z.natAbs * 2 ^ j := by
    rw [Int.natAbs_mul, Int.natAbs_pow]
    rfl
  unfold UnpackedFloat.normalize
  split
  next h =>
    have hz : z < 0 := Int.compare_eq_lt.mp h
    rw [(round_roundsTo (by omega) he).place_eq, nearestPlace,
      if_pos (Int.mul_neg_of_neg_of_pos hz hpos), habs, show (-z).toNat = z.natAbs by omega]
    rfl
  next h =>
    obtain rfl : z = 0 := Int.compare_eq_eq.mp h
    rw [Int.zero_mul]
    cases zero <;> rfl
  next h =>
    have hz : 0 < z := Int.compare_eq_gt.mp h
    rw [(round_roundsTo (by omega) he).place_eq, nearestPlace,
      if_neg (Int.not_lt.mpr (Int.le_of_lt (Int.mul_pos hz hpos))), habs,
      show z.toNat = z.natAbs by omega]
    rfl

theorem normalize_ne_nan {z e : Int} {j : Nat} (he : e = j - 149) (zero : Sign) :
    UnpackedFloat.normalize .binary32 z e zero ≠ .notANumber := by
  unfold UnpackedFloat.normalize
  split
  next h => exact (round_roundsTo (by have := Int.compare_eq_lt.mp h; omega) he).ne_nan
  next => exact UnpackedFloat.noConfusion
  next h => exact (round_roundsTo (by have := Int.compare_eq_gt.mp h; omega) he).ne_nan

theorem FitsFields.nearest_eq (h : FitsFields m k) : nearest (m * 2 ^ k) = k * 2 ^ 23 + m := by
  obtain ⟨small, hk, normal⟩ := h
  rw [Layout.nearest_eq, Layout.unbounded_mul small normal, infinityBits_eq]
  omega

/-- A finite scalar is nearest to itself. -/
theorem nearestPlace_units (h : IsFinite u) : nearestPlace (units u) = place u := by
  cases h with
  | zero s => rfl
  | finite s m e hm k he fits =>
    have hn := fits.nearest_eq
    have hpos : 0 < m * 2 ^ k := Nat.mul_pos hm (Nat.two_pow_pos k)
    rw [units_finite he, place_finite he, nearestPlace]
    cases s with
    | negative =>
      rw [negative_apply, negative_apply, if_pos (by omega), Int.natAbs_neg, Int.natAbs_natCast, hn]
    | positive =>
      rw [positive_apply, positive_apply, if_neg (by omega), Int.natAbs_natCast, hn]

/-- Finite numbers are in the order of their places exactly as of their units. -/
theorem place_le_iff {u v : UnpackedFloat} (hu : IsFinite u) (hv : IsFinite v) :
    place u ≤ place v ↔ units u ≤ units v := by
  refine ⟨units_le_of_place_le hu hv, fun h => ?_⟩
  rw [← nearestPlace_units hu, ← nearestPlace_units hv]
  exact nearestPlace_mono h

end Nearest

section Sums

variable {k j : Nat} {u v : UnpackedFloat}

theorem apply_mul (s : Sign) (a b : Int) : s.apply (a * b) = s.apply a * b := by
  cases s with
  | negative => exact (Int.neg_mul a b).symm
  | positive => rfl

/-- The mantissa at a lower exponent stands for as many units. -/
theorem shiftLeft_units (m : Nat) (h : j ≤ k) : (m <<< (k - j)) * 2 ^ j = m * 2 ^ k := by
  rw [Nat.shiftLeft_eq, Nat.mul_assoc, ← Nat.pow_add, Nat.sub_add_cancel h]

/-- A sum of numbers at the lower of both exponents. -/
theorem add_finite (s s' : Sign) {m m' k k' : Nat} {e e' : Int} (hm : 0 < m) (hm' : 0 < m')
    (he : e = k - 149) (he' : e' = k' - 149) :
    ∃ z j : Int, ∃ n : Nat, j = n - 149 ∧
      add .binary32 (.finite s m e hm) (.finite s' m' e' hm') =
        UnpackedFloat.normalize .binary32 z j .positive ∧
      z * 2 ^ n = s.apply (m * 2 ^ k : Nat) + s'.apply (m' * 2 ^ k' : Nat) := by
  refine ⟨s.apply (m <<< (e - Min.min e e').toNat : Nat) +
    s'.apply (m' <<< (e' - Min.min e e').toNat : Nat), Min.min e e', Min.min k k', by omega, rfl,
    ?_⟩
  rw [show (e - Min.min e e').toNat = k - Min.min k k' by omega,
    show (e' - Min.min e e').toNat = k' - Min.min k k' by omega, Int.add_mul, ← apply_mul,
    ← apply_mul, ← shiftLeft_units m (Nat.min_le_left k k'),
    ← shiftLeft_units m' (Nat.min_le_right k k')]
  push_cast
  rfl

/-- The sum of two finite numbers is a number. -/
theorem add_ne_nan {u v : UnpackedFloat} (hu : IsFinite u) (hv : IsFinite v) :
    add .binary32 u v ≠ .notANumber := by
  cases hu with
  | zero s =>
    cases hv with
    | zero s' => cases s <;> cases s' <;> exact UnpackedFloat.noConfusion
    | finite => exact UnpackedFloat.noConfusion
  | finite s m e hm k he fits =>
    cases hv with
    | zero => exact UnpackedFloat.noConfusion
    | finite s' m' e' hm' k' he' fits' =>
      obtain ⟨z, j, n, hj, hadd, -⟩ := add_finite s s' hm hm' he he'
      rw [hadd]
      exact normalize_ne_nan hj _

/-- The place of a sum is the nearest to the exact sum. -/
theorem place_add (hu : IsFinite u) (hv : IsFinite v) :
    place (unpack .binary32 (pack .binary32 (add .binary32 u v))) =
      nearestPlace (units u + units v) := by
  cases hu with
  | zero s =>
    cases hv with
    | zero s' => cases s <;> cases s' <;> rfl
    | finite s' m' e' hm' k' he' fits' =>
      have hv : IsFinite (.finite s' m' e' hm') := .finite s' m' e' hm' k' he' fits'
      rw [units_zero, Int.zero_add, nearestPlace_units hv]
      exact congrArg place (unpack_pack_finite he' fits')
  | finite s m e hm k he fits =>
    cases hv with
    | zero s' =>
      have hu : IsFinite (.finite s m e hm) := .finite s m e hm k he fits
      rw [units_zero, Int.add_zero, nearestPlace_units hu]
      exact congrArg place (unpack_pack_finite he fits)
    | finite s' m' e' hm' k' he' fits' =>
      obtain ⟨z, j, n, hj, hadd, hz⟩ := add_finite s s' hm hm' he he'
      rw [hadd, place_normalize hj, units_finite he, units_finite he', hz]

/-- A difference is the sum with the negated number. -/
theorem sub_eq_add_neg (u v : UnpackedFloat) :
    sub .binary32 u v = add .binary32 u (UnpackedFloat.neg v) := by
  cases u with
  | notANumber => rfl
  | infinity s => cases v <;> rfl
  | zero s => cases v <;> rfl
  | finite s m e hm =>
    cases v with
    | finite s' m' e' hm' =>
      have hz (a b : Int) : a - s'.apply b = a + (-s').apply b := by
        cases s' with
        | negative => exact Int.sub_neg a b
        | positive => exact Int.sub_eq_add_neg
      exact congrArg (fun z => UnpackedFloat.normalize .binary32 z _ .positive) (hz _ _)
    | _ => rfl

theorem place_sub (hu : IsFinite u) (hv : IsFinite v) :
    place (unpack .binary32 (pack .binary32 (sub .binary32 u v))) =
      nearestPlace (units u - units v) := by
  rw [sub_eq_add_neg, place_add hu hv.neg, units_neg]
  rfl

end Sums

section Monotone

variable {u v u' v' : UnpackedFloat}

theorem infinity_add {s : Sign} (hn : add .binary32 (.infinity s) v ≠ .notANumber) :
    add .binary32 (.infinity s) v = .infinity s := by
  cases v with
  | notANumber => exact absurd rfl hn
  | infinity s' => cases s <;> cases s' <;> first | rfl | exact absurd rfl hn
  | zero | finite => rfl

theorem add_infinity {s : Sign} (hn : add .binary32 u (.infinity s) ≠ .notANumber) :
    add .binary32 u (.infinity s) = .infinity s := by
  cases u with
  | notANumber => exact absurd rfl hn
  | infinity s' => cases s <;> cases s' <;> first | rfl | exact absurd rfl hn
  | zero | finite => rfl

theorem ne_nan_of_add (h : add .binary32 u v ≠ .notANumber) :
    u ≠ .notANumber ∧ v ≠ .notANumber := by
  constructor
  · rintro rfl
    exact h rfl
  · rintro rfl
    cases u <;> exact h rfl

def placeOfSum (u v : UnpackedFloat) : Int :=
  place (unpack .binary32 (pack .binary32 (add .binary32 u v)))

/-- With an infinite summand the sum is as infinite. -/
theorem placeOfSum_of_infinite (hu : IsCanonical u) (hv : IsCanonical v)
    (hn : add .binary32 u v ≠ .notANumber) {s : Sign}
    (h : place u = s.apply Layout.single.infinityBits ∨
      place v = s.apply Layout.single.infinityBits) :
    placeOfSum u v = s.apply Layout.single.infinityBits := by
  obtain ⟨hnu, hnv⟩ := ne_nan_of_add hn
  have packed : place (unpack .binary32 (pack .binary32 (.infinity s))) =
      s.apply Layout.single.infinityBits := congrArg place (IsCanonical.infinity s).unpack_pack
  rw [placeOfSum]
  rcases h with h | h
  · obtain rfl := hu.eq_infinity hnu h
    rw [infinity_add hn, packed]
  · obtain rfl := hv.eq_infinity hnv h
    rw [add_infinity hn, packed]

/-- Larger summands have no smaller sum. -/
theorem placeOfSum_mono (hu : IsCanonical u) (hv : IsCanonical v) (hu' : IsCanonical u')
    (hv' : IsCanonical v') (hn : add .binary32 u v ≠ .notANumber)
    (hn' : add .binary32 u' v' ≠ .notANumber) (h : place u ≤ place u') (h' : place v ≤ place v') :
    placeOfSum u v ≤ placeOfSum u' v' := by
  have sum := abs_place_le (isCanonical_unpack (pack .binary32 (add .binary32 u v)))
  have sum' := abs_place_le (isCanonical_unpack (pack .binary32 (add .binary32 u' v')))
  by_cases low : place u = Sign.negative.apply Layout.single.infinityBits ∨
      place v = Sign.negative.apply Layout.single.infinityBits
  · rw [placeOfSum_of_infinite hu hv hn low]
    exact sum'.1
  by_cases high : place u' = Sign.positive.apply Layout.single.infinityBits ∨
      place v' = Sign.positive.apply Layout.single.infinityBits
  · rw [placeOfSum_of_infinite hu' hv' hn' high]
    exact sum.2
  -- Between the infinities all four are finite.
  obtain ⟨hnu, hnv⟩ := ne_nan_of_add hn
  obtain ⟨hnu', hnv'⟩ := ne_nan_of_add hn'
  simp only [negative_apply, positive_apply, not_or] at low high
  have := abs_place_le hu
  have := abs_place_le hv
  have := abs_place_le hu'
  have := abs_place_le hv'
  have fu := hu.finite_of_lt hnu (by omega) (by omega)
  have fv := hv.finite_of_lt hnv (by omega) (by omega)
  have fu' := hu'.finite_of_lt hnu' (by omega) (by omega)
  have fv' := hv'.finite_of_lt hnv' (by omega) (by omega)
  rw [placeOfSum, placeOfSum, place_add fu fv, place_add fu' fv']
  exact nearestPlace_mono
    (Int.add_le_add (units_le_of_place_le fu fu' h) (units_le_of_place_le fv fv' h'))

end Monotone

section Scalars

variable {x y x' y' : Scalar}

theorem isNumber_add : (x + y).IsNumber ↔ add .binary32 x.number y.number ≠ .notANumber := by
  rw [IsNumber, number_add]
  refine ⟨fun h hn => h ?_, unpack_pack_ne_nan⟩
  rw [hn]
  rfl

theorem isNumber_of_add (h : (x + y).IsNumber) : x.IsNumber ∧ y.IsNumber :=
  ne_nan_of_add (isNumber_add.mp h)

/-- A finite summand makes no NaN of a number. -/
theorem isNumber_add_of_finite (hx : x.IsNumber) (hy : IsFinite y.number) : (x + y).IsNumber := by
  rw [isNumber_add]
  have hc := x.isCanonical_number
  rw [IsNumber] at hx
  generalize x.number = u at hx hc ⊢
  generalize y.number = v at hy ⊢
  cases hc with
  | notANumber => exact absurd rfl hx
  | infinity s =>
    cases hy with
    | zero | finite => exact UnpackedFloat.noConfusion
  | zero s => exact add_ne_nan (.zero s) hy
  | finite s m e hm k he fits => exact add_ne_nan (.finite s m e hm k he fits) hy

theorem add_le_add (h : x ≤ x') (h' : y ≤ y') (hn : (x + y).IsNumber) (hn' : (x' + y').IsNumber) :
    x + y ≤ x' + y' := by
  obtain ⟨hx, hx'⟩ := isNumber_of_le h
  obtain ⟨hy, hy'⟩ := isNumber_of_le h'
  rw [le_iff_place hx hx'] at h
  rw [le_iff_place hy hy'] at h'
  rw [le_iff_place hn hn', number_add, number_add]
  exact placeOfSum_mono x.isCanonical_number y.isCanonical_number x'.isCanonical_number
    y'.isCanonical_number (isNumber_add.mp hn) (isNumber_add.mp hn') h h'

theorem isNumber_sub : (x - y).IsNumber ↔ sub .binary32 x.number y.number ≠ .notANumber := by
  rw [IsNumber, number_sub]
  refine ⟨fun h hn => h ?_, unpack_pack_ne_nan⟩
  rw [hn]
  rfl

theorem isNumber_of_sub (h : (x - y).IsNumber) : x.IsNumber ∧ y.IsNumber := by
  rw [isNumber_sub, sub_eq_add_neg] at h
  obtain ⟨hx, hy⟩ := ne_nan_of_add h
  exact ⟨hx, fun hn => hy (by rw [hn]; rfl)⟩

theorem sub_le_sub (h : x ≤ x') (h' : y' ≤ y) (hn : (x - y).IsNumber) (hn' : (x' - y').IsNumber) :
    x - y ≤ x' - y' := by
  obtain ⟨hx, hx'⟩ := isNumber_of_le h
  obtain ⟨hy', hy⟩ := isNumber_of_le h'
  rw [le_iff_place hx hx'] at h
  rw [le_iff_place hy' hy] at h'
  rw [isNumber_sub, sub_eq_add_neg] at hn hn'
  rw [le_iff_place (isNumber_sub.mpr (by rwa [sub_eq_add_neg]))
    (isNumber_sub.mpr (by rwa [sub_eq_add_neg])), number_sub, number_sub, sub_eq_add_neg,
    sub_eq_add_neg]
  exact placeOfSum_mono x.isCanonical_number y.isCanonical_number.neg x'.isCanonical_number
    y'.isCanonical_number.neg hn hn' h (by rw [place_neg, place_neg]; omega)

theorem place_add_zero (hx : x.IsNumber) :
    (x + 0).IsNumber ∧ place (x + 0).number = place x.number := by
  have hzero : (0 : Scalar).number = .zero .positive := rfl
  have hsum : add .binary32 x.number (.zero .positive) = x.number ∨ ∃ s, x.number = .zero s := by
    cases x.number with
    | zero s => exact .inr ⟨s, rfl⟩
    | _ => exact .inl rfl
  rw [IsNumber, number_add, hzero]
  rcases hsum with hsum | ⟨s, hs⟩
  · rw [hsum, x.isCanonical_number.unpack_pack]
    exact ⟨hx, rfl⟩
  · rw [hs]
    cases s <;> exact ⟨UnpackedFloat.noConfusion, rfl⟩

/-- To add what is not negative takes nothing away. -/
theorem le_add_of_nonneg (hx : x.IsNumber) (hy : 0 ≤ y) (hn : (x + y).IsNumber) : x ≤ x + y := by
  obtain ⟨hz, hp⟩ := place_add_zero hx
  refine le_trans ((le_iff_place hx hz).mpr (Int.le_of_eq hp.symm)) ?_
  exact add_le_add (le_refl hx) hy hz hn

end Scalars

end EffectMachine.Scalar
