import EffectMachine.Proofs.Number.Places

namespace EffectMachine.Scalar

open Float.Model (Format UnpackedFloat)
open Float.Model.UnpackedFloat

variable {x y : Scalar}

def magnitude (x : Scalar) : Nat := x.bits.toNat % 2 ^ 31

def sign (x : Scalar) : Sign := if x.isSignMinus then .negative else .positive

theorem toNat_and_mask (x : Scalar) : (x.bits &&& 0x7fffffff).toNat = x.magnitude :=
  Nat.and_two_pow_sub_one_eq_mod x.bits.toNat 31

theorem isSignMinus_iff : x.isSignMinus = true ↔ 2 ^ 31 ≤ x.bits.toNat := by
  rw [isSignMinus, decide_eq_true_eq, UInt32.le_iff_toNat_le]
  rfl

theorem isNaN_iff : x.isNaN = true ↔ 255 * 2 ^ 23 < x.magnitude := by
  rw [isNaN, decide_eq_true_eq, UInt32.lt_iff_toNat_lt, toNat_and_mask]
  rfl

theorem isFinite_iff : x.isFinite = true ↔ x.magnitude < 255 * 2 ^ 23 := by
  rw [isFinite, decide_eq_true_eq, UInt32.lt_iff_toNat_lt, toNat_and_mask]
  rfl

theorem toNat_unpackMantissa (x : Scalar) :
    (@unpackMantissa .binary32 x.bits.toBitVec).toNat = x.magnitude % 2 ^ 23 := by
  simp only [unpackMantissa, BitVec.cast_eq, BitVec.extractLsb_toNat, UInt32.toNat_toBitVec,
    magnitude]
  change x.bits.toNat >>> 0 % 2 ^ 23 = _
  rw [Nat.shiftRight_zero]
  omega

theorem toNat_unpackExponent (x : Scalar) :
    (@unpackExponent .binary32 x.bits.toBitVec).toNat = x.magnitude / 2 ^ 23 := by
  simp only [unpackExponent, BitVec.cast_eq, BitVec.extractLsb_toNat, UInt32.toNat_toBitVec,
    magnitude]
  change x.bits.toNat >>> 23 % 2 ^ 8 = _
  rw [Nat.shiftRight_eq_div_pow]
  omega

/-- The sign bit is read as the sign. -/
theorem ofBitVec_unpackSign (x : Scalar) :
    Sign.ofBitVec (@unpackSign .binary32 x.bits.toBitVec) = x.sign := by
  have hlt : x.bits.toNat < 2 ^ 32 := x.bits.toNat_lt
  have htop : (@unpackSign .binary32 x.bits.toBitVec).toNat = x.bits.toNat / 2 ^ 31 := by
    delta unpackSign
    simp only [BitVec.cast_eq, BitVec.extractLsb_toNat, UInt32.toNat_toBitVec]
    change x.bits.toNat >>> 31 % 2 ^ 1 = _
    rw [Nat.shiftRight_eq_div_pow]
    omega
  rw [Sign.ofBitVec, sign]
  by_cases h : 2 ^ 31 ≤ x.bits.toNat
  · rw [if_pos (isSignMinus_iff.mpr h), if_neg]
    intro hz
    rw [hz] at htop
    change 0 = _ at htop
    omega
  · rw [if_neg (mt isSignMinus_iff.mp h), if_pos]
    apply BitVec.eq_of_toNat_eq
    rw [htop]
    change _ = 0
    omega

/-- The mantissa and the exponent of a finite scalar, and how it reads with them. -/
structure HasFields (x : Scalar) (m k : Nat) : Prop where
  fits : FitsFields m k
  magnitude : x.magnitude = k * 2 ^ 23 + m
  reading : x.reading = .finite ⟨x.isSignMinus, m, (k : Int) - 149⟩
  number : (m = 0 ∧ x.number = .zero x.sign) ∨
    ∃ hm, x.number = .finite x.sign m ((k : Int) - 149) hm

/-- A finite pattern reads as its mantissa, with the leading one unless the exponent is the least.
-/
theorem reading_eq (h : x.isFinite = true) :
    x.reading = if x.magnitude / 2 ^ 23 = 0 then .finite ⟨x.isSignMinus, x.magnitude, -149⟩
      else .finite ⟨x.isSignMinus, x.magnitude % 2 ^ 23 + 2 ^ 23,
        -149 + (x.magnitude / 2 ^ 23 - 1 : Nat)⟩ := by
  rw [isFinite_iff] at h
  have hfin : ¬255 * 2 ^ 23 < x.magnitude := by omega
  have hsign : decide (2 ^ 31 ≤ x.bits.toNat) = x.isSignMinus := by
    rw [Bool.eq_iff_iff, decide_eq_true_eq, isSignMinus_iff]
  rw [← hsign]
  change (if 255 * 2 ^ 23 < x.magnitude then _ else if x.magnitude = 255 * 2 ^ 23 then _
    else if x.magnitude / 2 ^ 23 = 0 then _ else _) = _
  rw [if_neg hfin, if_neg (by omega)]
  split
  next hz =>
    change Reading.finite ⟨_, x.magnitude % 2 ^ 23, -149⟩ = _
    rw [Nat.mod_eq_of_lt (by omega)]
    rfl
  next => rfl

/-- A finite pattern is its exponent field above its fraction. -/
theorem exists_fields (h : x.isFinite = true) : ∃ m k, x.HasFields m k := by
  have hreading := reading_eq h
  rw [isFinite_iff] at h
  have hm := x.toNat_unpackMantissa
  have he := x.toNat_unpackExponent
  have hs := x.ofBitVec_unpackSign
  have ho : @unpackExponent .binary32 x.bits.toBitVec ≠ -1#8 := by
    intro ho
    rw [ho] at he
    change 255 = _ at he
    omega
  by_cases hz : @unpackExponent .binary32 x.bits.toBitVec = 0#8
  · have hzero : x.magnitude / 2 ^ 23 = 0 := by rw [← he, hz]; rfl
    rw [if_pos hzero] at hreading
    refine ⟨x.magnitude, 0, ⟨by omega, by decide, .inr rfl⟩, by omega, hreading, ?_⟩
    rcases Nat.eq_zero_or_pos x.magnitude with hmag | hmag
    · refine .inl ⟨hmag, ?_⟩
      have hf : @unpackMantissa .binary32 x.bits.toBitVec = 0#23 := by
        apply BitVec.eq_of_toNat_eq
        rw [hm, hmag]
        rfl
      rw [number]
      unfold unpack
      dsimp only
      rw [if_neg ho, if_pos hz, dif_pos hf, hs]
    · refine .inr ⟨hmag, ?_⟩
      rw [number, unpack_of_subnormal hz (by omega)]
      exact finite_congr hs (by omega) rfl
  · have hpos : x.magnitude / 2 ^ 23 ≠ 0 := fun h => hz (BitVec.eq_of_toNat_eq (he.trans h))
    rw [if_neg hpos] at hreading
    refine ⟨x.magnitude % 2 ^ 23 + 2 ^ 23, x.magnitude / 2 ^ 23 - 1,
      ⟨by omega, by omega, .inl (Nat.le_add_left ..)⟩, by omega, ?_, .inr ⟨by omega, ?_⟩⟩
    · rw [hreading, Int.add_comm]
      rfl
    · rw [number, unpack_of_normal hz ho]
      exact finite_congr hs (by omega) (by omega)

variable {m k : Nat}

theorem HasFields.isFinite_number (h : x.HasFields m k) : IsFinite x.number := by
  obtain ⟨-, hx⟩ | ⟨hm, hx⟩ := h.number
  · rw [hx]
    exact .zero _
  · rw [hx]
    exact .finite _ m _ hm k rfl h.fits

theorem HasFields.units_number (h : x.HasFields m k) :
    units x.number = x.sign.apply (m * 2 ^ k : Nat) := by
  obtain ⟨rfl, hx⟩ | ⟨hm, hx⟩ := h.number
  · rw [hx, Nat.zero_mul]
    cases x.sign <;> rfl
  · rw [hx, units_finite rfl]

/-- The place of a number is its pattern without the sign, taken with the sign. -/
theorem HasFields.place_number (h : x.HasFields m k) :
    place x.number = x.sign.apply x.magnitude := by
  obtain ⟨hm, hx⟩ | ⟨hm, hx⟩ := h.number
  · have zero : x.magnitude = 0 := by
      have hmag := h.magnitude
      have hnormal := h.fits.normal
      omega
    rw [hx, zero]
    cases x.sign <;> rfl
  · rw [hx, place_finite rfl, h.magnitude]

theorem isFinite_number (h : x.isFinite = true) : IsFinite x.number := by
  obtain ⟨m, k, hx⟩ := exists_fields h
  exact hx.isFinite_number

/-- How far a number is from zero. -/
theorem place_number (h : x.IsNumber) : place x.number = x.sign.apply x.magnitude := by
  by_cases hf : x.isFinite = true
  · obtain ⟨m, k, hx⟩ := exists_fields hf
    exact hx.place_number
  · -- What is not finite and no NaN is an infinity.
    have hn := mt isNaN_iff.mpr (Bool.eq_false_iff.mp (isNaN_of_isNumber h))
    rw [isFinite_iff] at hf
    have hmag : x.magnitude = 255 * 2 ^ 23 := by omega
    have ho : @unpackExponent .binary32 x.bits.toBitVec = -1#8 :=
      BitVec.eq_of_toNat_eq (by rw [toNat_unpackExponent, hmag]; rfl)
    have hz : @unpackMantissa .binary32 x.bits.toBitVec = 0#23 :=
      BitVec.eq_of_toNat_eq (by rw [toNat_unpackMantissa, hmag]; rfl)
    have hx : x.number = .infinity x.sign := by
      rw [number]
      unfold unpack
      dsimp only
      rw [if_pos ho, if_pos hz, x.ofBitVec_unpackSign]
    rw [hx, place_infinity, hmag]
    rfl

theorem isFinite_of_number (h : IsFinite x.number) : x.isFinite = true := by
  have bounds := abs_place_lt h
  rw [place_number h.ne_nan, infinityBits_eq] at bounds
  rw [isFinite_iff]
  cases hs : x.sign <;> rw [hs] at bounds <;> simp only [negative_apply, positive_apply] at bounds <;>
    omega

/-- The total order has the two zeros apart, and is otherwise that of the places. -/
theorem orderKey_eq (h : x.IsNumber) :
    x.orderKey = place x.number - if x.isSignMinus then 1 else 0 := by
  have hlt : x.isSignMinus = false → x.bits.toNat = x.magnitude := by
    intro hs
    have := mt isSignMinus_iff.mpr (Bool.eq_false_iff.mp hs)
    exact (Nat.mod_eq_of_lt (Nat.not_le.mp this)).symm
  rw [orderKey, place_number h, sign]
  cases hs : x.isSignMinus with
  | true =>
    rw [if_pos rfl, if_pos rfl, if_pos rfl, toNat_and_mask]
    rfl
  | false => simp [hlt hs]

theorem le_of_orderKey_le (hx : x.IsNumber) (hy : y.IsNumber) (h : x.orderKey ≤ y.orderKey) :
    x ≤ y := by
  rw [le_iff_place hx hy]
  have hxs := place_number hx
  have hys := place_number hy
  rw [orderKey_eq hx, orderKey_eq hy] at h
  unfold sign at hxs hys
  cases hx' : x.isSignMinus <;> cases hy' : y.isSignMinus <;> simp [hx', hy'] at h hxs hys <;> omega

theorem le_of_lt (h : x < y) : x ≤ y := by
  obtain ⟨hx, hy⟩ := isNumber_of_lt h
  rw [lt_iff_place hx hy] at h
  rw [le_iff_place hx hy]
  exact Int.le_of_lt h

theorem not_le_iff (hx : x.IsNumber) (hy : y.IsNumber) : ¬x ≤ y ↔ y < x := by
  rw [le_iff_place hx hy, lt_iff_place hy hx, Int.not_le]

theorem isFinite_zero : IsFinite (0 : Scalar).number := .zero .positive

/-- A number that is not below zero. -/
theorem nonneg_of_not_neg (hx : x.IsNumber) (h : ¬x < 0) : 0 ≤ x :=
  Classical.byContradiction fun hn => h ((not_le_iff isFinite_zero.ne_nan hx).mp hn)

end EffectMachine.Scalar
