import EffectMachine.Number.Scalar

namespace EffectMachine.Scalar

open Float.Model (Format UnpackedFloat)
open Float.Model.UnpackedFloat

/-- A pattern reads as a NaN only with all ones for an exponent and some mantissa. -/
theorem unpack_eq_nan {b : BitVec Format.binary32.numBits}
    (h : unpack .binary32 b = .notANumber) :
    unpackExponent b = -1#8 ∧ unpackMantissa b ≠ 0#23 := by
  unfold unpack at h
  dsimp only at h
  by_cases he : unpackExponent b = -1#8
  case pos =>
    rw [if_pos he] at h
    by_cases hm : unpackMantissa b = 0#23
    · rw [if_pos hm] at h
      cases h
    · exact ⟨he, hm⟩
  rw [if_neg he] at h
  by_cases hz : unpackExponent b = 0#8
  case neg =>
    rw [if_neg hz] at h
    cases h
  rw [if_pos hz] at h
  by_cases hm : unpackMantissa b = 0#23
  · rw [dif_pos hm] at h
    cases h
  · rw [dif_neg hm] at h
    cases h

theorem unpack_packComponents_ne_nan {s : Sign} {e : BitVec 8} {m : BitVec 23}
    (h : e = -1#8 → m = 0#23) :
    unpack .binary32 (packComponents .binary32 s e m) ≠ .notANumber := by
  intro hnan
  obtain ⟨he, hm⟩ := unpack_eq_nan hnan
  rw [unpackExponent_packComponents] at he
  rw [unpackMantissa_packComponents] at hm
  exact hm (h he)

/-- What is a number is packed as one. -/
theorem unpack_pack_ne_nan {u : UnpackedFloat} (hu : u ≠ .notANumber) :
    unpack .binary32 (pack .binary32 u) ≠ .notANumber := by
  cases u with
  | notANumber => exact absurd rfl hu
  | infinity s => exact unpack_packComponents_ne_nan fun _ => rfl
  | zero s => exact unpack_packComponents_ne_nan fun _ => rfl
  | finite s m e hm =>
    delta pack
    dsimp only
    split
    · exact unpack_packComponents_ne_nan fun _ => rfl
    next hfits =>
      split
      · refine unpack_packComponents_ne_nan fun he => absurd (congrArg BitVec.toNat he) ?_
        rw [BitVec.toNat_ofNat]
        change ¬ _ % 2 ^ 8 = 255
        change ¬ 2 ^ 8 ≤ _ at hfits
        omega
      · refine unpack_packComponents_ne_nan fun he => absurd he ?_
        decide

/-- A scalar that is no NaN reads as a number. -/
theorem unpack_bits_ne_nan {x : Scalar} (hx : x.isNaN = false) :
    unpack .binary32 x.bits.toBitVec ≠ .notANumber := by
  intro hnan
  obtain ⟨hexponent, hmantissa⟩ := unpack_eq_nan hnan
  have he := congrArg BitVec.toNat hexponent
  have hm := fun h => hmantissa (BitVec.eq_of_toNat_eq h)
  have hmask : x.bits.toNat &&& 2147483647 = x.bits.toNat % 2147483648 :=
    Nat.and_two_pow_sub_one_eq_mod x.bits.toNat 31
  rw [isNaN, decide_eq_false_iff_not, UInt32.lt_iff_toNat_lt, UInt32.toNat_and] at hx
  simp only [unpackExponent, unpackMantissa, BitVec.cast_eq, BitVec.extractLsb_toNat,
    UInt32.toNat_toBitVec, Nat.shiftRight_eq_div_pow, Nat.reduceAdd, Nat.reduceSub,
    Nat.add_one_sub_one, Nat.reducePow, Nat.sub_zero, Nat.pow_zero, Nat.div_one,
    BitVec.reduceNeg, BitVec.toNat_ofNat, Nat.mod_succ, Nat.zero_mod, imp_false] at he hm
  change ¬ 2139095040 < _ &&& 2147483647 at hx
  omega

/-- A pattern that is not one of a NaN stands for a number. -/
theorem unpack_value_ne_nan {x : Scalar} (hx : x.isNaN = false) :
    x.value.toModel.unpack ≠ .notANumber :=
  unpack_pack_ne_nan (unpack_bits_ne_nan hx)

/-- A number that is not above zero is at most zero. -/
theorem le_zero_of_not_pos {u : UnpackedFloat} (hu : u ≠ .notANumber)
    (h : (UnpackedFloat.zero .positive).lt u = false) : u.le (.zero .positive) = true := by
  cases u with
  | notANumber => exact absurd rfl hu
  | zero s => rfl
  | infinity s =>
    cases s with
    | positive => cases h
    | negative => rfl
  | finite s m e hm =>
    cases s with
    | positive => cases h
    | negative => rfl

/-- With a NaN the smaller of both is zero. -/
theorem min_zero_le (x : Scalar) : x.min 0 ≤ 0 := by
  have hzero : (0 : Scalar) ≤ 0 := by decide
  rw [min]
  split
  · exact hzero
  next hx =>
    rw [if_neg (show ¬ (0 : Scalar).isNaN = true by decide)]
    split
    · exact hzero
    next hpos =>
      have hnot : (UnpackedFloat.zero .positive).lt x.value.toModel.unpack = false := by
        rw [Bool.eq_false_iff]
        intro hlt
        exact hpos (decide_eq_true hlt)
      have hle := le_zero_of_not_pos (unpack_value_ne_nan (eq_false_of_ne_true hx)) hnot
      exact decide_eq_true hle

section Below

/-- Is it a number with a negative sign, and no zero? -/
def isBelow : UnpackedFloat → Bool
  | .infinity .negative => true
  | .finite .negative .. => true
  | _ => false

theorem lt_zero_eq (u : UnpackedFloat) : u.lt (.zero .positive) = isBelow u := by
  cases u with
  | notANumber | zero => rfl
  | infinity s => cases s <;> rfl
  | finite s => cases s <;> rfl

theorem lt_zero_iff {x : Scalar} : x < 0 ↔ isBelow x.value.toModel.unpack = true := by
  rw [← lt_zero_eq]
  exact ⟨of_decide_eq_true, decide_eq_true⟩

theorem unpackSign_packComponents {s : Sign} {e : BitVec 8} {m : BitVec 23} :
    Sign.ofBitVec (unpackSign (packComponents .binary32 s e m)) = s := by
  unfold unpackSign packComponents BitVec.extractLsb
  rw [BitVec.extractLsb'_append_eq_of_le (by decide),
    BitVec.extractLsb'_append_eq_of_le (by decide)]
  cases s <;> rfl

theorem isBelow_finite {s : Sign} {m : Nat} {e : Int} {hm : 0 < m}
    (h : isBelow (.finite s m e hm) = true) : s = .negative := by
  cases s with
  | negative => rfl
  | positive => cases h

/-- What stands for a number below zero has the sign bit, and is not a zero. -/
theorem of_isBelow_unpack {b : BitVec Format.binary32.numBits}
    (h : isBelow (unpack .binary32 b) = true) :
    Sign.ofBitVec (unpackSign b) = .negative ∧
      ¬(unpackExponent b = 0#8 ∧ unpackMantissa b = 0#23) := by
  unfold unpack at h
  dsimp only at h
  by_cases he : unpackExponent b = -1#8
  · rw [if_pos he] at h
    refine ⟨?_, fun hz => absurd (he.symm.trans hz.1) (by decide)⟩
    split at h
    · generalize Sign.ofBitVec (unpackSign b) = s at h
      cases s with
      | negative => rfl
      | positive => cases h
    · cases h
  · rw [if_neg he] at h
    by_cases hz : unpackExponent b = 0#8
    · rw [if_pos hz] at h
      by_cases hm : unpackMantissa b = 0#23
      · rw [dif_pos hm] at h
        cases h
      · rw [dif_neg hm] at h
        exact ⟨isBelow_finite h, fun hz => hm hz.2⟩
    · rw [if_neg hz] at h
      exact ⟨isBelow_finite h, fun h => hz h.1⟩

theorem of_isBelow_packComponents {s : Sign} {e : BitVec 8} {m : BitVec 23}
    (h : isBelow (unpack .binary32 (packComponents .binary32 s e m)) = true) :
    s = .negative ∧ ¬(e = 0#8 ∧ m = 0#23) := by
  have hb := of_isBelow_unpack h
  rwa [unpackSign_packComponents, unpackExponent_packComponents, unpackMantissa_packComponents]
    at hb

/-- Packing makes nothing fall below zero. -/
theorem of_isBelow_pack {u : UnpackedFloat}
    (h : isBelow (unpack .binary32 (pack .binary32 u)) = true) : isBelow u = true := by
  cases u with
  | notANumber => cases (of_isBelow_packComponents h).1
  | infinity s => rw [(of_isBelow_packComponents h).1]; rfl
  | zero s => exact absurd ⟨rfl, rfl⟩ (of_isBelow_packComponents h).2
  | finite s m e hm =>
    suffices hs : s = .negative by rw [hs]; rfl
    delta pack at h
    dsimp only at h
    split at h
    · exact (of_isBelow_packComponents h).1
    · split at h
      · exact (of_isBelow_packComponents h).1
      · exact (of_isBelow_packComponents h).1

theorem isBelow_roundWithAccuracy (f : Format) (m : Nat) (e : Int) (a : Accuracy) :
    isBelow (roundWithAccuracy f .positive m e a) = false := by
  unfold roundWithAccuracy
  dsimp only
  -- No number with this sign is below zero, whichever it is.
  rw [apply_dite isBelow]
  exact (dite_eq_ite (a := false) (b := false)).trans (ite_self false)

theorem isBelow_normalize (f : Format) {m : Int} (e : Int) (hm : 0 ≤ m) :
    isBelow (UnpackedFloat.normalize f m e .positive) = false := by
  unfold UnpackedFloat.normalize
  split
  next h => exact absurd (Int.compare_eq_lt.mp h) (Int.not_lt.mpr hm)
  next => rfl
  next => exact isBelow_roundWithAccuracy ..

/-- What is not below zero: no number, or one without a negative sign, or a zero. -/
inductive NotBelow : UnpackedFloat → Prop where
  | notANumber : NotBelow .notANumber
  | zero (s : Sign) : NotBelow (.zero s)
  | infinity : NotBelow (.infinity .positive)
  | finite (m : Nat) (e : Int) (hm : 0 < m) : NotBelow (.finite .positive m e hm)

theorem notBelow_of_isBelow {u : UnpackedFloat} (h : isBelow u = false) : NotBelow u := by
  cases u with
  | notANumber => exact .notANumber
  | zero s => exact .zero s
  | infinity s =>
    cases s with
    | negative => cases h
    | positive => exact .infinity
  | finite s m e hm =>
    cases s with
    | negative => cases h
    | positive => exact .finite m e hm

theorem isBelow_add (f : Format) {u v : UnpackedFloat} (hu : NotBelow u) (hv : NotBelow v) :
    isBelow (add f u v) = false := by
  cases hu with
  | notANumber => rfl
  | infinity => cases hv <;> rfl
  | zero s =>
    cases hv with
    | zero s' => cases s <;> cases s' <;> rfl
    | _ => rfl
  | finite m e hm =>
    cases hv with
    | finite =>
      exact isBelow_normalize _ _ (Int.add_nonneg (Int.natCast_nonneg _) (Int.natCast_nonneg _))
    | _ => rfl

theorem isBelow_mul (f : Format) {u v : UnpackedFloat} (hu : NotBelow u) (hv : NotBelow v) :
    isBelow (mul f u v) = false := by
  cases hu with
  | notANumber => rfl
  | infinity | zero => cases hv <;> rfl
  | finite m e hm =>
    cases hv with
    | finite => exact isBelow_roundWithAccuracy ..
    | _ => rfl

theorem isBelow_sub_zero (f : Format) {u : UnpackedFloat} (hu : NotBelow u) :
    isBelow (sub f u (.zero .positive)) = false := by
  cases hu with
  | zero s => cases s <;> rfl
  | _ => rfl

variable {x y : Scalar}

theorem notBelow_of_not_neg (h : ¬x < 0) : NotBelow x.value.toModel.unpack :=
  notBelow_of_isBelow (eq_false_of_ne_true fun hb => h (lt_zero_iff.mpr hb))

/-- A result that was rounded is below zero only if it was so before. -/
theorem not_neg_of_packed {u : UnpackedFloat} (hu : isBelow u = false)
    (hx : x.value.toModel.unpack = unpack .binary32 (pack .binary32 (unpack .binary32
      (pack .binary32 u)))) : ¬x < 0 := by
  rw [lt_zero_iff, hx]
  exact fun hb => absurd (of_isBelow_pack (of_isBelow_pack hb)) (by simp [hu])

theorem add_not_neg (hx : ¬x < 0) (hy : ¬y < 0) : ¬x + y < 0 :=
  not_neg_of_packed (isBelow_add .binary32 (notBelow_of_not_neg hx) (notBelow_of_not_neg hy)) rfl

theorem mul_not_neg (hx : ¬x < 0) (hy : ¬y < 0) : ¬x * y < 0 :=
  not_neg_of_packed (isBelow_mul .binary32 (notBelow_of_not_neg hx) (notBelow_of_not_neg hy)) rfl

theorem sub_zero_not_neg (hx : ¬x < 0) : ¬x - 0 < 0 :=
  not_neg_of_packed (isBelow_sub_zero .binary32 (notBelow_of_not_neg hx)) rfl

theorem min_zero_not_neg (hx : ¬x < 0) : ¬x.min 0 < 0 := by
  have hzero : ¬(0 : Scalar) < 0 := by decide
  rw [min]
  split
  · exact hzero
  · rw [if_neg (show ¬(0 : Scalar).isNaN = true by decide)]
    split
    · exact hzero
    · exact hx

theorem max_zero_not_neg (x : Scalar) : ¬x.max 0 < 0 := by
  have hzero : ¬(0 : Scalar) < 0 := by decide
  rw [max]
  split
  · exact hzero
  · rw [if_neg (show ¬(0 : Scalar).isNaN = true by decide)]
    split
    · exact hzero
    · assumption

/-- Zero and what is above it are not below zero. -/
theorem not_neg_of_nonneg (hx : 0 ≤ x) : ¬x < 0 := by
  rw [lt_zero_iff]
  have hle : (UnpackedFloat.zero .positive).le x.value.toModel.unpack = true :=
    of_decide_eq_true hx
  generalize x.value.toModel.unpack = u at hle
  cases u with
  | notANumber | zero => exact Bool.false_ne_true
  | infinity s | finite s =>
    cases s with
    | negative => cases hle
    | positive => exact Bool.false_ne_true

end Below

end EffectMachine.Scalar
