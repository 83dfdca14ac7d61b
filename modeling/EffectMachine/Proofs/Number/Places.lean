import EffectMachine.Proofs.Number.Rounding
import EffectMachine.Proofs.Scalars

namespace EffectMachine.Scalar

open Float.Model (Format UnpackedFloat)
open Float.Model.UnpackedFloat

section Patterns

/-- Fields that a pattern can hold: at most 24 binary places, all of them in use unless the exponent
is the least. -/
structure FitsFields (m : Nat) (k : Nat) : Prop where
  mantissa : m < 2 ^ 24
  exponent : k ≤ 253
  normal : 2 ^ 23 ≤ m ∨ k = 0

/-- A number as it comes out of a pattern. -/
inductive IsCanonical : UnpackedFloat → Prop where
  | notANumber : IsCanonical .notANumber
  | infinity (s : Sign) : IsCanonical (.infinity s)
  | zero (s : Sign) : IsCanonical (.zero s)
  | finite (s : Sign) (m : Nat) (e : Int) (hm : 0 < m) (k : Nat) (he : e = k - 149)
      (fits : FitsFields m k) : IsCanonical (.finite s m e hm)

theorem toNat_fraction (f : BitVec 23) : (1#1 ++ f).toNat = 2 ^ 23 + f.toNat := by
  rw [BitVec.toNat_append, Nat.shiftLeft_eq]
  exact (Nat.two_pow_add_eq_or_of_lt f.isLt 1).symm

theorem finite_congr {s s' : Sign} {m m' : Nat} {e e' : Int} {hm : 0 < m} {hm' : 0 < m'}
    (hs : s = s') (h : m = m') (h' : e = e') :
    UnpackedFloat.finite s m e hm = .finite s' m' e' hm' := by
  subst hs h h'
  rfl

theorem unpack_of_normal {b : BitVec Format.binary32.numBits} (hz : unpackExponent b ≠ 0#8)
    (ho : unpackExponent b ≠ -1#8) :
    unpack .binary32 b = .finite (Sign.ofBitVec (unpackSign b)) (2 ^ 23 + (unpackMantissa b).toNat)
      ((unpackExponent b).toNat - 150) (Nat.add_pos_left (Nat.two_pow_pos 23) _) := by
  unfold unpack
  dsimp only
  rw [if_neg ho, if_neg hz]
  exact finite_congr rfl (toNat_fraction _) rfl

/-- Without an exponent field the mantissa counts units as it stands. -/
theorem unpack_of_subnormal {b : BitVec Format.binary32.numBits} (hz : unpackExponent b = 0#8)
    (hm : 0 < (unpackMantissa b).toNat) :
    unpack .binary32 b =
      .finite (Sign.ofBitVec (unpackSign b)) (unpackMantissa b).toNat (-149) hm := by
  have hne : unpackMantissa b ≠ 0#23 := by
    intro h
    rw [h] at hm
    cases hm
  unfold unpack
  dsimp only
  rw [if_neg (by rw [hz]; decide), if_pos hz, dif_neg hne]
  exact finite_congr rfl rfl (by rw [hz]; rfl)

/-- All bits of the exponent, with a mantissa. -/
theorem unpack_of_notANumber {b : BitVec Format.binary32.numBits}
    (h : 2139095040 < b.toNat % 2147483648) : unpack .binary32 b = .notANumber := by
  have hexponent : unpackExponent b = -1#8 := by
    apply BitVec.eq_of_toNat_eq
    simp only [unpackExponent, BitVec.cast_eq, BitVec.extractLsb_toNat,
      Nat.shiftRight_eq_div_pow, Nat.reduceAdd, Nat.reduceSub, Nat.reducePow]
    change _ = 255
    omega
  have hmantissa : unpackMantissa b ≠ 0#23 := by
    intro hz
    have hm := congrArg BitVec.toNat hz
    simp only [unpackMantissa, BitVec.cast_eq, BitVec.extractLsb_toNat,
      Nat.shiftRight_eq_div_pow, Nat.reduceAdd, Nat.reduceSub, Nat.reducePow] at hm
    change _ = 0 at hm
    omega
  unfold unpack
  dsimp only
  rw [if_pos hexponent, if_neg hmantissa]

/-- Whatever is read from a pattern is canonical. -/
theorem isCanonical_unpack (b : BitVec Format.binary32.numBits) :
    IsCanonical (unpack .binary32 b) := by
  have hm : (unpackMantissa b).toNat < 2 ^ 23 := (unpackMantissa b).isLt
  have he : (unpackExponent b).toNat < 2 ^ 8 := (unpackExponent b).isLt
  by_cases ho : unpackExponent b = -1#8
  · unfold unpack
    dsimp only
    rw [if_pos ho]
    split
    · exact .infinity _
    · exact .notANumber
  have ho' : (unpackExponent b).toNat ≠ 255 := fun h => ho (BitVec.eq_of_toNat_eq h)
  by_cases hz : unpackExponent b = 0#8
  · by_cases hm' : unpackMantissa b = 0#23
    · unfold unpack
      dsimp only
      rw [if_neg ho, if_pos hz, dif_pos hm']
      exact .zero _
    · have hpos : (unpackMantissa b).toNat ≠ 0 := fun h => hm' (BitVec.eq_of_toNat_eq h)
      rw [unpack_of_subnormal hz (Nat.pos_of_ne_zero hpos)]
      exact .finite _ _ _ _ 0 rfl ⟨by omega, by decide, .inr rfl⟩
  · have hz' : (unpackExponent b).toNat ≠ 0 := fun h => hz (BitVec.eq_of_toNat_eq h)
    rw [unpack_of_normal hz ho]
    exact .finite _ _ _ _ ((unpackExponent b).toNat - 1) (by omega)
      ⟨by omega, by omega, .inl (Nat.le_add_right ..)⟩

/-- What fits the fields comes out of its pattern as it was. -/
theorem unpack_pack_finite {s : Sign} {m : Nat} {e : Int} {hm : 0 < m} {k : Nat}
    (he : e = k - 149) (h : FitsFields m k) :
    unpack .binary32 (pack .binary32 (.finite s m e hm)) = .finite s m e hm := by
  obtain ⟨hl, hk, hn⟩ := h
  have hbiased : (e + (Format.binary32.exponentBias : Int) +
      (Format.binary32.mantissaBitsWithoutImplicit : Int)).toNat = k + 1 := by
    change (e + (127 : Int) + (23 : Int)).toNat = k + 1
    omega
  have hmant : (BitVec.ofNat 23 m).toNat = m % 2 ^ 23 := BitVec.toNat_ofNat ..
  have hexp : (BitVec.ofNat 8 (k + 1)).toNat = k + 1 := Nat.mod_eq_of_lt (by omega)
  delta pack
  dsimp only
  rw [hbiased, if_neg (by omega)]
  by_cases hn' : 2 ^ 23 ≤ m
  · have hlog : m.log2 = 23 := (Nat.log2_eq_iff (by omega)).mpr ⟨hn', hl⟩
    rw [if_pos (by rw [hlog]; rfl), unpack_of_normal]
    · refine finite_congr unpackSign_packComponents ?_ ?_
      · rw [unpackMantissa_packComponents, hmant]
        omega
      · rw [unpackExponent_packComponents, hexp]
        omega
    · rw [unpackExponent_packComponents]
      intro hz
      rw [hz] at hexp
      cases hexp
    · rw [unpackExponent_packComponents]
      intro ho
      rw [ho] at hexp
      change 255 = k + 1 at hexp
      omega
  · obtain rfl : k = 0 := hn.resolve_left hn'
    have hlog : m.log2 < 23 := (Nat.log2_lt (by omega)).mpr (by omega)
    rw [if_neg (by change ¬m.log2 + 1 = 1 + 23; omega), unpack_of_subnormal]
    · refine finite_congr unpackSign_packComponents ?_ he.symm
      rw [unpackMantissa_packComponents, hmant]
      omega
    · rw [unpackExponent_packComponents]
    · rw [unpackMantissa_packComponents, hmant]
      omega

/-- What is canonical has a pattern, and is read back from it. -/
theorem IsCanonical.unpack_pack {u : UnpackedFloat} (h : IsCanonical u) :
    unpack .binary32 (pack .binary32 u) = u := by
  cases h with
  | notANumber => rfl
  | infinity s => cases s <;> rfl
  | zero s => cases s <;> rfl
  | finite s m e hm k he fits => exact unpack_pack_finite he fits

end Patterns

section Order

variable {m k m' k' : Nat}

/-- The place of a number among all numbers, with both zeros at zero. -/
def place : UnpackedFloat → Int
  | .notANumber => 0
  | .zero _ => 0
  | .infinity s => s.apply Layout.single.infinityBits
  | .finite s m e _ => s.apply ((e + 149).toNat * 2 ^ 23 + m : Nat)

def units : UnpackedFloat → Int
  | .finite s m e _ => s.apply (m * 2 ^ (e + 149).toNat : Nat)
  | _ => 0

@[simp] theorem positive_apply (n : Int) : Sign.positive.apply n = n := rfl

@[simp] theorem negative_apply (n : Int) : Sign.negative.apply n = -n := rfl

theorem place_zero (s : Sign) : place (.zero s) = 0 := rfl

theorem place_infinity (s : Sign) :
    place (.infinity s) = s.apply Layout.single.infinityBits := rfl

theorem units_zero (s : Sign) : units (.zero s) = 0 := rfl

theorem infinityBits_eq : Layout.single.infinityBits = 255 * 2 ^ 23 := rfl

/-- The place of a finite number counts the patterns below it. -/
theorem place_finite {s : Sign} {e : Int} {hm : 0 < m} (he : e = k - 149) :
    place (.finite s m e hm) = s.apply (k * 2 ^ 23 + m : Nat) := by
  have hk : (e + 149).toNat = k := by omega
  rw [← hk]
  rfl

theorem units_finite {s : Sign} {e : Int} {hm : 0 < m} (he : e = k - 149) :
    units (.finite s m e hm) = s.apply (m * 2 ^ k : Nat) := by
  have hk : (e + 149).toNat = k := by omega
  rw [← hk]
  rfl

/-- The magnitude of a place grows first with the exponent and then with the mantissa. -/
theorem compare_fields (h : FitsFields m k) (h' : FitsFields m' k') :
    (compare ((k : Int) - 149) (k' - 149)).then (compare m m') =
      compare ((k * 2 ^ 23 + m : Nat) : Int) (k' * 2 ^ 23 + m' : Nat) := by
  obtain ⟨hm, -, hn⟩ := h
  obtain ⟨hm', -, hn'⟩ := h'
  rcases Nat.lt_trichotomy k k' with hk | rfl | hk
  · have hp : ((k * 2 ^ 23 + m : Nat) : Int) < (k' * 2 ^ 23 + m' : Nat) := by omega
    rw [Int.compare_eq_lt.mpr (by omega), Int.compare_eq_lt.mpr hp]
    rfl
  · rw [Int.compare_eq_eq.mpr rfl]
    change compare m m' = _
    rcases Nat.lt_trichotomy m m' with h | rfl | h
    · rw [Nat.compare_eq_lt.mpr h, Int.compare_eq_lt.mpr (by omega)]
    · rw [Nat.compare_eq_eq.mpr rfl, Int.compare_eq_eq.mpr rfl]
    · rw [Nat.compare_eq_gt.mpr h, Int.compare_eq_gt.mpr (by omega)]
  · have hp : ((k' * 2 ^ 23 + m' : Nat) : Int) < (k * 2 ^ 23 + m : Nat) := by omega
    rw [Int.compare_eq_gt.mpr (by omega), Int.compare_eq_gt.mpr hp]
    rfl

theorem compare_neg (a b : Int) : compare (-a) (-b) = (compare a b).swap := by
  rcases Int.lt_trichotomy a b with h | rfl | h
  · rw [Int.compare_eq_lt.mpr h, Int.compare_eq_gt.mpr (by omega)]
    rfl
  · rw [Int.compare_eq_eq.mpr rfl, Int.compare_eq_eq.mpr rfl]
    rfl
  · rw [Int.compare_eq_gt.mpr h, Int.compare_eq_lt.mpr (by omega)]
    rfl

/-- Numbers are in the order of their places. -/
theorem compare_eq {u v : UnpackedFloat} (hu : IsCanonical u) (hv : IsCanonical v)
    (hnu : u ≠ .notANumber) (hnv : v ≠ .notANumber) :
    u.compare v = some (compare (place u) (place v)) := by
  cases hu with
  | notANumber => exact absurd rfl hnu
  | infinity s =>
    cases hv with
    | notANumber => exact absurd rfl hnv
    | infinity s' => cases s <;> cases s' <;> rfl
    | zero s' => cases s <;> rfl
    | finite s' m e hm k he fits =>
      obtain ⟨hl, hk, -⟩ := fits
      rw [place_finite he, place_infinity, infinityBits_eq]
      cases s with
      | negative =>
        rw [Int.compare_eq_lt.mpr (by cases s' <;> simp <;> omega)]
        cases s' <;> rfl
      | positive =>
        rw [Int.compare_eq_gt.mpr (by cases s' <;> simp <;> omega)]
        cases s' <;> rfl
  | zero s =>
    cases hv with
    | notANumber => exact absurd rfl hnv
    | infinity s' => cases s' <;> rfl
    | zero s' => rfl
    | finite s' m e hm k he fits =>
      rw [place_finite he, place_zero]
      cases s' with
      | negative =>
        rw [Int.compare_eq_gt.mpr (by simp; omega)]
        rfl
      | positive =>
        rw [Int.compare_eq_lt.mpr (by simp; omega)]
        rfl
  | finite s m e hm k he fits =>
    obtain ⟨hl, hk, -⟩ := id fits
    cases hv with
    | notANumber => exact absurd rfl hnv
    | infinity s' =>
      rw [place_finite he, place_infinity, infinityBits_eq]
      cases s' with
      | negative =>
        rw [Int.compare_eq_gt.mpr (by cases s <;> simp <;> omega)]
        cases s <;> rfl
      | positive =>
        rw [Int.compare_eq_lt.mpr (by cases s <;> simp <;> omega)]
        cases s <;> rfl
    | zero s' =>
      rw [place_finite he, place_zero]
      cases s with
      | negative =>
        rw [Int.compare_eq_lt.mpr (by simp; omega)]
        rfl
      | positive =>
        rw [Int.compare_eq_gt.mpr (by simp; omega)]
        rfl
    | finite s' m' e' hm' k' he' fits' =>
      rw [place_finite he, place_finite he']
      subst he he'
      cases s <;> cases s'
      · rw [negative_apply, negative_apply, compare_neg, ← compare_fields fits fits']
        rfl
      · rw [Int.compare_eq_lt.mpr (by simp; omega)]
        rfl
      · rw [Int.compare_eq_gt.mpr (by simp; omega)]
        rfl
      · rw [positive_apply, positive_apply, ← compare_fields fits fits']
        rfl

end Order

section Finite

variable {m k m' k' : Nat} {u v : UnpackedFloat}

inductive IsFinite : UnpackedFloat → Prop where
  | zero (s : Sign) : IsFinite (.zero s)
  | finite (s : Sign) (m : Nat) (e : Int) (hm : 0 < m) (k : Nat) (he : e = k - 149)
      (fits : FitsFields m k) : IsFinite (.finite s m e hm)

theorem IsFinite.ne_nan {u : UnpackedFloat} (h : IsFinite u) : u ≠ .notANumber := by
  cases h <;> exact UnpackedFloat.noConfusion

/-- Finite numbers have places on this side of infinity. -/
theorem abs_place_lt (h : IsFinite u) :
    -(Layout.single.infinityBits : Int) < place u ∧ place u < Layout.single.infinityBits := by
  rw [infinityBits_eq]
  cases h with
  | zero => exact ⟨show _ < (0 : Int) by decide, show (0 : Int) < _ by decide⟩
  | finite s m e hm k he fits =>
    obtain ⟨hl, hk, -⟩ := fits
    rw [place_finite he]
    cases s <;> simp <;> omega

theorem abs_place_le (h : IsCanonical u) :
    -(Layout.single.infinityBits : Int) ≤ place u ∧ place u ≤ Layout.single.infinityBits := by
  rw [infinityBits_eq]
  cases h with
  | notANumber | zero => exact ⟨show _ ≤ (0 : Int) by decide, show (0 : Int) ≤ _ by decide⟩
  | infinity s => cases s <;> exact ⟨by decide, by decide⟩
  | finite s m e hm k he fits =>
    obtain ⟨hl, hk, -⟩ := fits
    rw [place_finite he]
    cases s <;> simp <;> omega

/-- Between the infinities everything is finite. -/
theorem IsCanonical.finite_of_lt (h : IsCanonical u) (hn : u ≠ .notANumber)
    (hlow : -(Layout.single.infinityBits : Int) < place u)
    (hhigh : place u < Layout.single.infinityBits) : IsFinite u := by
  cases h with
  | notANumber => exact absurd rfl hn
  | infinity s => cases s <;> simp [place_infinity] at hlow hhigh
  | zero s => exact .zero s
  | finite s m e hm k he fits => exact .finite s m e hm k he fits

theorem IsCanonical.eq_infinity (h : IsCanonical u) (hn : u ≠ .notANumber) {s : Sign}
    (hp : place u = s.apply Layout.single.infinityBits) : u = .infinity s := by
  cases h with
  | notANumber => exact absurd rfl hn
  | infinity s' => cases s <;> cases s' <;> first | rfl | cases hp
  | zero => cases s <;> cases hp
  | finite s' m e hm k he fits =>
    have hlt := abs_place_lt (.finite s' m e hm k he fits)
    rw [hp] at hlt
    cases s <;> simp only [negative_apply, positive_apply] at hlt <;> omega

/-- Of two patterns the one at the higher place stands for no fewer units. -/
theorem fields_le {m k m' k' : Nat} (h : FitsFields m k) (h' : FitsFields m' k')
    (hp : k * 2 ^ 23 + m ≤ k' * 2 ^ 23 + m') : m * 2 ^ k ≤ m' * 2 ^ k' := by
  obtain ⟨hm, -, hn⟩ := h
  obtain ⟨hm', -, hn'⟩ := h'
  rcases Nat.lt_trichotomy k k' with hk | rfl | hk
  · calc m * 2 ^ k ≤ 2 ^ 24 * 2 ^ k := Nat.mul_le_mul_right _ (Nat.le_of_lt hm)
      _ = 2 ^ 23 * 2 ^ (k + 1) := by rw [Nat.pow_succ]; omega
      _ ≤ 2 ^ 23 * 2 ^ k' := Nat.mul_le_mul_left _ (Nat.pow_le_pow_right (by decide) hk)
      _ ≤ m' * 2 ^ k' := Nat.mul_le_mul_right _ (by omega)
  · exact Nat.mul_le_mul_right _ (by omega)
  · omega

/-- Places are in the order of the numbers. -/
theorem units_le_of_place_le (hu : IsFinite u) (hv : IsFinite v) (h : place u ≤ place v) :
    units u ≤ units v := by
  cases hu with
  | zero s =>
    cases hv with
    | zero s' => exact Int.le_refl 0
    | finite s' m' e' hm' k' he' fits' =>
      have hpos : 0 < m' * 2 ^ k' := Nat.mul_pos hm' (Nat.two_pow_pos k')
      rw [place_finite he', place_zero] at h
      rw [units_finite he', units_zero]
      cases s' <;> simp only [negative_apply, positive_apply] at h ⊢ <;> omega
  | finite s m e hm k he fits =>
    have hpos : 0 < m * 2 ^ k := Nat.mul_pos hm (Nat.two_pow_pos k)
    cases hv with
    | zero s' =>
      rw [place_finite he, place_zero] at h
      rw [units_finite he, units_zero]
      cases s <;> simp only [negative_apply, positive_apply] at h ⊢ <;> omega
    | finite s' m' e' hm' k' he' fits' =>
      have hpos' : 0 < m' * 2 ^ k' := Nat.mul_pos hm' (Nat.two_pow_pos k')
      rw [place_finite he, place_finite he'] at h
      rw [units_finite he, units_finite he']
      have hle := fields_le fits fits'
      have hge := fields_le fits' fits
      generalize m * 2 ^ k = n at *
      generalize m' * 2 ^ k' = n' at *
      cases s <;> cases s' <;> simp only [negative_apply, positive_apply] at h ⊢ <;> omega

end Finite

section Negation

variable {u : UnpackedFloat}

theorem place_neg (u : UnpackedFloat) : place (UnpackedFloat.neg u) = -place u := by
  cases u with
  | notANumber | zero => rfl
  | infinity s => cases s <;> rfl
  | finite s m e hm =>
    cases s with
    | negative => exact (Int.neg_neg _).symm
    | positive => rfl

theorem units_neg (u : UnpackedFloat) : units (UnpackedFloat.neg u) = -units u := by
  cases u with
  | notANumber | zero | infinity => rfl
  | finite s m e hm =>
    cases s with
    | negative => exact (Int.neg_neg _).symm
    | positive => rfl

theorem IsFinite.neg (h : IsFinite u) : IsFinite (UnpackedFloat.neg u) := by
  cases h with
  | zero s => exact .zero _
  | finite s m e hm k he fits => exact .finite _ m e hm k he fits

theorem IsCanonical.neg (h : IsCanonical u) : IsCanonical (UnpackedFloat.neg u) := by
  cases h with
  | notANumber => exact .notANumber
  | infinity s => exact .infinity _
  | zero s => exact .zero _
  | finite s m e hm k he fits => exact .finite _ m e hm k he fits

end Negation

section Scalars

variable {x y : Scalar}

def number (x : Scalar) : UnpackedFloat := unpack .binary32 x.bits.toBitVec

theorem isCanonical_number (x : Scalar) : IsCanonical x.number := isCanonical_unpack _

theorem unpack_value (x : Scalar) : x.value.toModel.unpack = x.number :=
  x.isCanonical_number.unpack_pack

theorem number_add (x y : Scalar) :
    (x + y).number = unpack .binary32 (pack .binary32 (add .binary32 x.number y.number)) := by
  rw [← unpack_value x, ← unpack_value y]
  rfl

theorem number_sub (x y : Scalar) :
    (x - y).number = unpack .binary32 (pack .binary32 (sub .binary32 x.number y.number)) := by
  rw [← unpack_value x, ← unpack_value y]
  rfl

theorem lt_iff {x y : Scalar} : x < y ↔ x.number.lt y.number = true := by
  rw [← unpack_value x, ← unpack_value y]
  exact ⟨of_decide_eq_true, decide_eq_true⟩

theorem le_iff {x y : Scalar} : x ≤ y ↔ x.number.le y.number = true := by
  rw [← unpack_value x, ← unpack_value y]
  exact ⟨of_decide_eq_true, decide_eq_true⟩

def IsNumber (x : Scalar) : Prop := x.number ≠ .notANumber

theorem compare_number (hx : x.IsNumber) (hy : y.IsNumber) :
    x.number.compare y.number = some (compare (place x.number) (place y.number)) :=
  compare_eq x.isCanonical_number y.isCanonical_number hx hy

theorem lt_iff_place (hx : x.IsNumber) (hy : y.IsNumber) :
    x < y ↔ place x.number < place y.number := by
  rw [lt_iff, UnpackedFloat.lt, compare_number hx hy, ← Int.compare_eq_lt]
  simp

theorem le_iff_place (hx : x.IsNumber) (hy : y.IsNumber) :
    x ≤ y ↔ place x.number ≤ place y.number := by
  rw [le_iff, UnpackedFloat.le, compare_number hx hy, Option.any_some, Int.isLE_compare]

/-- A NaN compares with nothing. -/
theorem isNumber_of_compare {o : Ordering} (h : x.number.compare y.number = some o) :
    x.IsNumber ∧ y.IsNumber := by
  constructor
  · intro hn
    rw [hn] at h
    cases h
  · intro hn
    rw [hn] at h
    generalize x.number = u at h
    cases u <;> cases h

theorem isNumber_of_le (h : x ≤ y) : x.IsNumber ∧ y.IsNumber := by
  rw [le_iff, UnpackedFloat.le, Option.any_eq_true] at h
  obtain ⟨o, h, -⟩ := h
  exact isNumber_of_compare h

theorem isNumber_of_lt (h : x < y) : x.IsNumber ∧ y.IsNumber := by
  rw [lt_iff, UnpackedFloat.lt, beq_iff_eq] at h
  exact isNumber_of_compare h

/-- The order of scalars is transitive; neither scalar can be a NaN. -/
theorem le_trans {z : Scalar} (h : x ≤ y) (h' : y ≤ z) : x ≤ z := by
  obtain ⟨hx, hy⟩ := isNumber_of_le h
  obtain ⟨-, hz⟩ := isNumber_of_le h'
  rw [le_iff_place hx hy] at h
  rw [le_iff_place hy hz] at h'
  rw [le_iff_place hx hz]
  exact Int.le_trans h h'

theorem lt_of_lt_of_le {z : Scalar} (h : x < y) (h' : y ≤ z) : x < z := by
  obtain ⟨hx, hy⟩ := isNumber_of_lt h
  obtain ⟨-, hz⟩ := isNumber_of_le h'
  rw [lt_iff_place hx hy] at h
  rw [le_iff_place hy hz] at h'
  rw [lt_iff_place hx hz]
  exact Int.lt_of_lt_of_le h h'

theorem le_refl (hx : x.IsNumber) : x ≤ x := (le_iff_place hx hx).mpr (Int.le_refl _)

theorem not_lt_iff (hx : x.IsNumber) (hy : y.IsNumber) : ¬x < y ↔ y ≤ x := by
  rw [lt_iff_place hx hy, le_iff_place hy hx, Int.not_lt]

theorem isNumber_of_isNaN (h : x.isNaN = false) : x.IsNumber := unpack_bits_ne_nan h

theorem isNaN_of_isNumber (h : x.IsNumber) : x.isNaN = false := by
  refine eq_false_of_ne_true fun hx => h (unpack_of_notANumber ?_)
  have hmask : x.bits.toNat &&& 2147483647 = x.bits.toNat % 2147483648 :=
    Nat.and_two_pow_sub_one_eq_mod x.bits.toNat 31
  rw [isNaN, decide_eq_true_eq, UInt32.lt_iff_toNat_lt, UInt32.toNat_and] at hx
  exact hmask ▸ hx

/-- A NaN beside one is one. -/
theorem one_le_max (x : Scalar) : 1 ≤ x.max 1 := by
  have one : (1 : Scalar) ≤ 1 := by decide
  have hone : (1 : Scalar).isNaN = false := by decide
  rw [max, hone, if_neg Bool.false_ne_true]
  split
  · exact one
  next hx =>
    split
    · exact one
    next hlt =>
      have number := isNumber_of_isNaN (eq_false_of_ne_true hx)
      exact (not_lt_iff number (isNumber_of_isNaN hone)).mp hlt

end Scalars

end EffectMachine.Scalar
