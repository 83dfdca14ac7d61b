import EffectMachine.Proofs.Number.Sums

namespace EffectMachine.Scalar

open Float.Model (Format UnpackedFloat)
open Float.Model.UnpackedFloat

variable {x y z : Scalar} {a b : Int}

structure IsWhole (x : Scalar) (a : Int) : Prop where
  finite : IsFinite x.number
  units : units x.number = a * 2 ^ 149

theorem IsWhole.le_iff (hx : x.IsWhole a) (hy : y.IsWhole b) : x ≤ y ↔ a ≤ b := by
  rw [le_iff_place hx.finite.ne_nan hy.finite.ne_nan, place_le_iff hx.finite hy.finite, hx.units,
    hy.units]
  exact Int.mul_le_mul_iff_of_pos_right (by decide)

theorem IsWhole.lt_iff (hx : x.IsWhole a) (hy : y.IsWhole b) : x < y ↔ a < b := by
  rw [lt_iff_place hx.finite.ne_nan hy.finite.ne_nan, ← Int.not_le,
    place_le_iff hy.finite hx.finite, hx.units, hy.units,
    Int.mul_le_mul_iff_of_pos_right (by decide), Int.not_le]

theorem IsWhole.max (hx : x.IsWhole a) (hy : y.IsWhole b) : (x.max y).IsWhole (Max.max a b) := by
  rw [Scalar.max, isNaN_of_isNumber hx.finite.ne_nan, isNaN_of_isNumber hy.finite.ne_nan,
    if_neg Bool.false_ne_true, if_neg Bool.false_ne_true]
  split
  next h => rwa [Int.max_eq_right (Int.le_of_lt ((hx.lt_iff hy).mp h))]
  next h => rwa [Int.max_eq_left (Int.not_lt.mp fun hlt => h ((hx.lt_iff hy).mpr hlt))]

/-- Whole numbers of no more than 24 binary places have patterns of their own. -/
theorem exists_whole (n : Nat) (h : n ≤ 2 ^ 24) (s : Sign) :
    ∃ u, IsFinite u ∧ units u = s.apply (n * 2 ^ 149 : Nat) := by
  rcases Nat.eq_zero_or_pos n with rfl | hpos
  · exact ⟨.zero s, .zero s, by cases s <;> rfl⟩
  rcases Nat.lt_or_eq_of_le h with hlt | rfl
  · have hl : n.log2 < 24 := (Nat.log2_lt (Nat.ne_of_gt hpos)).mpr hlt
    have hlow := Nat.log2_self_le (Nat.ne_of_gt hpos)
    have hhigh : n < 2 ^ (n.log2 + 1) := Nat.lt_log2_self
    generalize n.log2 = l at *
    have hm : 0 < n * 2 ^ (23 - l) := Nat.mul_pos hpos (Nat.two_pow_pos _)
    have small : n * 2 ^ (23 - l) < 2 ^ 24 := by
      calc n * 2 ^ (23 - l) < 2 ^ (l + 1) * 2 ^ (23 - l) :=
            Nat.mul_lt_mul_of_pos_right hhigh (Nat.two_pow_pos _)
        _ = 2 ^ 24 := by rw [← Nat.pow_add]; congr 1; omega
    have normal : 2 ^ 23 ≤ n * 2 ^ (23 - l) := by
      calc 2 ^ 23 = 2 ^ l * 2 ^ (23 - l) := by rw [← Nat.pow_add]; congr 1; omega
        _ ≤ n * 2 ^ (23 - l) := Nat.mul_le_mul_right _ hlow
    have he : ((126 + l : Nat) : Int) - 149 = ((126 + l : Nat) : Int) - 149 := rfl
    refine ⟨.finite s _ _ hm, .finite s _ _ hm (126 + l) he ⟨small, by omega, .inl normal⟩, ?_⟩
    rw [units_finite he, Nat.mul_assoc, ← Nat.pow_add, show 23 - l + (126 + l) = 149 by omega]
  · have he : ((150 : Nat) : Int) - 149 = ((150 : Nat) : Int) - 149 := rfl
    refine ⟨.finite s (2 ^ 23) _ (by decide),
      .finite s _ _ _ 150 he ⟨by decide, by decide, .inl (Nat.le_refl _)⟩, ?_⟩
    rw [units_finite he, show 2 ^ 23 * 2 ^ 150 = 2 ^ 24 * 2 ^ 149 by decide]

/-- What has the place of a finite number is that number. -/
theorem units_of_place {u : UnpackedFloat} (hx : x.IsNumber) (hu : IsFinite u)
    (hp : place x.number = place u) : IsFinite x.number ∧ units x.number = units u := by
  have bounds := abs_place_lt hu
  have hf := x.isCanonical_number.finite_of_lt hx (by omega) (by omega)
  exact ⟨hf, Int.le_antisymm ((place_le_iff hf hu).mp (Int.le_of_eq hp))
    ((place_le_iff hu hf).mp (Int.le_of_eq hp.symm))⟩

/-- What rounds to the place of such a number is that number. -/
theorem isWhole_of_place (hx : x.IsNumber) (h : a.natAbs ≤ 2 ^ 24)
    (hp : place x.number = nearestPlace (a * 2 ^ 149)) : x.IsWhole a := by
  have hpow : ((2 ^ 149 : Nat) : Int) = 2 ^ 149 := Int.natCast_pow ..
  have hu : ∃ u, IsFinite u ∧ units u = a * 2 ^ 149 := by
    rcases Int.le_total 0 a with ha | ha
    · obtain ⟨u, hu, hs⟩ := exists_whole a.natAbs h .positive
      refine ⟨u, hu, ?_⟩
      rw [hs, positive_apply, Int.natCast_mul, Int.natAbs_of_nonneg ha, hpow]
    · obtain ⟨u, hu, hs⟩ := exists_whole a.natAbs h .negative
      refine ⟨u, hu, ?_⟩
      rw [hs, negative_apply, Int.natCast_mul, Int.ofNat_natAbs_of_nonpos ha, Int.neg_mul,
        Int.neg_neg, hpow]
  obtain ⟨u, hu, hs⟩ := hu
  rw [← hs, nearestPlace_units hu] at hp
  obtain ⟨hf, hunits⟩ := units_of_place hx hu hp
  exact ⟨hf, hunits.trans hs⟩

/-- Sums of whole numbers are exact as long as they have no more than 24 binary places. -/
theorem IsWhole.add (hx : x.IsWhole a) (hy : y.IsWhole b) (h : (a + b).natAbs ≤ 2 ^ 24) :
    (x + y).IsWhole (a + b) := by
  refine isWhole_of_place (isNumber_add.mpr (add_ne_nan hx.finite hy.finite)) h ?_
  rw [number_add, place_add hx.finite hy.finite, hx.units, hy.units, Int.add_mul]

/-- Differences of whole numbers are exact up to two to the 24th. -/
theorem IsWhole.sub (hx : x.IsWhole a) (hy : y.IsWhole b) (h : (a - b).natAbs ≤ 2 ^ 24) :
    (x - y).IsWhole (a - b) := by
  refine isWhole_of_place (isNumber_sub.mpr ?_) h ?_
  · rw [sub_eq_add_neg]
    exact add_ne_nan hx.finite hy.finite.neg
  · rw [number_sub, place_sub hx.finite hy.finite, hx.units, hy.units, Int.sub_mul]

/-- One as the table of powers of ten holds it. -/
def unity : UnpackedFloat := .finite .positive (2 ^ 23) (-23) (Nat.two_pow_pos 23)

/-- One times a whole number is that number. -/
theorem mul_unity {u : UnpackedFloat} {n : Nat} (hu : IsFinite u)
    (hn : units u = (n : Int) * 2 ^ 149) :
    mul .binary32 u unity ≠ .notANumber ∧
      place (unpack .binary32 (pack .binary32 (mul .binary32 u unity))) = place u := by
  cases hu with
  | zero s => cases s <;> exact ⟨UnpackedFloat.noConfusion, rfl⟩
  | finite s m e hm k he fits =>
    have hk : 23 ≤ k := by
      have hpos : 0 < m * 2 ^ k := Nat.mul_pos hm (Nat.two_pow_pos k)
      rw [units_finite he] at hn
      by_contra hk
      have hle : m * 2 ^ k ≤ 2 ^ 24 * 2 ^ 22 :=
        Nat.mul_le_mul (Nat.le_of_lt fits.mantissa) (Nat.pow_le_pow_right (by decide) (by omega))
      cases s <;> simp only [negative_apply, positive_apply] at hn <;> omega
    have hz : m * 2 ^ 23 * 2 ^ (k - 23) = m * 2 ^ k := by
      rw [Nat.mul_assoc, ← Nat.pow_add, Nat.add_sub_cancel' hk]
    have hl : Layout.lostPlaces (m * 2 ^ 23 * 2 ^ (k - 23)) = k := by
      rw [hz]
      exact Layout.lostPlaces_mul fits.mantissa fits.normal
    have hr := roundWithAccuracy_roundsTo (s := s) (m := m * 2 ^ 23) (j := k - 23) (e := e - 23)
      (Nat.mul_ne_zero (Nat.ne_of_gt hm) (by decide)) (by omega) (by omega)
    have hmul : mul .binary32 (.finite s m e hm) unity =
        roundWithAccuracy .binary32 s (m * 2 ^ 23) (e - 23) .exact := by
      cases s <;> rfl
    rw [hmul]
    refine ⟨hr.ne_nan, ?_⟩
    rw [hr.place_eq, hz, fits.nearest_eq, place_finite he]

/-- A small whole number is read through a table of powers of ten. -/
theorem number_ofNat {n : Nat} (h : n < 2 ^ 23) :
    (ofNat n).number = unpack .binary32 (pack .binary32
      (mul .binary32 (ofValue n.toUInt64.toFloat32).number unity)) := by
  have hf : Float32.ofNat n = n.toUInt64.toFloat32 * Float32.ofBits 1065353216 :=
    dif_pos ⟨h, by decide⟩
  rw [ofNat, hf]
  rfl

/-- Small whole numbers have patterns of their own. -/
theorem isWhole_ofNat {n : Nat} (h : n < 2 ^ 23) : (ofNat n).IsWhole n := by
  have hw : n.toUInt64.toNat = n := Nat.mod_eq_of_lt (Nat.lt_trans h (by decide))
  have habs : (n : Int).natAbs ≤ 2 ^ 24 := by
    rw [Int.natAbs_natCast]
    omega
  have he : (0 : Int) = (149 : Nat) - 149 := rfl
  have hnum : (ofValue n.toUInt64.toFloat32).number = unpack .binary32 (pack .binary32
      (UnpackedFloat.normalize .binary32 n 0 .positive)) := by
    conv_rhs => rw [← hw]
    rfl
  have hnat : (ofValue n.toUInt64.toFloat32).IsWhole n := by
    refine isWhole_of_place ?_ habs ?_
    · rw [IsNumber, hnum]
      exact unpack_pack_ne_nan (normalize_ne_nan he .positive)
    · rw [hnum, place_normalize he]
  obtain ⟨hne, hplace⟩ := mul_unity hnat.finite hnat.units
  refine isWhole_of_place ?_ habs ?_
  · rw [IsNumber, number_ofNat h]
    exact unpack_pack_ne_nan hne
  · rw [number_ofNat h, hplace, ← nearestPlace_units hnat.finite, hnat.units]

theorem isWhole_zero : (0 : Scalar).IsWhole 0 := isWhole_ofNat (by decide)

theorem isWhole_one : (1 : Scalar).IsWhole 1 := isWhole_ofNat (by decide)

theorem lt_add_of_lt (h : x < y) (hz : z.IsWhole a) (ha : 0 ≤ a) : x < y + z := by
  have hy := (isNumber_of_lt h).2
  exact lt_of_lt_of_le h
    (le_add_of_nonneg hy ((isWhole_zero.le_iff hz).mpr ha) (isNumber_add_of_finite hy hz.finite))

end EffectMachine.Scalar
