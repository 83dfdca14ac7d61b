import EffectMachine.Proofs.Number.Patterns
import EffectMachine.Proofs.Number.Wholes

namespace EffectMachine.Scalar

open Float.Model (Format UnpackedFloat)
open Float.Model.UnpackedFloat

variable {x y z : Scalar}

def IsZero (x : Scalar) : Prop := 0 ≤ x ∧ x ≤ 0

instance (x : Scalar) : Decidable x.IsZero := inferInstanceAs (Decidable (_ ∧ _))

theorem isZero_iff : x.IsZero ↔ ∃ s, x.number = .zero s := by
  rw [IsZero, le_iff, le_iff, show (0 : Scalar).number = .zero .positive from rfl]
  constructor
  · intro ⟨hlow, hhigh⟩
    generalize x.number = u at hlow hhigh ⊢
    cases u with
    | notANumber => cases hlow
    | zero s => exact ⟨s, rfl⟩
    | infinity s | finite s =>
      cases s with
      | positive => cases hhigh
      | negative => cases hlow
  · rintro ⟨s, hs⟩
    rw [hs]
    exact ⟨rfl, rfl⟩

theorem IsZero.isWhole (h : x.IsZero) : x.IsWhole 0 := by
  obtain ⟨s, hs⟩ := isZero_iff.mp h
  exact ⟨hs ▸ .zero s, by rw [hs]; rfl⟩

theorem isZero_of_number {s : Sign}
    (h : x.number = unpack .binary32 (pack .binary32 (.zero s))) : x.IsZero :=
  isZero_iff.mpr ⟨s, h.trans (IsCanonical.zero s).unpack_pack⟩

theorem number_mul (x y : Scalar) :
    (x * y).number = unpack .binary32 (pack .binary32 (mul .binary32 x.number y.number)) := by
  rw [← unpack_value x, ← unpack_value y]
  rfl

/-- Nothing at a finite rate is nothing. -/
theorem IsZero.mul (hx : x.IsZero) (hy : y.isFinite = true) : (x * y).IsZero := by
  obtain ⟨s, hs⟩ := isZero_iff.mp hx
  have hn := number_mul x y
  rw [hs] at hn
  have hf := isFinite_number hy
  generalize y.number = v at hn hf
  cases hf <;> exact isZero_of_number hn

/-- Nothing at any other rate is no number. -/
theorem IsZero.mul_not_number (hx : x.IsZero) (hy : y.isFinite = false) : ¬(x * y).IsNumber := by
  obtain ⟨s, hs⟩ := isZero_iff.mp hx
  have hn := number_mul x y
  rw [hs] at hn
  have hnot : ¬IsFinite y.number := fun hf => by
    rw [isFinite_of_number hf] at hy
    cases hy
  have hc := y.isCanonical_number
  generalize y.number = v at hn hnot hc
  have hnan : (x * y).number = unpack .binary32 (pack .binary32 .notANumber) := by
    cases hc with
    | notANumber | infinity => exact hn
    | zero s => exact absurd (.zero s) hnot
    | finite s m e hm k he fits => exact absurd (.finite s m e hm k he fits) hnot
  intro hx
  exact hx (hnan.trans IsCanonical.notANumber.unpack_pack)

/-- To add nothing to a number below zero leaves it there. -/
theorem add_zero_neg (hx : x < 0) (hz : z.IsZero) : x + z < 0 := by
  obtain ⟨s, hs⟩ := isZero_iff.mp hz
  have hadd : (x + z).number = x.number := by
    rw [number_add, hs]
    have hb := lt_iff.mp hx
    rw [show (0 : Scalar).number = .zero .positive from rfl] at hb
    have hc := x.isCanonical_number
    generalize x.number = u at hb hc ⊢
    cases u with
    | notANumber | zero => cases hb
    | infinity | finite => exact hc.unpack_pack
  rw [lt_iff, hadd]
  exact lt_iff.mp hx

theorem IsZero.add (hx : x.IsZero) (hz : z.IsZero) : (x + z).IsWhole 0 :=
  hx.isWhole.add hz.isWhole (by decide)

/-- A delay leaves nothing in debt. -/
theorem IsWhole.sub_delay_neg (hx : x.IsWhole 0) {delay : UInt16} (hd : 0 < delay) :
    x - ofNat delay.toNat < 0 := by
  have hpos : 0 < delay.toNat := hd
  have hlt : delay.toNat < 2 ^ 16 := delay.toNat_lt
  have hsub := hx.sub (isWhole_ofNat (Nat.lt_trans hlt (by decide))) (by omega)
  rw [hsub.lt_iff isWhole_zero]
  omega

theorem not_neg_of_not_number (hx : ¬x.IsNumber) : ¬x < 0 := fun h => hx (isNumber_of_lt h).1

end EffectMachine.Scalar
