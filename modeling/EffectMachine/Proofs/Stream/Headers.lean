import EffectMachine.Proofs.Stream.Reading
import EffectMachine.Stream.Header
import EffectMachine.Stream.Writer
import Mathlib.Algebra.Group.Nat.Defs

namespace EffectMachine.Header

open Decoder

theorem routine_reads (opcode size : UInt8) :
    (Header.read .routine).Reads (Writer.word (toRoutineWord ⟨opcode, size, 0⟩))
      ⟨opcode, size, 0⟩ := by
  have h : Writer.word (toRoutineWord ⟨opcode, size, 0⟩) =
      [opcode] ++ ([size] ++ (Word.halfBytes 0 ++ [])) := Word.bytes_ofBytes ..
  rw [h]
  exact (byte_reads opcode).bind ((byte_reads size).bind ((half_reads 0).bind (.pure _)))

variable {h : Header}

/-- With fields in range none reaches into the next. -/
theorem toNat_toPacked (hsize : h.size ≤ maxPackedSize) (hoffset : h.offset ≤ maxPackedOffset) :
    h.toPacked.toNat = 2 ^ 13 * h.offset.toNat + (2 ^ 8 * h.size.toNat + h.opcode.toNat) := by
  have hopcode : h.opcode.toNat < 2 ^ 8 := h.opcode.toNat_lt
  have hs : h.size.toNat ≤ 2 ^ 5 - 1 := hsize
  have ho : h.offset.toNat ≤ 2 ^ 19 - 1 := hoffset
  have hsmask : (h.size &&& maxPackedSize).toNat = h.size.toNat := by
    rw [UInt8.toNat_and]
    change h.size.toNat &&& 2 ^ 5 - 1 = _
    rw [Nat.and_two_pow_sub_one_eq_mod, Nat.mod_eq_of_lt (by omega)]
  have homask : (h.offset &&& maxPackedOffset).toNat = h.offset.toNat := by
    rw [UInt32.toNat_and]
    change h.offset.toNat &&& 2 ^ 19 - 1 = _
    rw [Nat.and_two_pow_sub_one_eq_mod, Nat.mod_eq_of_lt (by omega)]
  have hlow : h.opcode.toNat ||| 2 ^ 8 * h.size.toNat = 2 ^ 8 * h.size.toNat + h.opcode.toNat := by
    rw [Nat.or_comm, Nat.two_pow_add_eq_or_of_lt hopcode]
  have hall : (2 ^ 8 * h.size.toNat + h.opcode.toNat) ||| 2 ^ 13 * h.offset.toNat =
      2 ^ 13 * h.offset.toNat + (2 ^ 8 * h.size.toNat + h.opcode.toNat) := by
    have hlt : 2 ^ 8 * h.size.toNat + h.opcode.toNat < 2 ^ 13 := by omega
    rw [Nat.or_comm]
    exact (Nat.two_pow_add_eq_or_of_lt hlt h.offset.toNat).symm
  rw [← hall, ← hlow, toPacked, UInt32.toNat_or, UInt32.toNat_or, UInt32.toNat_shiftLeft,
    UInt32.toNat_shiftLeft, homask, UInt8.toNat_toUInt32, UInt8.toNat_toUInt32, hsmask,
    Nat.shiftLeft_eq, Nat.shiftLeft_eq]
  change _ ||| h.size.toNat * 2 ^ 8 % 2 ^ 32 ||| h.offset.toNat * 2 ^ 13 % 2 ^ 32 = _
  rw [Nat.mod_eq_of_lt (by omega), Nat.mod_eq_of_lt (by omega), Nat.mul_comm _ (2 ^ 8),
    Nat.mul_comm _ (2 ^ 13)]

/-- A header within its fields comes back from its word. -/
theorem ofPacked_toPacked (hsize : h.size ≤ maxPackedSize) (hoffset : h.offset ≤ maxPackedOffset) :
    ofPacked h.toPacked = h := by
  have hlt : h.opcode.toNat < 2 ^ 8 := h.opcode.toNat_lt
  have hs : h.size.toNat ≤ 2 ^ 5 - 1 := hsize
  have hn := toNat_toPacked hsize hoffset
  have hopcode : h.toPacked.toUInt8 = h.opcode := by
    apply UInt8.toNat_inj.mp
    rw [UInt32.toNat_toUInt8, hn]
    omega
  have hsize : (h.toPacked >>> 8).toUInt8 &&& maxPackedSize = h.size := by
    apply UInt8.toNat_inj.mp
    rw [UInt8.toNat_and, UInt32.toNat_toUInt8, UInt32.toNat_shiftRight, hn,
      Nat.shiftRight_eq_div_pow]
    change _ % 2 ^ 8 &&& 2 ^ 5 - 1 = _
    rw [Nat.and_two_pow_sub_one_eq_mod]
    change _ / 2 ^ 8 % 2 ^ 8 % 2 ^ 5 = _
    omega
  have hoffset : h.toPacked >>> 13 = h.offset := by
    apply UInt32.toNat_inj.mp
    rw [UInt32.toNat_shiftRight, hn, Nat.shiftRight_eq_div_pow]
    change _ / 2 ^ 13 = _
    omega
  rw [ofPacked, hopcode, hsize, hoffset]

def ofArgs (opcode : UInt8) (offset : UInt32) (args : List UInt32) : Header :=
  ⟨opcode, UInt8.ofNat (args.length + 1), offset⟩

theorem packed_reads (hsize : h.size ≤ maxPackedSize) (hoffset : h.offset ≤ maxPackedOffset) :
    (Header.read .particle).Reads (Writer.word h.toPacked) h := by
  have hread := (word_reads h.toPacked).map ofPacked
  rwa [ofPacked_toPacked hsize hoffset] at hread

end EffectMachine.Header
