import EffectMachine.Color
import EffectMachine.Proofs.Stream.Words

namespace EffectMachine.Color

/-- Checked byte by byte, for a channel is a rounded quotient. -/
theorem toByte_ofByte_fin : ∀ n : Fin 256, toByte (ofByte ⟨⟨n⟩⟩) = ⟨⟨n⟩⟩ := by decide +kernel

theorem toByte_ofByte (b : UInt8) : toByte (ofByte b) = b := toByte_ofByte_fin b.toFin

@[simp] theorem toPacked_ofPacked (w : UInt32) : (ofPacked w).toPacked = w := by
  rw [toPacked, ofPacked]
  simp only [toByte_ofByte]
  exact Word.ofBytes_bytes w

def IsPacked (c : Color) : Prop := ∃ w, c = ofPacked w

end EffectMachine.Color
