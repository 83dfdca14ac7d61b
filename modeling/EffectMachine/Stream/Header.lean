import EffectMachine.Stream.Reader

namespace EffectMachine

/-- Opcode zero closes a section in every table. -/
def terminator : UInt8 := 0

/-- Routine streams give a byte to the opcode and a byte to the size; generator streams pack opcode,
size and slot offset into 8, 5 and 19 bits. -/
inductive HeaderFormat where
  | routine
  | particle
deriving DecidableEq

structure Header where
  opcode : UInt8
  /-- Words of the instruction, the header among them. -/
  size : UInt8
  /-- Slot offset; routine headers have none and read as zero. -/
  offset : UInt32
deriving DecidableEq

namespace Header

def maxPackedSize : UInt8 := 0x1F

def maxPackedOffset : UInt32 := 0x7FFFF

def byteLength (h : Header) : Nat := h.size.toNat * 4

def ofPacked (w : UInt32) : Header := ⟨w.toUInt8, (w >>> 8).toUInt8 &&& maxPackedSize, w >>> 13⟩

def toPacked (h : Header) : UInt32 :=
  h.opcode.toUInt32 ||| (h.size &&& maxPackedSize).toUInt32 <<< 8 |||
    (h.offset &&& maxPackedOffset) <<< 13

def toRoutineWord (h : Header) : UInt32 := Word.ofBytes h.opcode h.size 0 0

def toWord : HeaderFormat → Header → UInt32
  | .routine, h => h.toRoutineWord
  | .particle, h => h.toPacked

/-- The last two bytes of a routine header are read and dropped. -/
def readRoutine : Decoder Header := do
  let opcode ← Decoder.byte
  let size ← Decoder.byte
  let _ ← Decoder.half
  return ⟨opcode, size, 0⟩

def readPacked : Decoder Header := return ofPacked (← Decoder.word)

def read : HeaderFormat → Decoder Header
  | .routine => readRoutine
  | .particle => readPacked

end Header
end EffectMachine
