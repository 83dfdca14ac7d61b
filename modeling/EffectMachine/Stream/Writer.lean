import EffectMachine.Stream.Header

namespace EffectMachine.Writer

def word (w : UInt32) : List UInt8 := Word.bytes w

/-- A header, then its words; the size counts them all. -/
def instruction (format : HeaderFormat) (opcode : UInt8) (offset : UInt32) (words : List UInt32) :
    List UInt8 :=
  word (Header.toWord format ⟨opcode, UInt8.ofNat (words.length + 1), offset⟩) ++
    Word.allBytes words

def routine (opcode : UInt8) (delay duration : UInt16) (args : List UInt32) : List UInt8 :=
  instruction .routine opcode 0 (Word.ofHalves delay duration :: args)

/-- A routine header with a size of its own, whatever follows. -/
def routineSized (opcode size : UInt8) (words : List UInt32) : List UInt8 :=
  word (Header.toRoutineWord ⟨opcode, size, 0⟩) ++ Word.allBytes words

def particle (opcode : UInt8) (offset : UInt32) (args : List UInt32) : List UInt8 :=
  instruction .particle opcode offset args

def sectionEnd (format : HeaderFormat) : List UInt8 :=
  word (Header.toWord format ⟨terminator, 1, 0⟩)

end EffectMachine.Writer
