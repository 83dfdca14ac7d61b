namespace EffectMachine.Word

def ofBytes (a b c d : UInt8) : UInt32 :=
  a.toUInt32 ||| b.toUInt32 <<< 8 ||| c.toUInt32 <<< 16 ||| d.toUInt32 <<< 24

def bytes (w : UInt32) : List UInt8 :=
  [w.toUInt8, (w >>> 8).toUInt8, (w >>> 16).toUInt8, (w >>> 24).toUInt8]

def halfOfBytes (a b : UInt8) : UInt16 := a.toUInt16 ||| b.toUInt16 <<< 8

/-- Two half words, the first in the low half. -/
def ofHalves (lo hi : UInt16) : UInt32 := lo.toUInt32 ||| hi.toUInt32 <<< 16

def allBytes (ws : List UInt32) : List UInt8 := ws.flatMap bytes

end EffectMachine.Word
