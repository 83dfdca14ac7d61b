import EffectMachine.Number.Scalar

namespace EffectMachine

/-- A channel runs from zero to one; arithmetic may leave that range. -/
structure Color where
  r : Scalar
  g : Scalar
  b : Scalar
  a : Scalar
deriving DecidableEq

namespace Color

def white : Color := ⟨1, 1, 1, 1⟩
def transparent : Color := ⟨0, 0, 0, 0⟩

instance : Inhabited Color := ⟨white⟩

def map (f : Scalar → Scalar) (c : Color) : Color := ⟨f c.r, f c.g, f c.b, f c.a⟩

/-- Channels multiply one by one. -/
instance : Mul Color := ⟨fun c d => ⟨c.r * d.r, c.g * d.g, c.b * d.b, c.a * d.a⟩⟩

def ofByte (b : UInt8) : Scalar := Scalar.ofNat b.toNat / 255

/-- The byte nearest to a channel held to `[0, 1]`. -/
def toByte (s : Scalar) : UInt8 := (s.clamp 0 1 * 255).round.toByte

/-- The lowest byte of the word is red, the highest is alpha. -/
def ofPacked (word : UInt32) : Color :=
  ⟨ofByte word.toUInt8, ofByte (word >>> 8).toUInt8, ofByte (word >>> 16).toUInt8,
   ofByte (word >>> 24).toUInt8⟩

def toPacked (c : Color) : UInt32 :=
  (toByte c.r).toUInt32 ||| (toByte c.g).toUInt32 <<< 8 ||| (toByte c.b).toUInt32 <<< 16 |||
    (toByte c.a).toUInt32 <<< 24

def lerp (c d : Color) (t : Scalar) : Color :=
  ⟨c.r + (d.r - c.r) * t, c.g + (d.g - c.g) * t, c.b + (d.b - c.b) * t, c.a + (d.a - c.a) * t⟩

def clamped (c : Color) : Color := c.map (·.clamp 0 1)

end Color
end EffectMachine
