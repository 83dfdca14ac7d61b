import EffectMachine.Color
import EffectMachine.Space.Vec3

namespace EffectMachine

/-- The one source of randomness of a simulation: a 32-bit xorshift generator. Every draw of an
activation comes from it, in the order of execution. -/
structure Rng where
  state : UInt32
deriving DecidableEq

namespace Rng

/-- Zero would stay zero for ever, so it stands for one. -/
def ofSeed (seed : UInt32) : Rng := ⟨if seed = 0 then 1 else seed⟩

def mix (x : UInt32) : UInt32 :=
  let x := x ^^^ (x <<< 13)
  let x := x ^^^ (x >>> 17)
  x ^^^ (x <<< 5)

end Rng

abbrev Draw := StateM Rng

namespace Draw

def word : Draw UInt32 := fun g =>
  let x := Rng.mix g.state
  (x, ⟨x⟩)

/-- A number in `[0, 1)` from the 24 high bits of a word. -/
def unit : Draw Scalar := return Scalar.ofNat ((← word) >>> 8).toNat / Scalar.ofNat 0x1000000

def range (lo hi : Scalar) : Draw Scalar := return lo + (← unit) * (hi - lo)

/-- A whole number in `[0, bound)`; without a draw zero when there is none. -/
def below (bound : Int32) : Draw Int32 :=
  if bound ≤ 0 then pure 0 else return ((← word) % bound.toUInt32).toInt32

/-- A whole number of frames in `[0, variance]`. -/
def variance (variance : UInt16) : Draw Scalar :=
  if variance = 0 then pure 0
  else return Scalar.ofInt (← below (Int32.ofNat (variance.toNat + 1))).toInt

def jitter (extent : Vec3) : Draw Vec3 := do
  let x ← range (-extent.x) extent.x
  let y ← range (-extent.y) extent.y
  let z ← range (-extent.z) extent.z
  return ⟨x, y, z⟩

def jitterColor (extent : Color) : Draw Color := do
  let r ← range (-extent.r) extent.r
  let g ← range (-extent.g) extent.g
  let b ← range (-extent.b) extent.b
  let a ← range (-extent.a) extent.a
  return ⟨r, g, b, a⟩

/-- The point of the unit sphere above a point of the unit disc, if it is one. -/
def onSphere? (x y : Scalar) : Option Vec3 :=
  let s := x * x + y * y
  if s < 1 then
    let factor := 2 * (1 - s).sqrt
    some ⟨x * factor, y * factor, 1 - 2 * s⟩
  else none

/-- Draws pairs until one lies in the unit disc, at most so many. -/
def directionWithin : Nat → Draw (Option Vec3)
  | 0 => pure none
  | pairs + 1 => do
    let x ← range (-1) 1
    let y ← range (-1) 1
    match onSphere? x y with
    | some d => return some d
    | none => directionWithin pairs

/-- A direction, evenly spread. There are no more states than pairs are allowed, so a run that has
found none would never find one. -/
def direction : Draw Vec3 := return (← directionWithin 0x100000000).getD Vec3.zero

def inSphere (radius : Scalar) : Draw Vec3 := do
  let d ← direction
  return d * (← unit).cbrt * radius

end Draw
end EffectMachine
