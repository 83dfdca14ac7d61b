import EffectMachine.Number.Scalar

namespace EffectMachine

structure Vec3 where
  x : Scalar
  y : Scalar
  z : Scalar
deriving DecidableEq

namespace Vec3

def splat (s : Scalar) : Vec3 := ⟨s, s, s⟩
def zero : Vec3 := splat 0
def one : Vec3 := splat 1
def up : Vec3 := ⟨0, 1, 0⟩
def forward : Vec3 := ⟨0, 0, 1⟩

instance : Inhabited Vec3 := ⟨zero⟩
instance : Add Vec3 := ⟨fun a b => ⟨a.x + b.x, a.y + b.y, a.z + b.z⟩⟩
instance : Sub Vec3 := ⟨fun a b => ⟨a.x - b.x, a.y - b.y, a.z - b.z⟩⟩
instance : Neg Vec3 := ⟨fun a => ⟨-a.x, -a.y, -a.z⟩⟩
/-- Factors apply axis by axis. -/
instance : Mul Vec3 := ⟨fun a b => ⟨a.x * b.x, a.y * b.y, a.z * b.z⟩⟩
instance : HMul Vec3 Scalar Vec3 := ⟨fun a s => ⟨a.x * s, a.y * s, a.z * s⟩⟩
instance : HDiv Vec3 Scalar Vec3 := ⟨fun a s => ⟨a.x / s, a.y / s, a.z / s⟩⟩

def dot (a b : Vec3) : Scalar := a.x * b.x + a.y * b.y + a.z * b.z

def cross (a b : Vec3) : Vec3 :=
  ⟨a.y * b.z - b.y * a.z, a.z * b.x - b.z * a.x, a.x * b.y - b.x * a.y⟩

def length (a : Vec3) : Scalar := (a.dot a).sqrt
def distance (a b : Vec3) : Scalar := (a - b).length
def distanceSquared (a b : Vec3) : Scalar := (a - b).dot (a - b)

/-- The point `s` of the way from `a` to `b`. -/
def lerp (a b : Vec3) (s : Scalar) : Vec3 := a * (1 - s) + b * s

/-- Negative parts, and parts that are no numbers, become zero. -/
def nonNegative (a : Vec3) : Vec3 :=
  let lane (s : Scalar) : Scalar := if 0 < s then s else 0
  ⟨lane a.x, lane a.y, lane a.z⟩

def words (a : Vec3) : List UInt32 := [a.x.bits, a.y.bits, a.z.bits]

end Vec3
end EffectMachine
