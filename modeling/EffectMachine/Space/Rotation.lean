import EffectMachine.Space.Vec3

namespace EffectMachine

structure Rotation where
  x : Scalar
  y : Scalar
  z : Scalar
  w : Scalar
deriving DecidableEq

namespace Rotation

def identity : Rotation := ⟨0, 0, 0, 1⟩

instance : Inhabited Rotation := ⟨identity⟩

def axis (q : Rotation) : Vec3 := ⟨q.x, q.y, q.z⟩

def apply (q : Rotation) (v : Vec3) : Vec3 :=
  let b := q.axis
  v * (q.w * q.w - b.dot b) + b * (v.dot b * 2) + b.cross v * (q.w * 2)

/-- First `r`, then `q`. -/
instance : Mul Rotation where
  mul q r :=
    ⟨q.w * r.x + q.x * r.w + (q.y * r.z - q.z * r.y),
     q.w * r.y - q.x * r.z + (q.y * r.w + q.z * r.x),
     q.w * r.z + q.x * r.y + (q.z * r.w - q.y * r.x),
     q.w * r.w - q.x * r.x + (-(q.y * r.y) - q.z * r.z)⟩

def aboutVertical (angle : Scalar) : Rotation :=
  let half := angle * 0.5
  ⟨0, half.sin, 0, half.cos⟩

/-- A turn about the vertical axis by `e.y`, then about the turned first axis by `e.x`, then about
the turned third axis by `e.z`. -/
def ofEuler (e : Vec3) : Rotation :=
  let (i, j, h) := (e.y * 0.5, e.x * 0.5, e.z * 0.5)
  let (si, ci) := (i.sin, i.cos)
  let (sj, cj) := (j.sin, j.cos)
  let (sh, ch) := (h.sin, h.cos)
  let (cc, cs, sc, ss) := (ci * ch, ci * sh, si * ch, si * sh)
  ⟨cj * ss + sj * cc, cj * sc - sj * cs, cj * cs - sj * sc, cj * cc + sj * ss⟩

/-- A half turn about an axis square to `v`. -/
private def halfTurn (v : Vec3) : Rotation :=
  let sign : Scalar := if v.z.isSignMinus then -1 else 1
  let a := -1 / (sign + v.z)
  let b := v.x * v.y * a
  let half := Scalar.pi * 0.5
  let o := (⟨b, sign + v.y * v.y * a, -v.y⟩ : Vec3) * half.sin
  ⟨o.x, o.y, o.z, half.cos⟩

/-- The shortest rotation that takes one unit vector to another. -/
def arc (a b : Vec3) : Rotation :=
  let nearOne : Scalar := 1 - 2 * Scalar.epsilon
  let d := a.dot b
  if nearOne < d then identity
  else if d < -nearOne then halfTurn a
  else
    let c := a.cross b
    let w := 1 + d
    let l := (c.x * c.x + c.z * c.z + (c.y * c.y + w * w)).sqrt
    ⟨c.x / l, c.y / l, c.z / l, w / l⟩

end Rotation
end EffectMachine
