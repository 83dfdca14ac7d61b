import EffectMachine.Space.Rotation

namespace EffectMachine

structure Anchor where
  position : Vec3
  orientation : Rotation := Rotation.identity
  scale : Vec3 := Vec3.one
deriving DecidableEq

namespace Anchor

def identity : Anchor := { position := Vec3.zero }

instance : Inhabited Anchor := ⟨identity⟩

def transformPoint (a : Anchor) (p : Vec3) : Vec3 := a.position + a.orientation.apply (p * a.scale)

/-- Looks from one point to another; a unit length along the third axis spans the gap. -/
def beam (start finish : Vec3) : Anchor :=
  let delta := finish - start
  let distance := delta.length
  let orientation := if Scalar.epsilon < distance then Rotation.arc Vec3.forward (delta / distance)
    else Rotation.identity
  ⟨start, orientation, ⟨1, 1, distance⟩⟩

end Anchor
end EffectMachine
