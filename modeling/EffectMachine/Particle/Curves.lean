import EffectMachine.Number.Scalar

namespace EffectMachine.Curves

/-- Rises from zero at birth to one after so many frames. -/
def fadeIn (age frames : Scalar) : Scalar :=
  if frames ≤ 0 then 1 else (age / frames).clamp 0 1

/-- One until the last frames of life, then down to zero. -/
def fadeOut (age maxAge frames : Scalar) : Scalar :=
  if frames ≤ 0 then 1 else ((maxAge - age) / frames).clamp 0 1

/-- A parabola over `[0, 1]` that is highest in the middle. -/
def arcLift (t height : Scalar) : Scalar := 4 * height * t * (1 - t)

end EffectMachine.Curves
