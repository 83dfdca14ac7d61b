import EffectMachine.Particle.Basic

namespace EffectMachine

structure Instance where
  position : Vec3
  normalizedAge : Scalar
  scale : Vec3
  /-- The word of the provider's name. -/
  provider : UInt32
  color : Color
  rotation : Rotation
deriving DecidableEq

def Instance.byteSize : Nat := 64

def ParticleBody.toInstance (p : ParticleBody) : Instance where
  position := p.worldPosition
  normalizedAge := p.normalizedAge
  scale := p.worldScale
  provider := p.provider.toWord
  color := p.renderColor
  rotation := p.worldRotation

mutual

/-- The particle itself, then its batch, then its emitters. -/
def Particle.instances : Particle → List Instance
  | .mk body children emitters =>
    (if (Particle.mk body children emitters).isLive then [body.toInstance] else []) ++
      instancesOfParticles children ++ instancesOfEmitters emitters

def Emitter.instances : Emitter → List Instance
  | .mk _ particles => instancesOfParticles particles

def instancesOfParticles : List Particle → List Instance
  | [] => []
  | p :: ps => p.instances ++ instancesOfParticles ps

def instancesOfEmitters : List Emitter → List Instance
  | [] => []
  | e :: es => e.instances ++ instancesOfEmitters es

end

end EffectMachine
