import EffectMachine.Particle.Slots
import EffectMachine.World.Attach
import EffectMachine.World.Tick

namespace EffectMachine

structure ParticleBody where
  /-- Position in anchor space. -/
  position : Vec3
  /-- Angles in radians. -/
  rotation : Vec3
  scale : Vec3
  color : Color
  colorMultiplier : Color
  /-- Product of the fades of this tick. -/
  fade : Scalar
  heightOffset : Scalar
  scaleMultiplier : Scalar
  orbitOffset : Vec3
  provider : ResourceId
  /-- Follows the live anchor and not the one at emission. -/
  anchored : Bool
  age : Scalar
  maxAge : Scalar
  forcedExpired : Bool
  expirationHandled : Bool
  restarts : UInt32
  /-- An invisible particle that holds a batch. -/
  carrier : Bool
  emissionAnchor : Anchor
  slots : Slots
  sounds : List SoundHandle
  worldPosition : Vec3
  worldRotation : Rotation
  worldScale : Vec3

structure EmitterBody where
  definition : Generator
  binding : Binding
  /-- The sequence that started the emitter, if one did. -/
  owner : Option SequenceId
  depth : UInt8
  /-- The anchor of the particle that owns the emitter; it replaces attachment. -/
  parentAnchor : Option Anchor
  follow : Option FollowPath
  /-- Length of the emission window. -/
  maxLifetime : Scalar
  lifetime : Scalar
  /-- Frames until the next emission. -/
  countdown : Scalar
  interval : Scalar
  /-- Particles made so far, the batches counted one by one. -/
  emitted : UInt32
  anchor : Anchor
  anchorResolved : Bool
  baseOffset : Vec3
  drift : Vec3
  spin : Vec3
  jitter : Vec3
  /-- The window holds for auto-run generators too. -/
  windowed : Bool
  stopRequested : Bool
  /-- The observer is too far away. -/
  culled : Bool
  /-- A missing anchor was noted. -/
  anchorMissingNoted : Bool

mutual

/-- A particle owns the sub-particles of its batch and emitters of its own. -/
inductive Particle where
  | mk (body : ParticleBody) (children : List Particle) (emitters : List Emitter)

/-- An emitter owns the particles that it has made. -/
inductive Emitter where
  | mk (body : EmitterBody) (particles : List Particle)

end

namespace ParticleBody

def blank (g : Generator) (maxAge : Scalar) (anchor : Anchor) : ParticleBody where
  position := Vec3.zero
  rotation := Vec3.zero
  scale := Vec3.splat g.baseScale
  color := Color.white
  colorMultiplier := Color.white
  fade := 1
  heightOffset := 0
  scaleMultiplier := 1
  orbitOffset := Vec3.zero
  provider := g.provider
  anchored := !g.flags.worldSpace
  age := 0
  maxAge := maxAge
  forcedExpired := false
  expirationHandled := false
  restarts := 0
  carrier := false
  emissionAnchor := anchor
  slots := {}
  sounds := []
  worldPosition := anchor.position
  worldRotation := anchor.orientation
  worldScale := Vec3.one

def normalizedAge (p : ParticleBody) : Scalar :=
  if p.maxAge ≤ 0 then 1 else (p.age / p.maxAge).clamp 0 1

def renderColor (p : ParticleBody) : Color :=
  let c := p.color * p.colorMultiplier
  { c with a := c.a * p.fade }.clamped

/-- The frame in which the emitters of a particle stand. -/
def worldAnchor (p : ParticleBody) : Anchor := ⟨p.worldPosition, p.worldRotation, Vec3.one⟩

def recompute (p : ParticleBody) (anchor : Anchor) : ParticleBody :=
  let base := if p.anchored then anchor else p.emissionAnchor
  let point := p.position + p.orbitOffset + Vec3.up * p.heightOffset
  { p with
    worldPosition := base.transformPoint point
    worldRotation := base.orientation * Rotation.ofEuler p.rotation
    worldScale := p.scale * p.scaleMultiplier * base.scale }

end ParticleBody

namespace EmitterBody

def fresh (g : Generator) (binding : Binding) : EmitterBody where
  definition := g
  binding := binding
  owner := none
  depth := 0
  parentAnchor := none
  follow := none
  maxLifetime := Scalar.ofNat g.maxAge.toNat
  lifetime := 0
  countdown := 0
  interval := Scalar.ofNat g.interval.toNat
  emitted := 0
  anchor := Anchor.identity
  anchorResolved := false
  baseOffset := Vec3.zero
  drift := Vec3.zero
  spin := Vec3.zero
  jitter := Vec3.zero
  windowed := false
  stopRequested := false
  culled := false
  anchorMissingNoted := false

/-- A window of so many frames; without one the age of the particles is the window. -/
def withWindow (e : EmitterBody) (frames : Scalar) : EmitterBody :=
  if 0 < frames then { e with maxLifetime := frames } else e

/-- Emits no more: told to stop, or past its window with at least one particle made. -/
def doneEmitting (e : EmitterBody) : Bool :=
  e.stopRequested ||
    ((!e.definition.flags.autoRun || e.windowed) && e.maxLifetime < e.lifetime && 1 ≤ e.emitted)

def frozen (e : EmitterBody) : Bool :=
  let context := e.binding.context
  e.anchorResolved &&
    (context.snapshotPosition || (context.snapshotJoints && e.definition.attach.usesJoints) ||
      e.definition.generatorUpdaters.contains .snapshotAnchor)

/-- The anchor with offset, drift, spin and jitter. -/
def emissionAnchor (e : EmitterBody) : Anchor where
  position := e.anchor.position + e.anchor.orientation.apply e.baseOffset + e.drift + e.jitter
  orientation := e.anchor.orientation * Rotation.ofEuler e.spin
  scale := e.anchor.scale

end EmitterBody

namespace Emitter

def body : Emitter → EmitterBody
  | mk body _ => body

def particles : Emitter → List Particle
  | mk _ particles => particles

def ofBody (body : EmitterBody) : Emitter := mk body []

def mapBody (f : EmitterBody → EmitterBody) : Emitter → Emitter
  | mk body particles => mk (f body) particles

def doneEmitting (e : Emitter) : Bool := e.body.doneEmitting

def isExpired (e : Emitter) : Bool := e.doneEmitting && e.particles.isEmpty

end Emitter

namespace Particle

def body : Particle → ParticleBody
  | mk body _ _ => body

def children : Particle → List Particle
  | mk _ children _ => children

def emitters : Particle → List Emitter
  | mk _ _ emitters => emitters

/-- A carrier lives as long as its batch. -/
def isExpired (p : Particle) : Bool :=
  p.body.forcedExpired ||
    (if p.body.carrier then p.children.isEmpty else p.body.maxAge ≤ p.body.age)

/-- Expired, and nothing that it started goes on. -/
def isComplete (p : Particle) : Bool :=
  p.isExpired && (p.body.carrier || p.body.expirationHandled) && p.children.isEmpty &&
    p.emitters.isEmpty && p.body.sounds.isEmpty

/-- Seen, and not only a carrier. -/
def isLive (p : Particle) : Bool := !p.body.carrier && !p.isExpired

/-- An invisible particle that holds one emission's batch. -/
def carrierOf (g : Generator) (anchor : Anchor) (children : List Particle) : Particle :=
  mk { ParticleBody.blank g 0 anchor with carrier := true } children []

end Particle

mutual

def Particle.liveCount : Particle → Nat
  | .mk body children emitters =>
    (if (Particle.mk body children emitters).isLive then 1 else 0) + liveInParticles children +
      liveInEmitters emitters

def Emitter.liveCount : Emitter → Nat
  | .mk _ particles => liveInParticles particles

def liveInParticles : List Particle → Nat
  | [] => 0
  | p :: ps => p.liveCount + liveInParticles ps

def liveInEmitters : List Emitter → Nat
  | [] => 0
  | e :: es => e.liveCount + liveInEmitters es

end

mutual

/-- Ends emission in every emitter that a particle or its batch owns. -/
def Particle.stopEmitters : Particle → Particle
  | .mk body children emitters => .mk body (stopInParticles children) (stopEmitters emitters)

def Emitter.stop : Emitter → Emitter
  | .mk body particles => .mk { body with stopRequested := true } (stopInParticles particles)

def stopInParticles : List Particle → List Particle
  | [] => []
  | p :: ps => p.stopEmitters :: stopInParticles ps

def stopEmitters : List Emitter → List Emitter
  | [] => []
  | e :: es => e.stop :: stopEmitters es

end

end EffectMachine
