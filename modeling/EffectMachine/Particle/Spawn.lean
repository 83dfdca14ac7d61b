import EffectMachine.Particle.Basic

namespace EffectMachine

/-- What a particle takes from the emitter that owns it. -/
structure SpawnScope where
  definition : Generator
  binding : Binding
  depth : UInt8

def EmitterBody.scope (e : EmitterBody) : SpawnScope := ⟨e.definition, e.binding, e.depth⟩

namespace ParticleBody

def allocate (p : ParticleBody) (offset : UInt32) (data : SlotData) : Except Fault ParticleBody :=
  (p.slots.allocate offset data).map fun slots => { p with slots }

/-- Runs one initializer. Its draws are spent even when a slot fault follows. -/
def initialized (p : ParticleBody) (g : Generator) (i : Slotted Initializer) :
    Draw (Except Fault ParticleBody) :=
  match i.op with
  | .position offset => return .ok { p with position := offset }
  | .positionJitter extent => do
    let jitter ← Draw.jitter extent
    return .ok { p with position := p.position + jitter }
  | .velocity velocity => return p.allocate i.offset (.velocity { velocity })
  | .velocityJitter extent => do
    let jitter ← Draw.jitter extent
    return do
      let motion ← p.slots.velocity i.offset
      let moved := { motion with velocity := motion.velocity + jitter }
      return { p with slots := p.slots.set i.offset (.velocity moved) }
  | .gravity acceleration => return do
      let motion ← p.slots.velocity i.offset
      return { p with slots := p.slots.set i.offset (.velocity { motion with acceleration }) }
  | .rotation euler => return .ok { p with rotation := euler }
  | .angularVelocity rate => return p.allocate i.offset (.angularVelocity rate)
  | .scale scale => return .ok { p with scale := scale * g.baseScale }
  | .scaleVelocity rate => return p.allocate i.offset (.scaleVelocity rate)
  | .color color => return .ok { p with color }
  | .colorJitter extent => do
    let j ← Draw.jitterColor extent
    let c := p.color
    return .ok { p with color := Color.clamped ⟨c.r + j.r, c.g + j.g, c.b + j.b, c.a + j.a⟩ }
  | .colorTransform target frames =>
    return p.allocate i.offset
      (.colorTransform { start := p.color, target, frames := Scalar.ofNat frames.toNat })
  | .keyFrames set channel => return p.allocate i.offset (.keyFrames { set, channel })
  | .mesh provider => return .ok { p with provider }
  | .childGenerator _ => return .ok p
  | .orbit radius speed phaseJitter => do
    let phase ← Draw.range 0 (phaseJitter.max 0)
    return p.allocate i.offset (.orbit { radius, speed, phase })
  | .sound _ _ => return .ok p
  | .anchorRelative => return .ok { p with anchored := true }

inductive Birth where
  /-- All ran. -/
  | whole (body : ParticleBody)
  /-- A slot fault ended the particle. -/
  | terminated (body : ParticleBody) (fault : Fault)
  | refused (fault : Fault)

def initializedAll (g : Generator) : ParticleBody → List (Slotted Initializer) → Draw Birth
  | p, [] => return .whole p
  | p, i :: is => do
    match ← p.initialized g i with
    | .ok p => p.initializedAll g is
    | .error fault => return if fault.isFatal then .refused fault else .terminated p fault

/-- Starts a generator in the frame of the particle, one level deeper. -/
def emitter? (p : ParticleBody) (scope : SpawnScope) (id : ResourceId) (windowed : Bool) :
    Tick (Option Emitter) := do
  let surroundings ← read
  if surroundings.config.maxNestingDepth ≤ scope.depth then
    Tick.note (.childGeneratorTooDeep id scope.depth)
    return none
  match surroundings.directory.generator? id (.ancestors scope.definition.origin) with
  | none =>
    Tick.note (.childGeneratorMissing id scope.definition.id)
    return none
  | some g =>
    return some <| Emitter.ofBody
      { EmitterBody.fresh g scope.binding with
        depth := scope.depth + 1
        parentAnchor := some p.worldAnchor
        windowed }

/-- Starts the generators and sounds of the initializers, once the particle has its place. -/
def startOwned (scope : SpawnScope) : Particle → List (Slotted Initializer) → Tick Particle
  | p, [] => return p
  | .mk body children emitters, i :: is => do
    match i.op with
    | .childGenerator id =>
      let emitter ← body.emitter? scope id false
      startOwned scope (.mk body children (emitters ++ emitter.toList)) is
    | .sound sound volume =>
      let handle ← Tick.playSound sound body.worldPosition volume none
      startOwned scope (.mk { body with sounds := body.sounds ++ [handle] } children emitters) is
    | _ => startOwned scope (.mk body children emitters) is

/-- A fault ends the particle: it is expired from now on and runs no handler. -/
def terminate (p : ParticleBody) (g : Generator) (fault : Fault) : Tick ParticleBody := do
  Tick.note (.particleTerminated g.id p.age fault)
  return { p with forcedExpired := true }

end ParticleBody

def Particle.spawn (scope : SpawnScope) (maxAge : Scalar) (anchor : Anchor) :
    Tick (Except Fault Particle) := do
  let g := scope.definition
  match ← Tick.draw ((ParticleBody.blank g maxAge anchor).initializedAll g g.initializers) with
  | .whole body =>
    return .ok (← ParticleBody.startOwned scope (.mk (body.recompute anchor) [] []) g.initializers)
  | .terminated body fault => return .ok (.mk (← body.terminate g fault) [] [])
  | .refused fault => return .error fault

end EffectMachine
