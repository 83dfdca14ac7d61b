import EffectMachine.Particle.Spawn

namespace EffectMachine

namespace ParticleBody

def applyChannel (p : ParticleBody) (channel : KeyFrameChannel) (value : Scalar) : ParticleBody :=
  match channel with
  | .alpha => { p with fade := p.fade * value }
  | .scale => { p with scaleMultiplier := value }
  | .height => { p with heightOffset := value }
  | .colorMultiplier => { p with colorMultiplier := ⟨value, value, value, 1⟩ }

/-- Looks a key-frame set up at its first use; a set that is not there is noted once. -/
def lookUp (g : Generator) (track : KeyFrameTrack) : Tick KeyFrameTrack := do
  match track.lookup with
  | .pending =>
    match (← read).directory.keyFrames? track.set (.ancestors g.origin) with
    | some set => return { track with lookup := .found set }
    | none =>
      Tick.note (.keyFramesMissing g.id track.set)
      return { track with lookup := .missing }
  | _ => return track

def applyKeyFrames (p : ParticleBody) (g : Generator) (offset : UInt32) :
    Tick (Except Fault ParticleBody) := do
  match p.slots.keyFrames offset with
  | .error fault => return .error fault
  | .ok track =>
    let track ← lookUp g track
    let q := { p with slots := p.slots.set offset (.keyFrames track) }
    match track.lookup with
    | .found set => return .ok (q.applyChannel track.channel (set.sample p.normalizedAge))
    | _ => return .ok q

def updated (p : ParticleBody) (elapsed : Scalar) (u : Slotted Updater) :
    Except Fault ParticleBody :=
  match u.op with
  | .applyVelocity => do
    let motion ← p.slots.velocity u.offset
    let velocity := motion.velocity + motion.acceleration * elapsed
    return { p with
      slots := p.slots.set u.offset (.velocity { motion with velocity })
      position := p.position + velocity * elapsed }
  | .damping factor => do
    let motion ← p.slots.velocity u.offset
    let velocity := motion.velocity * (1 - factor * elapsed).max 0
    return { p with slots := p.slots.set u.offset (.velocity { motion with velocity }) }
  | .applyAngularVelocity => do
    let rate ← p.slots.angularVelocity u.offset
    return { p with rotation := p.rotation + rate * elapsed }
  | .applyScaleVelocity => do
    let rate ← p.slots.scaleVelocity u.offset
    return { p with scale := (p.scale + rate * elapsed).nonNegative }
  | .applyColorTransform => do
    let transform ← p.slots.colorTransform u.offset
    let transform := { transform with elapsed := transform.elapsed + elapsed }
    return { p with
      slots := p.slots.set u.offset (.colorTransform transform)
      color := transform.current }
  | .applyKeyFrames => return p
  | .applyOrbit => do
    let orbit ← p.slots.orbit u.offset
    let phase := orbit.phase + orbit.speed * elapsed
    return { p with
      slots := p.slots.set u.offset (.orbit { orbit with phase })
      orbitOffset := (⟨phase.cos, 0, phase.sin⟩ : Vec3) * orbit.radius }
  | .fadeOut frames =>
    return { p with fade := p.fade * Curves.fadeOut p.age p.maxAge (Scalar.ofNat frames.toNat) }
  | .fadeIn frames =>
    return { p with fade := p.fade * Curves.fadeIn p.age (Scalar.ofNat frames.toNat) }

def applyUpdater (p : ParticleBody) (g : Generator) (elapsed : Scalar) (u : Slotted Updater) :
    Tick (Except Fault ParticleBody) :=
  if u.op = .applyKeyFrames then p.applyKeyFrames g u.offset else return p.updated elapsed u

/-- Runs updaters in order until one faults, which ends the particle. -/
def applyUpdaters (g : Generator) (elapsed : Scalar) :
    ParticleBody → List (Slotted Updater) → Tick ParticleBody
  | p, [] => return p
  | p, u :: us => do
    match ← p.applyUpdater g elapsed u with
    | .ok p => p.applyUpdaters g elapsed us
    | .error fault => p.terminate g fault

def grow (p : ParticleBody) (g : Generator) (elapsed : Scalar) (anchor : Anchor) :
    Tick ParticleBody := do
  let p ← applyUpdaters g elapsed { p with age := p.age + elapsed, fade := 1 } g.updaters
  return p.recompute anchor

def restartsAgain (p : ParticleBody) (handlers : List (Slotted ExpirationHandler)) : Bool :=
  handlers.any fun h => match h.op with
    | .restart times => p.restarts < times
    | _ => false

end ParticleBody

namespace Particle

def runHandlers (scope : SpawnScope) : Particle → List (Slotted ExpirationHandler) → Tick Particle
  | p, [] => return p
  | .mk body children emitters, h :: hs => do
    match h.op with
    | .spawnGenerator id =>
      let emitter ← body.emitter? scope id true
      runHandlers scope (.mk body children (emitters ++ emitter.toList)) hs
    | .playSound sound volume =>
      let handle ← Tick.playSound sound body.worldPosition volume none
      runHandlers scope (.mk { body with sounds := body.sounds ++ [handle] } children emitters) hs
    | .restart _ => runHandlers scope (.mk body children emitters) hs

/-- Runs the expiration handlers, unless a fault ended the particle. -/
def expire (scope : SpawnScope) (p : Particle) : Tick Particle := do
  let .mk body children emitters := p
  let body := { body with expirationHandled := true }
  if body.forcedExpired then return .mk body children emitters
  let handlers := scope.definition.expiration
  let restart := body.restartsAgain handlers
  let .mk body children emitters ← runHandlers scope (.mk body children emitters) handlers
  if restart then
    return .mk
      { body with restarts := body.restarts + 1, age := 0, expirationHandled := false }
      children emitters
  return .mk body children emitters

def growSelf (g : Generator) (elapsed : Scalar) (anchor : Anchor) : Particle → Tick Particle
  | .mk body children emitters => return .mk (← body.grow g elapsed anchor) children emitters

/-- The particle's own part of a tick, after all that it owns has moved. -/
def advanceSelf (scope : SpawnScope) (elapsed : Scalar) (anchor : Anchor) (p : Particle) :
    Tick Particle := do
  let .mk body children emitters := p
  let playing ← body.sounds.filterM Tick.isPlaying
  let p := Particle.mk { body with sounds := playing } children emitters
  if p.body.carrier then return p
  let p ← if p.isExpired then pure p else p.growSelf scope.definition elapsed anchor
  if p.isExpired && !p.body.expirationHandled then p.stopEmitters.expire scope else return p

end Particle

namespace EmitterBody

def progress (e : EmitterBody) : Scalar :=
  if 0 < e.maxLifetime then e.lifetime / e.maxLifetime else 1

def resolved? (e : EmitterBody) (s : Surroundings) : Option Anchor :=
  match e.follow with
  | some path => path.anchor? s.scene e.binding e.progress
  | none =>
    s.scene.resolveAnchor? e.definition.attachSpec e.binding
      ⟨s.clock.minutesOfDay, s.config.skyDistance⟩

/-- Finds the anchor. One that is missing leaves the last one in place and is noted once. -/
def updateAnchor (e : EmitterBody) : Tick EmitterBody := do
  match e.parentAnchor with
  | some anchor => return { e with anchor, anchorResolved := true }
  | none =>
    if e.frozen then return e
    match e.resolved? (← read) with
    | some anchor => return { e with anchor, anchorResolved := true }
    | none =>
      if e.anchorMissingNoted then return e
      Tick.note (.anchorMissing e.definition.id e.definition.attach)
      return { e with anchorMissingNoted := true }

/-- The emission interval one tick nearer to its target, and never past it. -/
def ramped (e : EmitterBody) (elapsed target frames : Scalar) : Scalar :=
  if frames ≤ 0 then target
  else
    let step := (target - Scalar.ofNat e.definition.interval.toNat) * elapsed / frames
    let next := e.interval + step
    if 0 ≤ step then next.min target else next.max target

def applyUpdater (e : EmitterBody) (elapsed : Scalar) : GeneratorUpdater → Tick EmitterBody
  | .emissionRamp target frames => return { e with interval := e.ramped elapsed target frames }
  | .baseOffset offset => return { e with baseOffset := offset }
  | .baseVelocity velocity => return { e with drift := e.drift + velocity * elapsed }
  | .baseSpin rate => return { e with spin := e.spin + rate * elapsed }
  | .distanceCull maxDistance => do
    let distance := (← read).scene.observer.distance e.anchor.position
    return { e with culled := maxDistance < distance }
  | .snapshotAnchor => return e
  | .baseJitter radius => return { e with jitter := ← Tick.draw (Draw.inSphere radius) }

/-- The emitter's own part of a tick, before its particles move. -/
def prepare (e : EmitterBody) (elapsed : Scalar) : Tick EmitterBody := do
  let e ← ({ e with lifetime := e.lifetime + elapsed }).updateAnchor
  e.definition.generatorUpdaters.foldlM (fun e u => e.applyUpdater elapsed u) e

def drawMaxAge (g : Generator) : Tick Scalar := do
  return Scalar.ofNat g.maxAge.toNat + (← Tick.draw (Draw.variance g.maxAgeVariance))

def spawn (e : EmitterBody) (anchor : Anchor) : Tick (Except Fault Particle) := do
  Particle.spawn e.scope (← drawMaxAge e.definition) anchor

/-- Makes the particles of a batch, in order, until one is refused. -/
def spawnBatch (e : EmitterBody) (anchor : Anchor) : Nat → Tick (Except Fault (List Particle))
  | 0 => return .ok []
  | n + 1 => do
    match ← e.spawn anchor with
    | .error fault => return .error fault
    | .ok p =>
      match ← e.spawnBatch anchor n with
      | .error fault => return .error fault
      | .ok ps => return .ok (p :: ps)

end EmitterBody

namespace Emitter

def hasRoom (e : Emitter) (config : Config) : Bool :=
  !(e.body.definition.flags.continuousSingleton && !e.particles.isEmpty) &&
    e.particles.length < config.maxParticles

/-- Makes one particle, or one carrier with its batch. -/
def emitOne (e : Emitter) (anchor : Anchor) : Tick (Emitter × Option Halt) := do
  let .mk body particles := e
  let g := body.definition
  if g.flags.batched then
    let slots := max g.batchSlots.toNat 1
    match ← body.spawnBatch anchor slots with
    | .error fault => return (e, some (.fault fault))
    | .ok children =>
      return (.mk { body with emitted := body.emitted + UInt32.ofNat slots }
        (particles ++ [Particle.carrierOf g anchor children]), none)
  else
    match ← body.spawn anchor with
    | .error fault => return (e, some (.fault fault))
    | .ok p => return (.mk { body with emitted := body.emitted + 1 } (particles ++ [p]), none)

/-- Makes up to so many particles while there is room. -/
def emit (e : Emitter) (anchor : Anchor) : Nat → Tick (Emitter × Option Halt)
  | 0 => return (e, none)
  | n + 1 => do
    if !e.hasRoom (← read).config then return (e, none)
    match ← e.emitOne anchor with
    | (e, none) => e.emit anchor n
    | (e, some halt) => return (e, some halt)

/-- Adds one interval to the countdown, at least a frame. -/
def schedule (e : Emitter) : Tick Emitter := do
  let .mk body particles := e
  let variance ← Tick.draw (Draw.variance body.definition.intervalVariance)
  let step := body.interval + variance
  return .mk { body with countdown := body.countdown + step.max 1 } particles

/-- Emits until the countdown is above zero, at most so many times. A singleton waits for the
particle that is there. -/
def emitDue (anchor : Anchor) : Nat → Emitter → Tick (Emitter × Option Halt)
  | 0, e => return (e, some .outOfFuel)
  | n + 1, e => do
    if ¬ e.body.countdown ≤ 0 then return (e, none)
    let g := e.body.definition
    if g.flags.continuousSingleton && !e.particles.isEmpty then return (e, none)
    match ← e.emit anchor (max g.perEmission.toNat 1) with
    | (e, some halt) => return (e, some halt)
    | (e, none) => emitDue anchor n (← e.schedule)

/-- The last part of a tick: particles that are complete go, new ones come, the countdown runs. -/
def finish (e : Emitter) (elapsed : Scalar) (anchor : Anchor) : Tick (Emitter × Option Halt) := do
  let .mk body particles := e
  let e := Emitter.mk body (particles.filter fun p => !p.isComplete)
  let (e, halt) ← if !body.culled && !body.doneEmitting then emitDue anchor (← read).fuel e
    else pure (e, none)
  match halt with
  | some halt => return (e, some halt)
  | none => return (e.mapBody fun body => { body with countdown := body.countdown - elapsed }, none)

end Emitter

mutual

def Particle.advance (scope : SpawnScope) (elapsed : Scalar) (anchor : Anchor) :
    Particle → Tick (Particle × Option Halt)
  | .mk body children emitters => do
    let (children, halt) ← advanceParticles scope elapsed anchor children
    if halt.isSome then return (.mk body children emitters, halt)
    let children := children.filter fun c => !c.isComplete
    let (emitters, halt) ← advanceEmitters (some body.worldAnchor) elapsed emitters
    if halt.isSome then return (.mk body children emitters, halt)
    let emitters := emitters.filter fun e => !e.isExpired
    return (← (Particle.mk body children emitters).advanceSelf scope elapsed anchor, none)

/-- One tick of an emitter. An anchor that is given replaces that of its owner. -/
def Emitter.advance (parent : Option Anchor) (elapsed : Scalar) :
    Emitter → Tick (Emitter × Option Halt)
  | .mk body particles => do
    let body ← ({ body with parentAnchor := parent.or body.parentAnchor }).prepare elapsed
    let anchor := body.emissionAnchor
    let (particles, halt) ← advanceParticles body.scope elapsed anchor particles
    if halt.isSome then return (.mk body particles, halt)
    (Emitter.mk body particles).finish elapsed anchor

/-- Each in turn, up to the first that stops the tick. -/
def advanceParticles (scope : SpawnScope) (elapsed : Scalar) (anchor : Anchor) :
    List Particle → Tick (List Particle × Option Halt)
  | [] => return ([], none)
  | p :: ps => do
    let (p, halt) ← p.advance scope elapsed anchor
    if halt.isSome then return (p :: ps, halt)
    let (ps, halt) ← advanceParticles scope elapsed anchor ps
    return (p :: ps, halt)

def advanceEmitters (parent : Option Anchor) (elapsed : Scalar) :
    List Emitter → Tick (List Emitter × Option Halt)
  | [] => return ([], none)
  | e :: es => do
    let (e, halt) ← e.advance parent elapsed
    if halt.isSome then return (e :: es, halt)
    let (es, halt) ← advanceEmitters parent elapsed es
    return (e :: es, halt)

end

end EffectMachine
