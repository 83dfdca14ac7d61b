import EffectMachine.Generator.Definition
import EffectMachine.Particle.Curves
import EffectMachine.Space.Anchor
import EffectMachine.World.Binding

namespace EffectMachine

/-- How a generator is attached. There is no anchor when an actor or an object that it needs is
gone. -/
structure AttachSpec where
  attach : Attachment
  /-- The joint of the source, or the only joint. -/
  sourceJoint : UInt8
  targetJoint : UInt8
  zoneLink : ResourceId

def Generator.attachSpec (g : Generator) : AttachSpec :=
  ⟨g.attach, g.sourceJoint, g.targetJoint, g.zoneLink⟩

/-- Time of day, and how far away sun and moon are. -/
structure Sky where
  minutesOfDay : Scalar
  distance : Scalar

/-- From the observer to the sun: overhead at noon, underfoot at midnight, on the first axis at
six. -/
def sunDirection (minutesOfDay : Scalar) : Vec3 :=
  let angle := minutesOfDay / 1440 * Scalar.tau
  ⟨angle.sin, -angle.cos, 0⟩

namespace Scene

def skyAnchor (s : Scene) (direction : Vec3) (sky : Sky) : Anchor :=
  { position := s.observer + direction * sky.distance
    orientation := Rotation.arc Vec3.forward (-direction) }

def actorAnchor? (s : Scene) (id : ActorId) : Option Anchor :=
  (s.actor? id).map fun a => ⟨a.position, a.facing, Vec3.splat a.scale⟩

/-- At a joint, turned and scaled like its actor. -/
def jointAnchor? (s : Scene) (id : ActorId) (opposing : Option ActorId) (joint : UInt8) :
    Option Anchor := do
  let base ← s.actorAnchor? id
  return { base with position := ← s.jointPosition? id opposing joint }

def objectAnchor? (s : Scene) (link : ResourceId) : Option Anchor :=
  (s.object? link).map fun o => ⟨o.position, o.orientation, Vec3.splat o.scale⟩

def bindingAnchor? (s : Scene) : Binding → Option Anchor
  | .actors source _ _ => (s.position? source).map fun position => { position }
  | .weather => some { position := s.observer }
  | .zone link => s.objectAnchor? link

/-- A beam from a joint of the source to a joint of the target. -/
def beamAnchor? (s : Scene) (source target : ActorId) (sourceJoint targetJoint : UInt8) :
    Option Anchor := do
  let start ← s.jointPosition? source (some target) sourceJoint
  let finish ← s.jointPosition? target (some source) targetJoint
  return Anchor.beam start finish

def resolveAnchor? (s : Scene) (spec : AttachSpec) (b : Binding) (sky : Sky) : Option Anchor :=
  match spec.attach with
  | .none => s.bindingAnchor? b
  | .source => b.source?.bind s.actorAnchor?
  | .target => b.target?.bind s.actorAnchor?
  | .sourceJoint => b.source?.bind fun source => s.jointAnchor? source b.target? spec.sourceJoint
  | .targetJoint => b.target?.bind fun target => s.jointAnchor? target b.source? spec.sourceJoint
  | .sourceToTarget => do
    s.beamAnchor? (← b.source?) (← b.target?) spec.sourceJoint spec.targetJoint
  | .sun => some (s.skyAnchor (sunDirection sky.minutesOfDay) sky)
  | .moon => some (s.skyAnchor (-sunDirection sky.minutesOfDay) sky)
  | .zoneObject =>
    if spec.zoneLink.isNone then b.zoneLink?.bind s.objectAnchor? else s.objectAnchor? spec.zoneLink

end Scene

/-- A way from source to target in hops, lifted by an arc. -/
structure FollowPath where
  points : UInt32
  arcHeight : Scalar

namespace FollowPath

/-- The point at a progress in `[0, 1]`, held at the latest hop. -/
def point (f : FollowPath) (start finish : Vec3) (progress : Scalar) : Vec3 :=
  let steps := Scalar.ofNat (max f.points.toNat 1)
  let t := ((progress.clamp 0 1 * steps).floor / steps).min 1
  start.lerp finish t + Vec3.up * Curves.arcLift t f.arcHeight

def anchor? (f : FollowPath) (s : Scene) (b : Binding) (progress : Scalar) : Option Anchor := do
  let start ← s.position? (← b.source?)
  let finish ← s.position? (← b.target?)
  return { Anchor.beam start finish with
    position := f.point start finish progress
    scale := Vec3.one }

end FollowPath
end EffectMachine
