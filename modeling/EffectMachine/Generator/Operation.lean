import EffectMachine.Color
import EffectMachine.Fault
import EffectMachine.Resource.Id
import EffectMachine.Space.Vec3

namespace EffectMachine

/-- How the anchor of a generator follows from its binding. -/
inductive Attachment where
  | none
  | source
  | target
  | sourceJoint
  | targetJoint
  /-- A beam between the two joints. -/
  | sourceToTarget
  | sun
  | moon
  | zoneObject
deriving DecidableEq

namespace Attachment

def all : List Attachment :=
  [none, source, target, sourceJoint, targetJoint, sourceToTarget, sun, moon, zoneObject]

def ofCode? (code : UInt8) : Option Attachment := all[code.toNat]?

def code : Attachment → UInt8
  | none => 0
  | source => 1
  | target => 2
  | sourceJoint => 3
  | targetJoint => 4
  | sourceToTarget => 5
  | sun => 6
  | moon => 7
  | zoneObject => 8

def name : Attachment → String
  | none => "None"
  | source => "Source"
  | target => "Target"
  | sourceJoint => "SourceJoint"
  | targetJoint => "TargetJoint"
  | sourceToTarget => "SourceToTarget"
  | sun => "Sun"
  | moon => "Moon"
  | zoneObject => "ZoneObject"

def usesJoints : Attachment → Bool
  | sourceJoint => true
  | targetJoint => true
  | sourceToTarget => true
  | _ => false

end Attachment

/-- What a generator does to itself in every tick. -/
inductive GeneratorUpdater where
  /-- Moves the emission interval towards a target. -/
  | emissionRamp (targetInterval frames : Scalar)
  | baseOffset (offset : Vec3)
  | baseVelocity (velocity : Vec3)
  | baseSpin (rate : Vec3)
  /-- No emission while the observer is further away. -/
  | distanceCull (maxDistance : Scalar)
  /-- The anchor stays where it was first found. -/
  | snapshotAnchor
  | baseJitter (radius : Scalar)
deriving DecidableEq

inductive ParticleFamily where
  | initializer
  | updater
  | expiration
deriving DecidableEq

namespace ParticleFamily

def name : ParticleFamily → String
  | initializer => "Initializer"
  | updater => "Updater"
  | expiration => "Expiration"

/-- The family is fixed by the range of the opcode. -/
def ofOpcode? (opcode : UInt8) : Option ParticleFamily :=
  if opcode = 0 then none
  else if opcode < 0x40 then some initializer
  else if opcode < 0x80 then some updater
  else if opcode < 0xC0 then some expiration
  else none

end ParticleFamily

inductive KeyFrameChannel where
  | alpha
  | scale
  | height
  | colorMultiplier
deriving DecidableEq

namespace KeyFrameChannel

def ofCode? : UInt32 → Option KeyFrameChannel
  | 0 => some alpha
  | 1 => some scale
  | 2 => some height
  | 3 => some colorMultiplier
  | _ => none

def code : KeyFrameChannel → UInt32
  | alpha => 0
  | scale => 1
  | height => 2
  | colorMultiplier => 3

def name : KeyFrameChannel → String
  | alpha => "Alpha"
  | scale => "Scale"
  | height => "Height"
  | colorMultiplier => "ColorMultiplier"

end KeyFrameChannel

/-- Runs once, when a particle is made. -/
inductive Initializer where
  | position (offset : Vec3)
  | positionJitter (extent : Vec3)
  /-- Allocates a velocity slot. -/
  | velocity (velocity : Vec3)
  /-- Perturbs the velocity slot at its offset. -/
  | velocityJitter (extent : Vec3)
  /-- Sets the acceleration of the velocity slot at its offset. -/
  | gravity (acceleration : Vec3)
  | rotation (euler : Vec3)
  | angularVelocity (rate : Vec3)
  | scale (scale : Vec3)
  | scaleVelocity (rate : Vec3)
  | color (color : Color)
  | colorJitter (extent : Color)
  | colorTransform (target : Color) (frames : UInt32)
  | keyFrames (set : ResourceId) (channel : KeyFrameChannel)
  | mesh (provider : ResourceId)
  | childGenerator (generator : ResourceId)
  | orbit (radius speed phaseJitter : Scalar)
  | sound (sound : ResourceId) (volume : Scalar)
  /-- The particle stays where it is relative to the live anchor. -/
  | anchorRelative
deriving DecidableEq

def Initializer.allocated? : Initializer → Option SlotKind
  | velocity _ => some .velocity
  | angularVelocity _ => some .angularVelocity
  | scaleVelocity _ => some .scaleVelocity
  | colorTransform .. => some .colorTransform
  | keyFrames .. => some .keyFrames
  | orbit .. => some .orbit
  | _ => none

/-- Runs in every tick of a particle's life. -/
inductive Updater where
  | applyVelocity
  | damping (factor : Scalar)
  | applyAngularVelocity
  | applyScaleVelocity
  | applyColorTransform
  | applyKeyFrames
  | applyOrbit
  | fadeOut (frames : UInt32)
  | fadeIn (frames : UInt32)
deriving DecidableEq

def Updater.needed? : Updater → Option SlotKind
  | applyVelocity => some .velocity
  | damping _ => some .velocity
  | applyAngularVelocity => some .angularVelocity
  | applyScaleVelocity => some .scaleVelocity
  | applyColorTransform => some .colorTransform
  | applyKeyFrames => some .keyFrames
  | applyOrbit => some .orbit
  | fadeOut _ => none
  | fadeIn _ => none

inductive ExpirationHandler where
  | spawnGenerator (generator : ResourceId)
  | playSound (sound : ResourceId) (volume : Scalar)
  /-- Sets the age back to zero, up to so many times. -/
  | restart (times : UInt32)
deriving DecidableEq

inductive ParticleOperation where
  | birth (op : Initializer)
  | update (op : Updater)
  | expire (op : ExpirationHandler)
deriving DecidableEq

def ParticleOperation.family : ParticleOperation → ParticleFamily
  | birth _ => .initializer
  | update _ => .updater
  | expire _ => .expiration

/-- An operation with the slot offset of its header. -/
structure Slotted (α : Type) where
  offset : UInt32
  op : α
deriving DecidableEq

end EffectMachine
