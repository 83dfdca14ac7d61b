import EffectMachine.Color
import EffectMachine.Resource.Id
import EffectMachine.Space.Vec3

namespace EffectMachine

/-- The actor of a two-actor activation that an instruction is about. -/
inductive ActorRole where
  | source
  | target
deriving DecidableEq

namespace ActorRole

def name : ActorRole → String
  | source => "Source"
  | target => "Target"

/-- One names the target, all else the source. -/
def ofByte (b : UInt8) : ActorRole := if b = 1 then target else source

def toByte : ActorRole → UInt8
  | source => 0
  | target => 1

end ActorRole

inductive Lock where
  | movement
  | facing
  | animation
deriving DecidableEq

def Lock.name : Lock → String
  | movement => "Movement"
  | facing => "Facing"
  | animation => "Animation"

inductive ConditionSource where
  | constant (value : Int32)
  /-- What the activation was told about the fight, by input code. -/
  | gameState (code : Int32)
  /-- A uniform draw below the bound. -/
  | random (bound : Int32)
  /-- A tag without a meaning; the value is zero. -/
  | unknown (tag : UInt8) (value : Int32)
deriving DecidableEq

namespace ConditionSource

def ofTag (tag : UInt8) (value : Int32) : ConditionSource :=
  match tag with
  | 0 => constant value
  | 1 => gameState value
  | 2 => random value
  | _ => unknown tag value

def tag : ConditionSource → UInt8
  | constant _ => 0
  | gameState _ => 1
  | random _ => 2
  | unknown t _ => t

def value : ConditionSource → Int32
  | constant v => v
  | gameState v => v
  | random v => v
  | unknown _ v => v

end ConditionSource

/-- The facts about a fight that a condition can read. -/
inductive GameStateInput where
  | hitType
  | onHitEffect
  | retaliation
  | critical
  | missed
  | guarded
  | targetIsSource
deriving DecidableEq

namespace GameStateInput

def name : GameStateInput → String
  | hitType => "HitType"
  | onHitEffect => "OnHitEffect"
  | retaliation => "Retaliation"
  | critical => "Critical"
  | missed => "Missed"
  | guarded => "Guarded"
  | targetIsSource => "TargetIsSource"

/-- Codes outside the table have no live value. -/
def ofCode? : Int32 → Option GameStateInput
  | 0 => some hitType
  | 1 => some onHitEffect
  | 2 => some retaliation
  | 3 => some critical
  | 4 => some missed
  | 5 => some guarded
  | 6 => some targetIsSource
  | _ => none

end GameStateInput

inductive Action where
  | spawnGenerator (generator : ResourceId)
  | stopGenerator (generator : ResourceId)
  | spawnRoutine (routine : ResourceId) (blocking : Bool)
  /-- Starts a routine that is looked up from the root. -/
  | linkRoutine (routine : ResourceId) (blocking : Bool)
  | randomRoutine (choices : List ResourceId)
  | stopRoutine (routine : ResourceId)
  | playSound (sound : ResourceId) (volume : Scalar) (follow : Bool)
  | stopSound (sound : ResourceId)
  | playAnimation (animation : ResourceId) (actor : ActorRole) (loops : UInt8) (transition : UInt16)
  | stopAnimation (animation : ResourceId) (actor : ActorRole)
  | hold (lock : Lock) (actor : ActorRole)
  | faceTarget
  | beginBlock
  | endBlock
  | condition (register : UInt8) (source : ConditionSource)
  /-- Skips the next instruction unless the comparison comes out as wanted. -/
  | branch (whenTrue : Bool)
  | modelTransform (actor : ActorRole) (translation rotation scale : Vec3)
  | actorFade (actor : ActorRole) (start finish : Scalar)
  | actorWrap (actor : ActorRole) (color : Color)
  | weaponTrace (color : Color)
  | followPoints (generator : ResourceId) (points : UInt32) (arcHeight : Scalar)
  | screenFlash (color : Color)
  | knockback (actor : ActorRole) (animation : ResourceId)
  | playbackRate (rate : Scalar)
  | loopRoutine
  | timeOfDayGate (startMinute endMinute : UInt16)
  | broadcastOverride (enabled : Bool)
  | snapshot (position joints : Bool)
  | wait
  | cameraShake (intensity : Scalar)
  | pointLight (color : Color) (radius : Scalar)
  | setVisibility (actor : ActorRole) (visible : Bool)
  | stopAllGenerators
  | flinch (actor : ActorRole)
deriving DecidableEq

namespace Action

def name : Action → String
  | spawnGenerator .. => "spawn-generator"
  | stopGenerator .. => "stop-generator"
  | spawnRoutine .. => "spawn-routine"
  | linkRoutine .. => "link-routine"
  | randomRoutine .. => "random-routine"
  | stopRoutine .. => "stop-routine"
  | playSound .. => "play-sound"
  | stopSound .. => "stop-sound"
  | playAnimation .. => "play-animation"
  | stopAnimation .. => "stop-animation"
  | hold .movement _ => "lock-movement"
  | hold .facing _ => "lock-facing"
  | hold .animation _ => "lock-animation"
  | faceTarget => "face-target"
  | beginBlock => "begin-block"
  | endBlock => "end-block"
  | condition .. => "condition"
  | branch .. => "branch"
  | modelTransform .. => "model-transform"
  | actorFade .. => "actor-fade"
  | actorWrap .. => "actor-wrap"
  | weaponTrace .. => "weapon-trace"
  | followPoints .. => "follow-points"
  | screenFlash .. => "screen-flash"
  | knockback .. => "knockback"
  | playbackRate .. => "playback-rate"
  | loopRoutine => "loop-routine"
  | timeOfDayGate .. => "time-of-day-gate"
  | broadcastOverride .. => "broadcast-override"
  | snapshot .. => "snapshot"
  | wait => "wait"
  | cameraShake .. => "camera-shake"
  | pointLight .. => "point-light"
  | setVisibility .. => "set-visibility"
  | stopAllGenerators => "stop-all-generators"
  | flinch .. => "flinch"

/-- Block boundaries run inside skipped regions too, so that nesting stays balanced. -/
def isBlockBoundary : Action → Bool
  | beginBlock => true
  | endBlock => true
  | _ => false

end Action

structure Effect where
  /-- Frames to wait before the action. -/
  delay : UInt16
  /-- Frames the action lasts, where that has a meaning. -/
  duration : UInt16
  action : Action
deriving DecidableEq

end EffectMachine
