import EffectMachine.Routine.Effect
import EffectMachine.World.Scene

namespace EffectMachine

structure SoundHandle where
  number : Nat
deriving DecidableEq

inductive Command where
  | playAnimation (actor : ActorId) (animation : ResourceId) (loops : UInt8) (transition : UInt16)
  | stopAnimation (actor : ActorId) (animation : ResourceId)
  | playSound (handle : SoundHandle) (sound : ResourceId) (position : Vec3) (volume : Scalar)
      (follow : Option ActorId)
  | stopSound (sound : ResourceId)
  | lock (actor : ActorId) (lock : Lock) (frames : UInt16)
  | face (actor toward : ActorId)
  | screenFlash (color : Color) (frames : UInt16)
  | knockback (actor : ActorId) (animation : ResourceId)
  | flinch (actor : ActorId)
  | modelTransform (actor : ActorId) (translation rotation scale : Vec3) (frames : UInt16)
  | fade (actor : ActorId) (start finish : Scalar) (frames : UInt16)
  | wrap (actor : ActorId) (color : Color) (frames : UInt16)
  | weaponTrace (actor : ActorId) (color : Color) (frames : UInt16)
  | cameraShake (intensity : Scalar) (frames : UInt16)
  | pointLight (position : Vec3) (color : Color) (radius : Scalar) (frames : UInt16)
  | setVisibility (actor : ActorId) (visible : Bool)
deriving DecidableEq

def Command.name : Command → String
  | playAnimation .. => "play-animation"
  | stopAnimation .. => "stop-animation"
  | playSound .. => "play-sound"
  | stopSound .. => "stop-sound"
  | lock .. => "lock"
  | face .. => "face"
  | screenFlash .. => "screen-flash"
  | knockback .. => "knockback"
  | flinch .. => "flinch"
  | modelTransform .. => "model-transform"
  | fade .. => "fade"
  | wrap .. => "wrap"
  | weaponTrace .. => "weapon-trace"
  | cameraShake .. => "camera-shake"
  | pointLight .. => "point-light"
  | setVisibility .. => "set-visibility"

/-- What activations ask of the world outside. Every command is recorded, and it is known which
sounds still play. -/
structure Stage where
  /-- Commands since the latest drain, latest first. -/
  recorded : List Command := []
  /-- Sounds that play, with the frames they have left. -/
  sounds : List (SoundHandle × Scalar) := []
  /-- Frames that every sound plays. -/
  soundFrames : Scalar := 30
  nextHandle : Nat := 1

namespace Stage

/-- Commands since the latest drain, in order. -/
def commands (s : Stage) : List Command := s.recorded.reverse

def advance (s : Stage) (frames : Scalar) : Stage :=
  let older := s.sounds.map fun (h, left) => (h, left - frames)
  { s with sounds := older.filter fun (_, left) => 0 < left }

def drained (s : Stage) : Stage := { s with recorded := [] }

def count (s : Stage) (name : String) : Nat := s.recorded.countP fun c => c.name = name

/-- The handles under which a sound was started since the latest drain. -/
def handlesOf (s : Stage) (sound : ResourceId) : List SoundHandle :=
  s.recorded.filterMap fun
    | .playSound handle other _ _ _ => if other = sound then some handle else none
    | _ => none

/-- Records a command; stopping a sound ends what plays of it. -/
def submit (s : Stage) (c : Command) : Stage :=
  match c with
  | .stopSound sound =>
    let stopped := s.handlesOf sound
    { s with
      recorded := c :: s.recorded
      sounds := s.sounds.filter fun (h, _) => !stopped.contains h }
  | _ => { s with recorded := c :: s.recorded }

def playSound (s : Stage) (sound : ResourceId) (position : Vec3) (volume : Scalar)
    (follow : Option ActorId) : SoundHandle × Stage :=
  let handle : SoundHandle := ⟨s.nextHandle⟩
  (handle,
   { s with
      recorded := .playSound handle sound position volume follow :: s.recorded
      sounds := if 0 < s.soundFrames then s.sounds ++ [(handle, s.soundFrames)] else s.sounds
      nextHandle := s.nextHandle + 1 })

def isPlaying (s : Stage) (handle : SoundHandle) : Bool := s.sounds.any fun e => e.1 = handle

end Stage
end EffectMachine
