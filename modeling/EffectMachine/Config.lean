import EffectMachine.Fault

namespace EffectMachine

structure Config where
  /-- Frames per second of real time. -/
  frameRate : Scalar := 60
  /-- Playback rate of a new sequence. -/
  playbackRate : Scalar := 1
  /-- Hard cap on the particles of one generator. -/
  maxParticles : Nat := 4096
  /-- Nesting limit for child routines and child generators. -/
  maxNestingDepth : UInt8 := 8
  /-- Distance of sun and moon from the observer. -/
  skyDistance : Scalar := 500
  gameMinutesPerFrame : Scalar := 1 / 60
  /-- Directories whose routines run on their own. -/
  autoPlayLocations : List String := ["idle", "amb", "wthr"]
  seed : UInt32 := 0x5EED0001

namespace Config

def validate (c : Config) : Except ConfigFault Config :=
  if c.frameRate ≤ 0 then .error (.frameRate c.frameRate)
  else if c.playbackRate < 0 then .error (.playbackRate c.playbackRate)
  else if c.maxNestingDepth = 0 then .error .nestingDepth
  else .ok c

def isAutoPlayLocation (c : Config) (name : String) : Bool := c.autoPlayLocations.contains name

end Config
end EffectMachine
