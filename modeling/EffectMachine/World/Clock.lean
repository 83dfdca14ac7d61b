import EffectMachine.Config

namespace EffectMachine

structure Clock where
  /-- Frames per second of real time. -/
  frameRate : Scalar := 60
  minutesPerFrame : Scalar := 1 / 60
  /-- Frames of all ticks together. -/
  totalFrames : Float := 0
  /-- Frames of the latest tick. -/
  deltaFrames : Scalar := 0
  /-- Minutes since midnight. -/
  minutesOfDay : Scalar := 720

namespace Clock

def minutesPerDay : Scalar := 1440

def ofConfig (c : Config) : Clock :=
  { frameRate := c.frameRate, minutesPerFrame := c.gameMinutesPerFrame }

/-- Goes on by a number of frames, which is the second result; time never runs backwards. -/
def tickFrames (c : Clock) (frames : Scalar) : Clock × Scalar :=
  let frames := frames.max 0
  ({ c with
      deltaFrames := frames
      totalFrames := c.totalFrames + frames.widen
      minutesOfDay := (c.minutesOfDay + frames * c.minutesPerFrame).modulo minutesPerDay },
   frames)

/-- Goes on by real time; a stall counts as a quarter of a second. -/
def tickSeconds (c : Clock) (seconds : Float) : Clock × Scalar :=
  let held := if seconds < 0 then 0 else seconds
  let held := if 0.25 < held then 0.25 else held
  c.tickFrames (Scalar.narrow held * c.frameRate)

def setMinutesOfDay (c : Clock) (minutes : Scalar) : Clock :=
  { c with minutesOfDay := minutes.modulo minutesPerDay }

/-- Is it between two times of day? A window may go past midnight. -/
def inWindow (c : Clock) (startMinute endMinute : UInt16) : Bool :=
  let now := c.minutesOfDay
  let start := Scalar.ofNat startMinute.toNat
  let finish := Scalar.ofNat endMinute.toNat
  if start ≤ finish then start ≤ now && now < finish else start ≤ now || now < finish

/-- Frames until the next time it is so late; for ever if the time of day does not move on. -/
def framesUntil (c : Clock) (minute : UInt16) : Scalar :=
  if c.minutesPerFrame ≤ 0 then Scalar.infinity
  else (Scalar.ofNat minute.toNat - c.minutesOfDay).modulo minutesPerDay / c.minutesPerFrame

end Clock
end EffectMachine
