import EffectMachine.Generator.Operation
import EffectMachine.KeyFrames

namespace EffectMachine

structure Motion where
  velocity : Vec3
  acceleration : Vec3 := Vec3.zero

structure ColorTransform where
  start : Color
  target : Color
  frames : Scalar
  elapsed : Scalar := 0

/-- The colour at the elapsed time; it stays at the target after the end. -/
def ColorTransform.current (t : ColorTransform) : Color :=
  t.start.lerp t.target (if t.frames ≤ 0 then 1 else (t.elapsed / t.frames).min 1)

/-- Whether the key-frame set of a slot was looked up, and with what success. -/
inductive KeyFrameLookup where
  | pending
  | found (set : KeyFrameSet)
  | missing

structure KeyFrameTrack where
  set : ResourceId
  channel : KeyFrameChannel
  lookup : KeyFrameLookup := .pending

structure Orbit where
  radius : Scalar
  speed : Scalar
  phase : Scalar

inductive SlotData where
  | velocity (motion : Motion)
  | angularVelocity (rate : Vec3)
  | scaleVelocity (rate : Vec3)
  | colorTransform (transform : ColorTransform)
  | keyFrames (track : KeyFrameTrack)
  | orbit (orbit : Orbit)

def SlotData.kind : SlotData → SlotKind
  | velocity _ => .velocity
  | angularVelocity _ => .angularVelocity
  | scaleVelocity _ => .scaleVelocity
  | colorTransform _ => .colorTransform
  | keyFrames _ => .keyFrames
  | orbit _ => .orbit

/-- The data slots of a particle. An initializer allocates a slot at its offset, once; later
instructions name the offset and the kind they need. -/
structure Slots where
  entries : List (UInt32 × SlotData) := []

namespace Slots

def size (s : Slots) : Nat := s.entries.length

def allocate (s : Slots) (offset : UInt32) (data : SlotData) : Except Fault Slots :=
  if (s.entries.lookup offset).isSome then .error (.duplicateAllocation offset)
  else .ok ⟨s.entries ++ [(offset, data)]⟩

def get (s : Slots) (offset : UInt32) : Except Fault SlotData :=
  match s.entries.lookup offset with
  | some data => .ok data
  | none => .error (.missingSlot offset)

def set (s : Slots) (offset : UInt32) (data : SlotData) : Slots :=
  ⟨s.entries.map fun e => if e.1 = offset then (offset, data) else e⟩

private def mismatch {α : Type} (offset : UInt32) (expected : SlotKind) (found : SlotData) :
    Except Fault α :=
  .error (.slotKind offset expected found.kind)

def velocity (s : Slots) (offset : UInt32) : Except Fault Motion := do
  match ← s.get offset with
  | .velocity motion => return motion
  | other => mismatch offset .velocity other

def angularVelocity (s : Slots) (offset : UInt32) : Except Fault Vec3 := do
  match ← s.get offset with
  | .angularVelocity rate => return rate
  | other => mismatch offset .angularVelocity other

def scaleVelocity (s : Slots) (offset : UInt32) : Except Fault Vec3 := do
  match ← s.get offset with
  | .scaleVelocity rate => return rate
  | other => mismatch offset .scaleVelocity other

def colorTransform (s : Slots) (offset : UInt32) : Except Fault ColorTransform := do
  match ← s.get offset with
  | .colorTransform transform => return transform
  | other => mismatch offset .colorTransform other

def keyFrames (s : Slots) (offset : UInt32) : Except Fault KeyFrameTrack := do
  match ← s.get offset with
  | .keyFrames track => return track
  | other => mismatch offset .keyFrames other

def orbit (s : Slots) (offset : UInt32) : Except Fault Orbit := do
  match ← s.get offset with
  | .orbit orbit => return orbit
  | other => mismatch offset .orbit other

end Slots
end EffectMachine
