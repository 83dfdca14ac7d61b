import EffectMachine.Routine.Effect
import EffectMachine.Stream.Section
import EffectMachine.Stream.Writer

namespace EffectMachine

namespace Action

def opcode : Action → UInt8
  | spawnGenerator .. => 0x01
  | stopGenerator .. => 0x02
  | spawnRoutine .. => 0x03
  | linkRoutine .. => 0x04
  | randomRoutine .. => 0x05
  | stopRoutine .. => 0x06
  | playSound .. => 0x07
  | stopSound .. => 0x08
  | playAnimation .. => 0x09
  | stopAnimation .. => 0x0A
  | hold .movement _ => 0x0B
  | hold .facing _ => 0x0C
  | hold .animation _ => 0x0D
  | faceTarget => 0x0E
  | beginBlock => 0x0F
  | endBlock => 0x10
  | condition .. => 0x11
  | branch true => 0x12
  | branch false => 0x13
  | modelTransform .. => 0x14
  | actorFade .. => 0x15
  | actorWrap .. => 0x16
  | weaponTrace .. => 0x17
  | followPoints .. => 0x18
  | screenFlash .. => 0x19
  | knockback .. => 0x1A
  | playbackRate .. => 0x1B
  | loopRoutine => 0x1C
  | timeOfDayGate .. => 0x1D
  | broadcastOverride .. => 0x1E
  | snapshot .. => 0x1F
  | wait => 0x20
  | cameraShake .. => 0x21
  | pointLight .. => 0x22
  | setVisibility .. => 0x23
  | stopAllGenerators => 0x24
  | flinch .. => 0x25

private def flagWord (b : Bool) : UInt32 := if b then 1 else 0

private def roleWord (actor : ActorRole) : UInt32 := actor.toByte.toUInt32

def args : Action → List UInt32
  | spawnGenerator generator => [generator.toWord]
  | stopGenerator generator => [generator.toWord]
  | spawnRoutine routine blocking => [routine.toWord, flagWord blocking]
  | linkRoutine routine blocking => [routine.toWord, flagWord blocking]
  | randomRoutine choices => UInt32.ofNat choices.length :: choices.map ResourceId.toWord
  | stopRoutine routine => [routine.toWord]
  | playSound sound volume follow => [sound.toWord, volume.bits, flagWord follow]
  | stopSound sound => [sound.toWord]
  | playAnimation animation actor loops transition =>
    [animation.toWord,
     actor.toByte.toUInt32 ||| loops.toUInt32 <<< 8 ||| transition.toUInt32 <<< 16]
  | stopAnimation animation actor => [animation.toWord, roleWord actor]
  | hold _ actor => [roleWord actor]
  | faceTarget => []
  | beginBlock => []
  | endBlock => []
  | condition register source =>
    [register.toUInt32 ||| source.tag.toUInt32 <<< 8, source.value.toUInt32]
  | branch _ => []
  | modelTransform actor translation rotation scale =>
    roleWord actor :: (translation.words ++ rotation.words ++ scale.words)
  | actorFade actor start finish => [roleWord actor, start.bits, finish.bits]
  | actorWrap actor color => [roleWord actor, color.toPacked]
  | weaponTrace color => [color.toPacked]
  | followPoints generator points arcHeight => [generator.toWord, points, arcHeight.bits]
  | screenFlash color => [color.toPacked]
  | knockback actor animation => [roleWord actor, animation.toWord]
  | playbackRate rate => [rate.bits]
  | loopRoutine => []
  | timeOfDayGate startMinute endMinute => [Word.ofHalves startMinute endMinute]
  | broadcastOverride enabled => [flagWord enabled]
  | snapshot position joints => [flagWord position ||| flagWord joints <<< 1]
  | wait => []
  | cameraShake intensity => [intensity.bits]
  | pointLight color radius => [color.toPacked, radius.bits]
  | setVisibility actor visible => [roleWord actor, flagWord visible]
  | stopAllGenerators => []
  | flinch actor => [roleWord actor]

end Action

def Effect.write (e : Effect) : List UInt8 :=
  Writer.routine e.action.opcode e.delay e.duration e.action.args

namespace Decoder

def flag : Decoder Bool := return (← word) &&& 1 ≠ 0

def role : Decoder ActorRole := return ActorRole.ofByte (← word).toUInt8

end Decoder

open Decoder in
/-- Reads the arguments of an opcode. A list of choices is never read past the declared size. -/
def Action.parser? : UInt8 → Option (Header → Decoder Action)
  | 0x01 => some fun _ => return .spawnGenerator (← id)
  | 0x02 => some fun _ => return .stopGenerator (← id)
  | 0x03 => some fun _ => return .spawnRoutine (← id) (← flag)
  | 0x04 => some fun _ => return .linkRoutine (← id) (← flag)
  | 0x05 => some fun h => do
    let count ← word
    return .randomRoutine (← repeated id (min count.toNat (h.size.toNat - 3)))
  | 0x06 => some fun _ => return .stopRoutine (← id)
  | 0x07 => some fun _ => return .playSound (← id) (← scalar) (← flag)
  | 0x08 => some fun _ => return .stopSound (← id)
  | 0x09 => some fun _ => return .playAnimation (← id) (ActorRole.ofByte (← byte)) (← byte) (← half)
  | 0x0A => some fun _ => return .stopAnimation (← id) (← role)
  | 0x0B => some fun _ => return .hold .movement (← role)
  | 0x0C => some fun _ => return .hold .facing (← role)
  | 0x0D => some fun _ => return .hold .animation (← role)
  | 0x0E => some fun _ => return .faceTarget
  | 0x0F => some fun _ => return .beginBlock
  | 0x10 => some fun _ => return .endBlock
  | 0x11 => some fun _ => do
    let register ← byte
    let tag ← byte
    let _ ← half
    return .condition register (ConditionSource.ofTag tag (← integer))
  | 0x12 => some fun _ => return .branch true
  | 0x13 => some fun _ => return .branch false
  | 0x14 => some fun _ => return .modelTransform (← role) (← vec3) (← vec3) (← vec3)
  | 0x15 => some fun _ => return .actorFade (← role) (← scalar) (← scalar)
  | 0x16 => some fun _ => return .actorWrap (← role) (← packedColor)
  | 0x17 => some fun _ => return .weaponTrace (← packedColor)
  | 0x18 => some fun _ => return .followPoints (← id) (← word) (← scalar)
  | 0x19 => some fun _ => return .screenFlash (← packedColor)
  | 0x1A => some fun _ => return .knockback (← role) (← id)
  | 0x1B => some fun _ => return .playbackRate (← scalar)
  | 0x1C => some fun _ => return .loopRoutine
  | 0x1D => some fun _ => return .timeOfDayGate (← half) (← half)
  | 0x1E => some fun _ => return .broadcastOverride (← flag)
  | 0x1F => some fun _ => do
    let bits ← word
    return .snapshot (bits &&& 1 ≠ 0) (bits &&& 2 ≠ 0)
  | 0x20 => some fun _ => return .wait
  | 0x21 => some fun _ => return .cameraShake (← scalar)
  | 0x22 => some fun _ => return .pointLight (← packedColor) (← scalar)
  | 0x23 => some fun _ => return .setVisibility (← role) (← flag)
  | 0x24 => some fun _ => return .stopAllGenerators
  | 0x25 => some fun _ => return .flinch (← role)
  | _ => none

/-- Every routine instruction starts with its delay and its duration. -/
def routineTable : OpcodeTable Effect where
  name := "routine"
  parser? opcode := (Action.parser? opcode).map fun parse header => do
    return ⟨← Decoder.half, ← Decoder.half, ← parse header⟩

end EffectMachine
