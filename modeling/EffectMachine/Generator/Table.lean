import EffectMachine.Stream.Section
import EffectMachine.Stream.Writer

namespace EffectMachine

namespace GeneratorUpdater

def opcode : GeneratorUpdater → UInt8
  | emissionRamp .. => 0x01
  | baseOffset .. => 0x02
  | baseVelocity .. => 0x03
  | baseSpin .. => 0x04
  | distanceCull .. => 0x05
  | snapshotAnchor => 0x06
  | baseJitter .. => 0x07

def args : GeneratorUpdater → List UInt32
  | emissionRamp targetInterval frames => [targetInterval.bits, frames.bits]
  | baseOffset offset => offset.words
  | baseVelocity velocity => velocity.words
  | baseSpin rate => rate.words
  | distanceCull maxDistance => [maxDistance.bits]
  | snapshotAnchor => []
  | baseJitter radius => [radius.bits]

def write (u : GeneratorUpdater) : List UInt8 := Writer.particle u.opcode 0 u.args

open Decoder in
def parser? : UInt8 → Option (Decoder GeneratorUpdater)
  | 0x01 => some (return .emissionRamp (← scalar) (← scalar))
  | 0x02 => some (return .baseOffset (← vec3))
  | 0x03 => some (return .baseVelocity (← vec3))
  | 0x04 => some (return .baseSpin (← vec3))
  | 0x05 => some (return .distanceCull (← scalar))
  | 0x06 => some (return .snapshotAnchor)
  | 0x07 => some (return .baseJitter (← scalar))
  | _ => none

end GeneratorUpdater

def generatorTable : OpcodeTable GeneratorUpdater where
  name := "generator"
  parser? opcode := (GeneratorUpdater.parser? opcode).map fun parse _ => parse

namespace Initializer

def opcode : Initializer → UInt8
  | position .. => 0x01
  | positionJitter .. => 0x02
  | velocity .. => 0x03
  | velocityJitter .. => 0x04
  | gravity .. => 0x05
  | rotation .. => 0x06
  | angularVelocity .. => 0x07
  | scale .. => 0x08
  | scaleVelocity .. => 0x09
  | color .. => 0x0A
  | colorJitter .. => 0x0B
  | colorTransform .. => 0x0C
  | keyFrames .. => 0x0D
  | mesh .. => 0x0E
  | childGenerator .. => 0x0F
  | orbit .. => 0x10
  | sound .. => 0x11
  | anchorRelative => 0x12

def args : Initializer → List UInt32
  | position offset => offset.words
  | positionJitter extent => extent.words
  | velocity v => v.words
  | velocityJitter extent => extent.words
  | gravity acceleration => acceleration.words
  | rotation euler => euler.words
  | angularVelocity rate => rate.words
  | scale s => s.words
  | scaleVelocity rate => rate.words
  | color c => [c.toPacked]
  | colorJitter extent => [extent.toPacked]
  | colorTransform target frames => [target.toPacked, frames]
  | keyFrames set channel => [set.toWord, channel.code]
  | mesh provider => [provider.toWord]
  | childGenerator generator => [generator.toWord]
  | orbit radius speed phaseJitter => [radius.bits, speed.bits, phaseJitter.bits]
  | sound s volume => [s.toWord, volume.bits]
  | anchorRelative => []

open Decoder in
/-- A channel code without a meaning is noted and drives alpha. -/
def parser? : UInt8 → Option (Header → Decoder Initializer)
  | 0x01 => some fun _ => return .position (← vec3)
  | 0x02 => some fun _ => return .positionJitter (← vec3)
  | 0x03 => some fun _ => return .velocity (← vec3)
  | 0x04 => some fun _ => return .velocityJitter (← vec3)
  | 0x05 => some fun _ => return .gravity (← vec3)
  | 0x06 => some fun _ => return .rotation (← vec3)
  | 0x07 => some fun _ => return .angularVelocity (← vec3)
  | 0x08 => some fun _ => return .scale (← vec3)
  | 0x09 => some fun _ => return .scaleVelocity (← vec3)
  | 0x0A => some fun _ => return .color (← packedColor)
  | 0x0B => some fun _ => return .colorJitter (← packedColor)
  | 0x0C => some fun _ => return .colorTransform (← packedColor) (← word)
  | 0x0D => some fun h => do
    let set ← id
    let code ← word
    match KeyFrameChannel.ofCode? code with
    | some channel => return .keyFrames set channel
    | none =>
      note (.unknownChannel set code h.offset)
      return .keyFrames set .alpha
  | 0x0E => some fun _ => return .mesh (← id)
  | 0x0F => some fun _ => return .childGenerator (← id)
  | 0x10 => some fun _ => return .orbit (← scalar) (← scalar) (← scalar)
  | 0x11 => some fun _ => return .sound (← id) (← scalar)
  | 0x12 => some fun _ => return .anchorRelative
  | _ => none

end Initializer

namespace Updater

def opcode : Updater → UInt8
  | applyVelocity => 0x40
  | damping .. => 0x41
  | applyAngularVelocity => 0x42
  | applyScaleVelocity => 0x43
  | applyColorTransform => 0x44
  | applyKeyFrames => 0x45
  | applyOrbit => 0x46
  | fadeOut .. => 0x47
  | fadeIn .. => 0x48

def args : Updater → List UInt32
  | damping factor => [factor.bits]
  | fadeOut frames => [frames]
  | fadeIn frames => [frames]
  | _ => []

open Decoder in
def parser? : UInt8 → Option (Decoder Updater)
  | 0x40 => some (return .applyVelocity)
  | 0x41 => some (return .damping (← scalar))
  | 0x42 => some (return .applyAngularVelocity)
  | 0x43 => some (return .applyScaleVelocity)
  | 0x44 => some (return .applyColorTransform)
  | 0x45 => some (return .applyKeyFrames)
  | 0x46 => some (return .applyOrbit)
  | 0x47 => some (return .fadeOut (← word))
  | 0x48 => some (return .fadeIn (← word))
  | _ => none

end Updater

namespace ExpirationHandler

def opcode : ExpirationHandler → UInt8
  | spawnGenerator .. => 0x80
  | playSound .. => 0x81
  | restart .. => 0x82

def args : ExpirationHandler → List UInt32
  | spawnGenerator generator => [generator.toWord]
  | playSound sound volume => [sound.toWord, volume.bits]
  | restart times => [times]

open Decoder in
def parser? : UInt8 → Option (Decoder ExpirationHandler)
  | 0x80 => some (return .spawnGenerator (← id))
  | 0x81 => some (return .playSound (← id) (← scalar))
  | 0x82 => some (return .restart (← word))
  | _ => none

end ExpirationHandler

namespace ParticleOperation

def opcode : ParticleOperation → UInt8
  | birth op => op.opcode
  | update op => op.opcode
  | expire op => op.opcode

def args : ParticleOperation → List UInt32
  | birth op => op.args
  | update op => op.args
  | expire op => op.args

def write (offset : UInt32) (op : ParticleOperation) : List UInt8 :=
  Writer.particle op.opcode offset op.args

/-- The families have ranges of their own, so at most one of them knows an opcode. -/
def parser? (opcode : UInt8) : Option (Header → Decoder ParticleOperation) :=
  match Initializer.parser? opcode, Updater.parser? opcode, ExpirationHandler.parser? opcode with
  | some parse, _, _ => some fun header => return .birth (← parse header)
  | none, some parse, _ => some fun _ => return .update (← parse)
  | none, none, some parse => some fun _ => return .expire (← parse)
  | none, none, none => none

end ParticleOperation

def particleTable : OpcodeTable ParticleOperation where
  name := "particle"
  parser? := ParticleOperation.parser?

end EffectMachine
