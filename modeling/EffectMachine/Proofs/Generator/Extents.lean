import EffectMachine.Generator.Definition
import EffectMachine.Proofs.Stream.Acceptance

namespace EffectMachine

open Decoder OpcodeTable

namespace GeneratorUpdater

def extent? : UInt8 → Option Extent
  | 0x01 => some (.words 3)
  | 0x02 | 0x03 | 0x04 => some (.words 4)
  | 0x05 => some (.words 2)
  | 0x06 => some (.words 1)
  | 0x07 => some (.words 2)
  | _ => none

/-- Checked opcode by opcode. -/
theorem isSome_extent? (opcode : UInt8) :
    (extent? opcode).isSome = (parser? opcode).isSome := by
  revert opcode
  apply Word.forall_byte
  decide +kernel

theorem exists_length {opcode : UInt8} {parse : Decoder GeneratorUpdater}
    (h : parser? opcode = some parse) :
    ∃ n, extent? opcode = some (.words (n + 1)) ∧ parse.HasLength (4 * n) := by
  unfold parser? at h
  split at h <;> cases h
  · exact ⟨2, rfl, scalar_hasLength.bind fun _ => scalar_hasLength.map _⟩
  · exact ⟨3, rfl, vec3_hasLength.map _⟩
  · exact ⟨3, rfl, vec3_hasLength.map _⟩
  · exact ⟨3, rfl, vec3_hasLength.map _⟩
  · exact ⟨1, rfl, scalar_hasLength.map _⟩
  · exact ⟨0, rfl, .pure _⟩
  · exact ⟨1, rfl, scalar_hasLength.map _⟩

end GeneratorUpdater

theorem generatorTable_sized : generatorTable.Sized .particle GeneratorUpdater.extent? := by
  have hparser (opcode : UInt8) : generatorTable.parser? opcode =
      (GeneratorUpdater.parser? opcode).map fun parse _ => parse := rfl
  apply sized_of_measures
  · intro opcode
    rw [hparser, Option.isSome_map, GeneratorUpdater.isSome_extent?]
  · intro opcode parse h
    rw [hparser] at h
    obtain ⟨parse, hparse, rfl⟩ := Option.map_eq_some_iff.mp h
    obtain ⟨n, he, hlength⟩ := GeneratorUpdater.exists_length hparse
    exact ⟨_, he, Extent.measures_words fun _ => hlength⟩

namespace ParticleOperation

/-- The extents of particle instructions by opcode, family after family. -/
def extent? : UInt8 → Option Extent
  | 0x01 | 0x02 | 0x03 | 0x04 | 0x05 | 0x06 | 0x07 | 0x08 | 0x09 => some (.words 4)
  | 0x0A | 0x0B => some (.words 2)
  | 0x0C | 0x0D => some (.words 3)
  | 0x0E | 0x0F => some (.words 2)
  | 0x10 => some (.words 4)
  | 0x11 => some (.words 3)
  | 0x12 => some (.words 1)
  | 0x40 => some (.words 1)
  | 0x41 => some (.words 2)
  | 0x42 | 0x43 | 0x44 | 0x45 | 0x46 => some (.words 1)
  | 0x47 | 0x48 => some (.words 2)
  | 0x80 => some (.words 2)
  | 0x81 => some (.words 3)
  | 0x82 => some (.words 2)
  | _ => none

/-- Checked opcode by opcode. -/
theorem isSome_extent? (opcode : UInt8) :
    (extent? opcode).isSome = (parser? opcode).isSome := by
  revert opcode
  apply Word.forall_byte
  decide +kernel

theorem keyFrames_hasLength (header : Header) : HasLength (do
    let set ← id
    let code ← word
    match KeyFrameChannel.ofCode? code with
    | some channel => return Initializer.keyFrames set channel
    | none =>
      note (.unknownChannel set code header.offset)
      return .keyFrames set .alpha) 8 := by
  refine id_hasLength.bind fun set => word_hasLength.bind fun code => (?_ : HasLength _ 0)
  cases KeyFrameChannel.ofCode? code with
  | some channel => exact .pure _
  | none => exact (note_hasLength _).map _

/-- Every initializer that has a parser has an extent, which counts its slot offset as well. -/
theorem exists_length_birth {opcode : UInt8} {parse : Header → Decoder Initializer}
    (h : Initializer.parser? opcode = some parse) :
    ∃ n, extent? opcode = some (.words (n + 1)) ∧ ∀ header, (parse header).HasLength (4 * n) := by
  unfold Initializer.parser? at h
  split at h <;> cases h
  · exact ⟨3, rfl, fun _ => vec3_hasLength.map _⟩
  · exact ⟨3, rfl, fun _ => vec3_hasLength.map _⟩
  · exact ⟨3, rfl, fun _ => vec3_hasLength.map _⟩
  · exact ⟨3, rfl, fun _ => vec3_hasLength.map _⟩
  · exact ⟨3, rfl, fun _ => vec3_hasLength.map _⟩
  · exact ⟨3, rfl, fun _ => vec3_hasLength.map _⟩
  · exact ⟨3, rfl, fun _ => vec3_hasLength.map _⟩
  · exact ⟨3, rfl, fun _ => vec3_hasLength.map _⟩
  · exact ⟨3, rfl, fun _ => vec3_hasLength.map _⟩
  · exact ⟨1, rfl, fun _ => packedColor_hasLength.map _⟩
  · exact ⟨1, rfl, fun _ => packedColor_hasLength.map _⟩
  · exact ⟨2, rfl, fun _ => packedColor_hasLength.bind fun _ => word_hasLength.map _⟩
  · exact ⟨2, rfl, keyFrames_hasLength⟩
  · exact ⟨1, rfl, fun _ => id_hasLength.map _⟩
  · exact ⟨1, rfl, fun _ => id_hasLength.map _⟩
  · exact ⟨3, rfl, fun _ =>
      scalar_hasLength.bind fun _ => scalar_hasLength.bind fun _ => scalar_hasLength.map _⟩
  · exact ⟨2, rfl, fun _ => id_hasLength.bind fun _ => scalar_hasLength.map _⟩
  · exact ⟨0, rfl, fun _ => .pure _⟩

theorem exists_length_update {opcode : UInt8} {parse : Decoder Updater}
    (h : Updater.parser? opcode = some parse) :
    ∃ n, extent? opcode = some (.words (n + 1)) ∧ parse.HasLength (4 * n) := by
  unfold Updater.parser? at h
  split at h <;> cases h
  · exact ⟨0, rfl, .pure _⟩
  · exact ⟨1, rfl, scalar_hasLength.map _⟩
  · exact ⟨0, rfl, .pure _⟩
  · exact ⟨0, rfl, .pure _⟩
  · exact ⟨0, rfl, .pure _⟩
  · exact ⟨0, rfl, .pure _⟩
  · exact ⟨0, rfl, .pure _⟩
  · exact ⟨1, rfl, word_hasLength.map _⟩
  · exact ⟨1, rfl, word_hasLength.map _⟩

theorem exists_length_expire {opcode : UInt8} {parse : Decoder ExpirationHandler}
    (h : ExpirationHandler.parser? opcode = some parse) :
    ∃ n, extent? opcode = some (.words (n + 1)) ∧ parse.HasLength (4 * n) := by
  unfold ExpirationHandler.parser? at h
  split at h <;> cases h
  · exact ⟨1, rfl, id_hasLength.map _⟩
  · exact ⟨2, rfl, id_hasLength.bind fun _ => scalar_hasLength.map _⟩
  · exact ⟨1, rfl, word_hasLength.map _⟩

/-- Of whichever family it is. -/
theorem exists_length {opcode : UInt8} {parse : Header → Decoder ParticleOperation}
    (h : parser? opcode = some parse) :
    ∃ n, extent? opcode = some (.words (n + 1)) ∧ ∀ header, (parse header).HasLength (4 * n) := by
  unfold parser? at h
  split at h
  next parse hparse =>
    cases h
    obtain ⟨n, he, hlength⟩ := exists_length_birth hparse
    exact ⟨n, he, fun header => (hlength header).map birth⟩
  next parse _ hparse =>
    cases h
    obtain ⟨n, he, hlength⟩ := exists_length_update hparse
    exact ⟨n, he, fun _ => hlength.map update⟩
  next parse _ _ hparse =>
    cases h
    obtain ⟨n, he, hlength⟩ := exists_length_expire hparse
    exact ⟨n, he, fun _ => hlength.map expire⟩
  next => cases h

end ParticleOperation

/-- Whatever the table remarks on what was read. -/
theorem particleTable_sized (remarks : Header → ParticleOperation → List Notice) :
    Sized { particleTable with remarks } .particle ParticleOperation.extent? := by
  apply sized_of_measures
  · exact ParticleOperation.isSome_extent?
  · intro opcode parse h
    obtain ⟨n, he, hlength⟩ := ParticleOperation.exists_length h
    exact ⟨_, he, Extent.measures_words hlength⟩

end EffectMachine
