import EffectMachine.Proofs.Generator.Extents
import EffectMachine.Proofs.Generator.RoundTrip
import EffectMachine.Proofs.Routine.Extents
import EffectMachine.Proofs.Stream.Insertion
import EffectMachine.Routine.Definition

namespace EffectMachine

open Decoder OpcodeTable

theorem Generator.sectionTable_sized (id : ResourceId) (family : ParticleFamily) :
    (sectionTable id family).Sized .particle ParticleOperation.extent? :=
  particleTable_sized _

/-- Each table reads the sections of instructions that have the size of their opcode, or an opcode
that the table does not know, up to a terminator or the end of the stream, and no others. -/
theorem sections_read_exactly :
    routineTable.ReadsExactly .routine Action.extent? ∧
    generatorTable.ReadsExactly .particle GeneratorUpdater.extent? ∧
    particleTable.ReadsExactly .particle ParticleOperation.extent? ∧
    ∀ id family, (Generator.sectionTable id family).ReadsExactly .particle
      ParticleOperation.extent? :=
  ⟨routineTable_sized.readsExactly, generatorTable_sized.readsExactly,
    (particleTable_sized particleTable.remarks).readsExactly,
    fun id family => (Generator.sectionTable_sized id family).readsExactly⟩

namespace OpcodeTable

variable {α : Type} {table : OpcodeTable α} {format : HeaderFormat}
  {extent? : UInt8 → Option Extent} {i : Instruction}

/-- An instruction of an opcode that the table does not know, whatever its words are. -/
structure Ignores (table : OpcodeTable α) (format : HeaderFormat) (i : Instruction) : Prop
    extends i.IsWhole format where
  unknown : table.parser? (i.header format).opcode = none

theorem Ignores.admitted (hs : table.Sized format extent?) (hi : table.Ignores format i) :
    i.IsAdmitted extent? format := by
  refine ⟨hi.toIsWhole, fun e he => ?_⟩
  obtain ⟨hnone, _⟩ | ⟨_, parse, _, hparse, _⟩ := hs.cases (i.header format).opcode
  · rw [hnone] at he
    cases he
  · rw [hi.unknown] at hparse
    cases hparse

theorem Ignores.passesOver {β : Type} {pick : Header × α → Option β}
    (hs : table.Sized format extent?) (hi : table.Ignores format i) :
    table.PassesOver extent? format pick i where
  admitted := hi.admitted hs
  unpicked item hitem := by
    rw [item?_unknown hi.unknown] at hitem
    cases hitem

end OpcodeTable

namespace ParticleOperation

/-- An opcode is in the range of the family that its parser makes. -/
theorem family_of_parsed {opcode : UInt8} {parse : Header → Decoder ParticleOperation}
    (h : parser? opcode = some parse) (header : Header) :
    (parse header).Always fun op => ParticleFamily.ofOpcode? opcode = some op.family := by
  unfold parser? at h
  split at h
  next parse hparse =>
    cases h
    have hrange : ParticleFamily.ofOpcode? opcode = some .initializer := by
      unfold Initializer.parser? at hparse
      split at hparse <;> first | rfl | cases hparse
    exact .after _ fun op => .pure hrange
  next parse _ hparse =>
    cases h
    have hrange : ParticleFamily.ofOpcode? opcode = some .updater := by
      unfold Updater.parser? at hparse
      split at hparse <;> first | rfl | cases hparse
    exact .after _ fun op => .pure hrange
  next parse _ _ hparse =>
    cases h
    have hrange : ParticleFamily.ofOpcode? opcode = some .expiration := by
      unfold ExpirationHandler.parser? at hparse
      split at hparse <;> first | rfl | cases hparse
    exact .after _ fun op => .pure hrange
  next => cases h

/-- What a section of one family makes nothing of: an opcode that the particle table does not know,
or an instruction of its size whose opcode is in the range of another family. -/
def LeftOut (family : ParticleFamily) (i : Instruction) : Prop :=
  particleTable.Ignores .particle i ∨
    (i.IsAdmitted extent? .particle ∧
      ParticleFamily.ofOpcode? (i.header .particle).opcode ≠ some family)

/-- An item of a table is of the family that its opcode is in the range of. -/
theorem family_of_item {id : ResourceId} {family : ParticleFamily} {i : Instruction}
    {header : Header} {op : ParticleOperation}
    (h : (Generator.sectionTable id family).item? .particle i = some (header, op)) :
    ParticleFamily.ofOpcode? (i.header .particle).opcode = some op.family := by
  rw [item?] at h
  obtain ⟨parse, hparse, h⟩ := Option.bind_eq_some_iff.mp h
  obtain ⟨content, hcontent, h⟩ := Option.bind_eq_some_iff.mp h
  cases h
  rw [Decoder.decode] at hcontent
  split at hcontent
  next x r hx =>
    cases hcontent
    exact family_of_parsed hparse _ _ _ _ hx
  next => cases hcontent

/-- What a family makes nothing of is passed over by its section. -/
theorem LeftOut.passesOver {α : Type} {pick : ParticleOperation → Option α} {id : ResourceId}
    {family : ParticleFamily} (hpick : ∀ op, op.family ≠ family → pick op = none) {i : Instruction}
    (hi : LeftOut family i) :
    (Generator.sectionTable id family).PassesOver extent? .particle
      (fun (header, op) => (pick op).map (Slotted.mk header.offset)) i := by
  obtain hi | ⟨hadmitted, hfamily⟩ := hi
  · exact Ignores.passesOver (Generator.sectionTable_sized id family) ⟨hi.toIsWhole, hi.unknown⟩
  · refine ⟨hadmitted, ?_⟩
    rintro ⟨header, op⟩ hitem
    have hother : op.family ≠ family := by
      rintro rfl
      exact hfamily (family_of_item hitem)
    change (pick op).map _ = none
    rw [hpick op hother]
    rfl

end ParticleOperation

namespace Routine

/-- What may be put into a section of a routine. -/
def mayInsert : Instruction → Prop := routineTable.Ignores .routine

theorem sections_twin :
    sections.Twin (Alike .routine [mayInsert, mayInsert, mayInsert]) fun _ _ => True := by
  have hsection (later : List (Instruction → Prop)) : (routineTable.decoder .routine).Twin
      (Alike .routine (mayInsert :: later)) (Alike .routine later) :=
    decoder_twin routineTable_sized fun _ hi => hi.passesOver routineTable_sized
  refine (hsection _).bind fun (effects, how) => ?_
  dsimp only
  split
  · exact .done _
  refine (hsection _).bind fun (onComplete, how) => ?_
  dsimp only
  split
  · exact .done _
  exact (hsection _).bind fun (onStop, how) => .done _

end Routine

namespace Generator

variable {id : ResourceId} {origin : ResourcePath}

theorem attachment_hasLength (code : UInt8) : (attachment id code).HasLength 0 := by
  rw [attachment]
  cases Attachment.ofCode? code with
  | some attach => exact .pure attach
  | none => exact (note_hasLength _).map _

theorem readHeader_hasLength : (readHeader id origin).HasLength (4 * headerWords) :=
  byte_hasLength.bind fun _ => (attachment_hasLength _).bind fun _ => byte_hasLength.bind fun _ =>
  byte_hasLength.bind fun _ => byte_hasLength.bind fun _ => half_hasLength.bind fun _ =>
  half_hasLength.bind fun _ => half_hasLength.bind fun _ => half_hasLength.bind fun _ =>
  half_hasLength.bind fun _ => half_hasLength.bind fun _ => id_hasLength.bind fun _ =>
  id_hasLength.bind fun _ => scalar_hasLength.bind fun _ => word_hasLength.map _

/-- What may be put into the sections of a generator. -/
def mayInsert : List (Instruction → Prop) :=
  [generatorTable.Ignores .particle, ParticleOperation.LeftOut .initializer,
    ParticleOperation.LeftOut .updater, ParticleOperation.LeftOut .expiration]

theorem familySection_twin {α : Type} {family : ParticleFamily}
    {pick : ParticleOperation → Option α} (hpick : ∀ op, op.family ≠ family → pick op = none)
    (later : List (Instruction → Prop)) :
    (familySection id family pick).Twin
      (Alike .particle (ParticleOperation.LeftOut family :: later)) (Alike .particle later) :=
  picked_twin (sectionTable_sized id family) fun _ hi => hi.passesOver hpick

/-- Insertions into any of the four sections leave the same generator. -/
theorem readSections_twin (id : ResourceId) (header : Generator) :
    (readSections id header).Twin (Alike .particle mayInsert) fun _ _ => True := by
  refine (decoder_twin generatorTable_sized fun _ hi =>
    hi.passesOver generatorTable_sized).bind fun (items, how) => ?_
  dsimp only
  split
  · exact .done _
  refine (familySection_twin (fun op hop => ?_) _).bind fun (initializers, how) => ?_
  · cases op with
    | birth op => exact absurd rfl hop
    | update op => rfl
    | expire op => rfl
  dsimp only
  split
  · exact .done _
  refine (familySection_twin (fun op hop => ?_) _).bind fun (updaters, how) => ?_
  · cases op with
    | birth op => rfl
    | update op => exact absurd rfl hop
    | expire op => rfl
  dsimp only
  split
  · exact .done _
  refine (familySection_twin (fun op hop => ?_) _).bind fun (expiration, how) => .done _
  cases op with
  | birth op => rfl
  | update op => rfl
  | expire op => exact absurd rfl hop

theorem decode_of_long {data : List UInt8} (h : 4 * headerWords ≤ data.length) :
    decode id origin data = (readHeader id origin >>= readSections id).decode data := by
  have hrest : 4 * headerWords ≤ (Reader.of data).rest.length := h
  rw [decode, Decoder.decode, Decoder.decode, decoder_of_long hrest]

theorem decode_inserted {header after before : List UInt8}
    (hlength : header.length = 4 * headerWords)
    (h : Inserted .particle mayInsert after before) :
    (decode id origin (header ++ after)).1.toOption =
      (decode id origin (header ++ before)).1.toOption := by
  have hlong (behind : List UInt8) : 4 * headerWords ≤ (header ++ behind).length := by
    rw [List.length_append, hlength]
    exact Nat.le_add_right ..
  rw [decode_of_long (hlong after), decode_of_long (hlong before)]
  have hheader : (readHeader id origin).HasLength (4 * headerWords) := readHeader_hasLength
  have htwin := (Twin.of_hasLength hheader).bind (readSections_twin id)
  exact htwin.decode ⟨header, after, before, hlength, rfl, rfl, .inr h⟩

end Generator

theorem Routine.decode_inserted {id : ResourceId} {origin : ResourcePath} {config : Config}
    {after before : List UInt8}
    (h : Inserted .routine [mayInsert, mayInsert, mayInsert] after before) :
    (decode id origin config after).1.toOption = (decode id origin config before).1.toOption :=
  Twin.decode (sections_twin.bind fun (effects, onComplete, onStop) =>
    .done (ofSections id origin effects onComplete onStop config)) (.inr h)

/-- An instruction that its section makes nothing of can be put between any others, whatever its
words are: the streams can both be decoded or neither can, and what is decoded of them is the same.
A section closes at its own terminator, not at what looks like one in those words. -/
theorem insertions_change_nothing (id : ResourceId) (origin : ResourcePath) :
    (∀ config after before,
      Inserted .routine [Routine.mayInsert, Routine.mayInsert, Routine.mayInsert] after before →
      (Routine.decode id origin config after).1.toOption =
        (Routine.decode id origin config before).1.toOption) ∧
    ∀ header after before, header.length = 4 * Generator.headerWords →
      Inserted .particle Generator.mayInsert after before →
      (Generator.decode id origin (header ++ after)).1.toOption =
        (Generator.decode id origin (header ++ before)).1.toOption :=
  ⟨fun _ _ _ h => Routine.decode_inserted h,
    fun _ _ _ hlength h => Generator.decode_inserted hlength h⟩

/-- An instruction of an opcode without a meaning; each of its words looks like a terminator. -/
def disguised : Instruction := ⟨Word.ofBytes 0x7F 3 0 0, [0, 1, 0, 0, 0, 1, 0, 0]⟩

def mover : Instruction := ⟨Word.ofBytes 0x40 1 0 0, []⟩

def closing : Instruction := ⟨Word.ofBytes 0 1 0 0, []⟩

/-- In the second list of a routine that goes on to the end of the stream, and in the second section
of a generator, which is for initializers. -/
theorem disguised_change_nothing :
    (Routine.decode ⟨1, 0, 0, 0⟩ ResourcePath.root {}
        (closing.bytes ++ (disguised.bytes ++ []))).1.toOption =
      (Routine.decode ⟨1, 0, 0, 0⟩ ResourcePath.root {} (closing.bytes ++ [])).1.toOption ∧
    (Generator.decode ⟨1, 0, 0, 0⟩ ResourcePath.root
        (List.replicate 32 0 ++ (closing.bytes ++ (mover.bytes ++ closing.bytes)))).1.toOption =
      (Generator.decode ⟨1, 0, 0, 0⟩ ResourcePath.root
        (List.replicate 32 0 ++ (closing.bytes ++ closing.bytes))).1.toOption := by
  obtain ⟨hroutine, hgenerator⟩ := insertions_change_nothing ⟨1, 0, 0, 0⟩ ResourcePath.root
  have hdisguised : Routine.mayInsert disguised := ⟨⟨by decide, rfl⟩, rfl⟩
  have hmover : ParticleOperation.LeftOut .initializer mover := by
    refine .inr ⟨⟨⟨by decide, rfl⟩, ?_⟩, by decide⟩
    rintro e ⟨⟩
    exact show (1 : UInt8).toNat = 1 from rfl
  have hclosing (format : HeaderFormat) : closing.IsEnd format := by
    cases format <;> exact ⟨rfl, rfl⟩
  have hfirst (format : HeaderFormat) : ∀ j ∈ ([] : List Instruction), j.IsWhole format := nofun
  constructor
  · exact hroutine {} _ _
      (.behind (hfirst .routine) (hclosing .routine) (.here (hfirst .routine) hdisguised))
  · exact hgenerator _ _ _ rfl
      (.behind (hfirst .particle) (hclosing .particle) (.here (hfirst .particle) hmover))

end EffectMachine
