import EffectMachine.Generator.Definition
import EffectMachine.Proofs.Routine.Actions
import EffectMachine.Proofs.Stream.Sections

namespace EffectMachine

open Decoder

@[simp] theorem KeyFrameChannel.ofCode?_code (channel : KeyFrameChannel) :
    ofCode? channel.code = some channel := by
  cases channel <;> rfl

/-- The parser of its opcode reads the arguments of an updater of the generator itself. -/
theorem GeneratorUpdater.parser_reads (u : GeneratorUpdater) :
    ∃ parse, parser? u.opcode = some parse ∧ parse.Reads (Word.allBytes u.args) u := by
  cases u with
  | emissionRamp targetInterval frames =>
    exact ⟨_, rfl, .word (scalar_reads _) (.word (scalar_reads _) (.done _))⟩
  | baseOffset offset => exact ⟨_, rfl, (vec3_reads _).map _⟩
  | baseVelocity velocity => exact ⟨_, rfl, (vec3_reads _).map _⟩
  | baseSpin rate => exact ⟨_, rfl, (vec3_reads _).map _⟩
  | distanceCull maxDistance => exact ⟨_, rfl, .word (scalar_reads _) (.done _)⟩
  | snapshotAnchor => exact ⟨_, rfl, .done _⟩
  | baseJitter radius => exact ⟨_, rfl, .word (scalar_reads _) (.done _)⟩

theorem GeneratorUpdater.length_args_le (u : GeneratorUpdater) : u.args.length ≤ 30 := by
  cases u <;> exact of_decide_eq_true rfl

/-- What the words of an initializer can tell: a colour is a packed one. -/
def Initializer.IsCanonical : Initializer → Prop
  | color c => c.IsPacked
  | colorJitter extent => extent.IsPacked
  | colorTransform target _ => target.IsPacked
  | _ => True

/-- The words of an initializer are read back by the parser of its opcode. -/
theorem Initializer.parser_reads (i : Initializer) (h : i.IsCanonical) :
    ∃ parse, parser? i.opcode = some parse ∧
      ∀ header, (parse header).Reads (Word.allBytes i.args) i := by
  cases i with
  | position offset => exact ⟨_, rfl, fun _ => (vec3_reads _).map _⟩
  | positionJitter extent => exact ⟨_, rfl, fun _ => (vec3_reads _).map _⟩
  | velocity velocity => exact ⟨_, rfl, fun _ => (vec3_reads _).map _⟩
  | velocityJitter extent => exact ⟨_, rfl, fun _ => (vec3_reads _).map _⟩
  | gravity acceleration => exact ⟨_, rfl, fun _ => (vec3_reads _).map _⟩
  | rotation euler => exact ⟨_, rfl, fun _ => (vec3_reads _).map _⟩
  | angularVelocity rate => exact ⟨_, rfl, fun _ => (vec3_reads _).map _⟩
  | scale scale => exact ⟨_, rfl, fun _ => (vec3_reads _).map _⟩
  | scaleVelocity rate => exact ⟨_, rfl, fun _ => (vec3_reads _).map _⟩
  | color c => exact ⟨_, rfl, fun _ => .word (packedColor_reads h) (.done _)⟩
  | colorJitter extent => exact ⟨_, rfl, fun _ => .word (packedColor_reads h) (.done _)⟩
  | colorTransform target frames =>
    exact ⟨_, rfl, fun _ => .word (packedColor_reads h) (.word (word_reads _) (.done _))⟩
  | keyFrames set channel =>
    refine ⟨_, rfl, fun header => .word (id_reads _) (.word (word_reads _) ?_)⟩
    rw [channel.ofCode?_code]
    exact .done _
  | mesh provider => exact ⟨_, rfl, fun _ => .word (id_reads _) (.done _)⟩
  | childGenerator generator => exact ⟨_, rfl, fun _ => .word (id_reads _) (.done _)⟩
  | orbit radius speed phaseJitter =>
    exact ⟨_, rfl, fun _ =>
      .word (scalar_reads _) (.word (scalar_reads _) (.word (scalar_reads _) (.done _)))⟩
  | sound sound volume =>
    exact ⟨_, rfl, fun _ => .word (id_reads _) (.word (scalar_reads _) (.done _))⟩
  | anchorRelative => exact ⟨_, rfl, fun _ => .done _⟩

/-- The words of an updater are read back by the parser of its opcode. -/
theorem Updater.parser_reads (u : Updater) :
    ∃ parse, parser? u.opcode = some parse ∧ parse.Reads (Word.allBytes u.args) u := by
  cases u with
  | applyVelocity => exact ⟨_, rfl, .done _⟩
  | damping factor => exact ⟨_, rfl, .word (scalar_reads _) (.done _)⟩
  | applyAngularVelocity => exact ⟨_, rfl, .done _⟩
  | applyScaleVelocity => exact ⟨_, rfl, .done _⟩
  | applyColorTransform => exact ⟨_, rfl, .done _⟩
  | applyKeyFrames => exact ⟨_, rfl, .done _⟩
  | applyOrbit => exact ⟨_, rfl, .done _⟩
  | fadeOut frames => exact ⟨_, rfl, .word (word_reads _) (.done _)⟩
  | fadeIn frames => exact ⟨_, rfl, .word (word_reads _) (.done _)⟩

/-- The words of an expiration handler are read back by the parser of its opcode. -/
theorem ExpirationHandler.parser_reads (e : ExpirationHandler) :
    ∃ parse, parser? e.opcode = some parse ∧ parse.Reads (Word.allBytes e.args) e := by
  cases e with
  | spawnGenerator generator => exact ⟨_, rfl, .word (id_reads _) (.done _)⟩
  | playSound sound volume =>
    exact ⟨_, rfl, .word (id_reads _) (.word (scalar_reads _) (.done _))⟩
  | restart times => exact ⟨_, rfl, .word (word_reads _) (.done _)⟩

namespace ParticleOperation

def IsCanonical : ParticleOperation → Prop
  | birth op => op.IsCanonical
  | _ => True

/-- No opcode of an updater is one of an initializer. -/
theorem initializer_parser?_update (u : Updater) : Initializer.parser? u.opcode = none := by
  cases u <;> rfl

/-- No opcode of an expiration handler is one of the other families. -/
theorem other_parsers?_expire (e : ExpirationHandler) :
    Initializer.parser? e.opcode = none ∧ Updater.parser? e.opcode = none := by
  cases e <;> exact ⟨rfl, rfl⟩

/-- Whatever its family, an operation is read back from its words. -/
theorem parser_reads (op : ParticleOperation) (h : op.IsCanonical) :
    ∃ parse, parser? op.opcode = some parse ∧
      ∀ header, (parse header).Reads (Word.allBytes op.args) op := by
  cases op with
  | birth op =>
    obtain ⟨parse, hparse, hreads⟩ := op.parser_reads h
    refine ⟨_, ?_, fun header => (hreads header).map birth⟩
    rw [parser?, opcode, hparse]
  | update op =>
    obtain ⟨parse, hparse, hreads⟩ := op.parser_reads
    refine ⟨_, ?_, fun _ => hreads.map update⟩
    rw [parser?, opcode, initializer_parser?_update, hparse]
  | expire op =>
    obtain ⟨parse, hparse, hreads⟩ := op.parser_reads
    obtain ⟨hinit, hupdate⟩ := other_parsers?_expire op
    refine ⟨_, ?_, fun _ => hreads.map expire⟩
    rw [parser?, opcode, hinit, hupdate, hparse]

theorem length_args_le (op : ParticleOperation) : op.args.length ≤ 30 := by
  cases op with
  | birth op => cases op <;> exact of_decide_eq_true rfl
  | update op => cases op <;> exact of_decide_eq_true rfl
  | expire op => cases op <;> exact of_decide_eq_true rfl

end ParticleOperation

namespace OpcodeTable

variable {α : Type} {table : OpcodeTable α}

/-- A written instruction is read as what its parser makes of the arguments. -/
theorem step_particle {opcode : UInt8} {offset : UInt32} {args : List UInt32} {content : α}
    {parse : Header → Decoder α} (hzero : table.parser? terminator = none)
    (hlength : args.length ≤ 30)
    (hoffset : offset ≤ Header.maxPackedOffset) (hparse : table.parser? opcode = some parse)
    (hcontent : ∀ header, (parse header).Reads (Word.allBytes args) content)
    (hremarks : table.remarks (.ofArgs opcode offset args) content = []) :
    (table.step .particle).Reads (Writer.particle opcode offset args)
      (.item (.ofArgs opcode offset args) content) := by
  have hopcode : opcode ≠ terminator := by
    intro h
    rw [h, hzero] at hparse
    cases hparse
  have hsize : (UInt8.ofNat (args.length + 1)).toNat = args.length + 1 :=
    UInt8.toNat_ofNat_of_lt' (by change _ < 256; omega)
  have hpacked : UInt8.ofNat (args.length + 1) ≤ Header.maxPackedSize := by
    rw [UInt8.le_iff_toNat_le, hsize]
    change _ ≤ 31
    omega
  have hbytes : (Header.ofArgs opcode offset args).byteLength =
      4 + (Word.allBytes args).length := by
    rw [Header.byteLength, Header.ofArgs, hsize, Word.length_allBytes]
    omega
  exact step_item (Header.packed_reads hpacked hoffset) rfl hopcode hbytes hparse (hcontent _)
    hremarks

theorem step_sectionEnd : (table.step .particle).Reads (Writer.sectionEnd .particle)
    (.stop .terminated) :=
  step_terminated (Header.packed_reads (h := ⟨terminator, 1, 0⟩) (by decide) (by decide)) rfl rfl
    rfl

end OpcodeTable
end EffectMachine
