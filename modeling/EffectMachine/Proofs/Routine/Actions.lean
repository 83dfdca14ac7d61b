import EffectMachine.Proofs.Colors
import EffectMachine.Proofs.Stream.Reading
import EffectMachine.Routine.Table

namespace EffectMachine

@[simp] theorem ActorRole.ofByte_toByte (actor : ActorRole) : ofByte actor.toByte = actor := by
  cases actor <;> rfl

/-- A tag without a meaning, where the tag is written out. -/
def ConditionSource.IsCanonical : ConditionSource → Prop
  | unknown tag _ => 2 < tag
  | _ => True

theorem ConditionSource.ofTag_tag {source : ConditionSource} (h : source.IsCanonical) :
    ofTag source.tag source.value = source := by
  cases source with
  | constant v => rfl
  | gameState v => rfl
  | random v => rfl
  | unknown tag v =>
    have hunknown : 2 < tag := h
    change ofTag tag v = _
    unfold ofTag
    split
    · exact absurd hunknown (by decide)
    · exact absurd hunknown (by decide)
    · exact absurd hunknown (by decide)
    · rfl

/-- What the words of an instruction can tell: a colour is a packed one, an unknown tag is none of
the known ones, and the size of an instruction is a byte. -/
def Action.IsCanonical : Action → Prop
  | randomRoutine choices => choices.length ≤ 252
  | condition _ source => source.IsCanonical
  | actorWrap _ color => color.IsPacked
  | weaponTrace color => color.IsPacked
  | screenFlash color => color.IsPacked
  | pointLight color _ => color.IsPacked
  | _ => True

namespace Decoder

theorem flag_reads (b : Bool) : flag.Reads (Word.bytes (if b then 1 else 0)) b := by
  cases b with
  | false => exact (word_reads 0).map fun w => decide (w &&& 1 ≠ 0)
  | true => exact (word_reads 1).map fun w => decide (w &&& 1 ≠ 0)

theorem role_reads (actor : ActorRole) : role.Reads (Word.bytes actor.toByte.toUInt32) actor := by
  cases actor with
  | source => exact (word_reads 0).map fun w => ActorRole.ofByte w.toUInt8
  | target => exact (word_reads 1).map fun w => ActorRole.ofByte w.toUInt8

theorem packedColor_reads {c : Color} (h : c.IsPacked) :
    packedColor.Reads (Word.bytes c.toPacked) c := by
  obtain ⟨w, rfl⟩ := h
  rw [Color.toPacked_ofPacked]
  exact (word_reads w).map Color.ofPacked

theorem ids_reads (ids : List ResourceId) :
    (repeated id ids.length).Reads (Word.allBytes (ids.map ResourceId.toWord)) ids :=
  (repeated_reads ids id_reads).of_eq (List.flatMap_map ..).symm

end Decoder

namespace Action

open Decoder

/-- The parser of its opcode reads the arguments of an action. Of the header only a list of choices
takes notice, which is never read past the size. -/
theorem parser_reads (a : Action) (h : a.IsCanonical) {header : Header}
    (hsize : header.size.toNat = a.args.length + 2) :
    ∃ parse, parser? a.opcode = some parse ∧ (parse header).Reads (Word.allBytes a.args) a := by
  cases a with
  | spawnGenerator generator => exact ⟨_, rfl, .word (id_reads _) (.done _)⟩
  | stopGenerator generator => exact ⟨_, rfl, .word (id_reads _) (.done _)⟩
  | spawnRoutine routine blocking =>
    exact ⟨_, rfl, .word (id_reads _) (.word (flag_reads _) (.done _))⟩
  | linkRoutine routine blocking =>
    exact ⟨_, rfl, .word (id_reads _) (.word (flag_reads _) (.done _))⟩
  | randomRoutine choices =>
    have hcount : min (UInt32.ofNat choices.length).toNat (header.size.toNat - 3) =
        choices.length := by
      have hfits : choices.length < 2 ^ 32 := Nat.lt_of_le_of_lt h (by decide)
      rw [UInt32.toNat_ofNat_of_lt' hfits, hsize, args, List.length_cons, List.length_map]
      omega
    refine ⟨_, rfl, .word (word_reads _) ?_⟩
    rw [hcount]
    exact (ids_reads choices).map _
  | stopRoutine routine => exact ⟨_, rfl, .word (id_reads _) (.done _)⟩
  | playSound sound volume follow =>
    exact ⟨_, rfl, .word (id_reads _) (.word (scalar_reads _) (.word (flag_reads _) (.done _)))⟩
  | stopSound sound => exact ⟨_, rfl, .word (id_reads _) (.done _)⟩
  | playAnimation animation actor loops transition =>
    have hrole := congrArg (playAnimation animation · loops transition) actor.ofByte_toByte
    exact ⟨_, rfl, .word (id_reads _) (.last (.of_eq
      (.bind (byte_reads _) (.bind (byte_reads _) ((half_reads _).map_eq hrole)))
      (Word.bytes_parts ..).symm))⟩
  | stopAnimation animation actor =>
    exact ⟨_, rfl, .word (id_reads _) (.word (role_reads _) (.done _))⟩
  | hold lock actor =>
    cases lock with
    | movement => exact ⟨_, rfl, .word (role_reads _) (.done _)⟩
    | facing => exact ⟨_, rfl, .word (role_reads _) (.done _)⟩
    | animation => exact ⟨_, rfl, .word (role_reads _) (.done _)⟩
  | faceTarget => exact ⟨_, rfl, .done _⟩
  | beginBlock => exact ⟨_, rfl, .done _⟩
  | endBlock => exact ⟨_, rfl, .done _⟩
  | condition register source =>
    have hsource := congrArg (condition register) (ConditionSource.ofTag_tag h)
    have hbytes : Word.allBytes (args (condition register source)) =
        [register] ++ ([source.tag] ++ (Word.halfBytes 0 ++ Word.bytes source.value.toUInt32)) := by
      rw [args, Word.allBytes, List.flatMap_cons, List.flatMap_singleton, Word.bytes_pair]
      rfl
    rw [hbytes]
    exact ⟨_, rfl, .bind (byte_reads _) (.bind (byte_reads _)
      (.bind (half_reads _) ((integer_reads _).map_eq hsource)))⟩
  | branch whenTrue =>
    cases whenTrue with
    | true => exact ⟨_, rfl, .done _⟩
    | false => exact ⟨_, rfl, .done _⟩
  | modelTransform actor translation rotation scale =>
    refine ⟨_, rfl, .word (role_reads _) ?_⟩
    rw [List.append_assoc]
    exact .words (vec3_reads _) (.words (vec3_reads _) ((vec3_reads _).map _))
  | actorFade actor start finish =>
    exact ⟨_, rfl, .word (role_reads _) (.word (scalar_reads _) (.word (scalar_reads _) (.done _)))⟩
  | actorWrap actor color =>
    exact ⟨_, rfl, .word (role_reads _) (.word (packedColor_reads h) (.done _))⟩
  | weaponTrace color => exact ⟨_, rfl, .word (packedColor_reads h) (.done _)⟩
  | followPoints generator points arcHeight =>
    exact ⟨_, rfl, .word (id_reads _) (.word (word_reads _) (.word (scalar_reads _) (.done _)))⟩
  | screenFlash color => exact ⟨_, rfl, .word (packedColor_reads h) (.done _)⟩
  | knockback actor animation =>
    exact ⟨_, rfl, .word (role_reads _) (.word (id_reads _) (.done _))⟩
  | playbackRate rate => exact ⟨_, rfl, .word (scalar_reads _) (.done _)⟩
  | loopRoutine => exact ⟨_, rfl, .done _⟩
  | timeOfDayGate startMinute endMinute =>
    exact ⟨_, rfl, .last (.of_eq ((half_reads _).bind ((half_reads _).map _))
      (Word.bytes_ofHalves ..).symm)⟩
  | broadcastOverride enabled => exact ⟨_, rfl, .word (flag_reads _) (.done _)⟩
  | snapshot position joints =>
    refine ⟨_, rfl, .word (word_reads _) ?_⟩
    cases position <;> cases joints <;> exact .done _
  | wait => exact ⟨_, rfl, .done _⟩
  | cameraShake intensity => exact ⟨_, rfl, .word (scalar_reads _) (.done _)⟩
  | pointLight color radius =>
    exact ⟨_, rfl, .word (packedColor_reads h) (.word (scalar_reads _) (.done _))⟩
  | setVisibility actor visible =>
    exact ⟨_, rfl, .word (role_reads _) (.word (flag_reads _) (.done _))⟩
  | stopAllGenerators => exact ⟨_, rfl, .done _⟩
  | flinch actor => exact ⟨_, rfl, .word (role_reads _) (.done _)⟩

end Action
end EffectMachine
