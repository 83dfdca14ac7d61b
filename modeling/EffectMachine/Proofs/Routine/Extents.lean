import EffectMachine.Proofs.Stream.Acceptance
import EffectMachine.Routine.Table

namespace EffectMachine

open Decoder

def Action.extent? : UInt8 → Option Extent
  | 0x01 | 0x02 => some (.words 3)
  | 0x03 | 0x04 => some (.words 4)
  | 0x05 => some .choices
  | 0x06 => some (.words 3)
  | 0x07 => some (.words 5)
  | 0x08 => some (.words 3)
  | 0x09 | 0x0A => some (.words 4)
  | 0x0B | 0x0C | 0x0D => some (.words 3)
  | 0x0E | 0x0F | 0x10 => some (.words 2)
  | 0x11 => some (.words 4)
  | 0x12 | 0x13 => some (.words 2)
  | 0x14 => some (.words 12)
  | 0x15 => some (.words 5)
  | 0x16 => some (.words 4)
  | 0x17 => some (.words 3)
  | 0x18 => some (.words 5)
  | 0x19 => some (.words 3)
  | 0x1A => some (.words 4)
  | 0x1B => some (.words 3)
  | 0x1C => some (.words 2)
  | 0x1D | 0x1E | 0x1F => some (.words 3)
  | 0x20 => some (.words 2)
  | 0x21 => some (.words 3)
  | 0x22 | 0x23 => some (.words 4)
  | 0x24 => some (.words 2)
  | 0x25 => some (.words 3)
  | _ => none

namespace Decoder

theorem flag_hasLength : flag.HasLength 4 := word_hasLength.map fun w => decide (w &&& 1 ≠ 0)

theorem role_hasLength : role.HasLength 4 := word_hasLength.map fun w => ActorRole.ofByte w.toUInt8

end Decoder

namespace Effect

variable {parse : Header → Decoder Action} {header : Header} {r r' : Reader}

def timed (parse : Header → Decoder Action) (header : Header) : Decoder Effect := do
  return ⟨← Decoder.half, ← Decoder.half, ← parse header⟩

theorem timed_takes {a : Action} {args : List UInt8} (timing : UInt32)
    (h : (parse header).Takes args a) :
    ∃ e, (timed parse header).Takes (Word.bytes timing ++ args) e := by
  obtain ⟨delay, hdelay⟩ := half_hasLength.takes [timing.toUInt8, (timing >>> 8).toUInt8] rfl
  obtain ⟨duration, hduration⟩ :=
    half_hasLength.takes [(timing >>> 16).toUInt8, (timing >>> 24).toUInt8] rfl
  exact ⟨⟨delay, duration, a⟩, hdelay.bind (hduration.bind (h.map _))⟩

theorem timed_ok {e : Effect} (h : timed parse header r = .ok e r') :
    4 ≤ r.rest.length ∧ ∃ log a, parse header (r.past 4 log) = .ok a r' := by
  obtain ⟨delay, _, hdelay, h⟩ := exists_of_bind h
  obtain ⟨_, log, rfl⟩ := half_hasLength.of_ok hdelay
  obtain ⟨duration, _, hduration, h⟩ := exists_of_bind h
  obtain ⟨hlong, log', rfl⟩ := half_hasLength.of_ok hduration
  obtain ⟨a, _, ha, h⟩ := exists_of_bind h
  cases h
  rw [r.rest_past, List.length_drop] at hlong
  exact ⟨by omega, log', a, ha⟩

theorem measures_words {n : Nat} (h : ∀ header, (parse header).HasLength (4 * n)) :
    (Extent.words (n + 2)).Measures .routine (timed parse) := by
  apply Extent.measures_words
  intro header
  have hlength : (timed parse header).HasLength (2 + (2 + 4 * n)) :=
    half_hasLength.bind fun _ => half_hasLength.bind fun _ => (h header).map _
  rwa [show 2 + (2 + 4 * n) = 4 * (n + 1) by omega] at hlength

/-- Reads as many choices as there are, but no more than the size has room for. -/
def readChoices (header : Header) : Decoder Action := do
  let count ← word
  return .randomRoutine (← repeated id (min count.toNat (header.size.toNat - 3)))

theorem readChoices_takes {count : UInt32} {args : List UInt8}
    (h : args.length = min count.toNat (header.size.toNat - 3) * 4) :
    ∃ a, (readChoices header).Takes (Word.bytes count ++ args) a := by
  obtain ⟨ids, hids⟩ := (repeated_hasLength id_hasLength _).takes args h
  exact ⟨_, (word_reads count).takes.bind (hids.map _)⟩

theorem readChoices_ok {a : Action} (h : readChoices header r = .ok a r') :
    ∃ count tail, r.rest = Word.bytes count ++ tail ∧
      r'.pos = r.pos + 4 + min count.toNat (header.size.toNat - 3) * 4 := by
  obtain ⟨count, _, hcount, h⟩ := exists_of_bind h
  obtain ⟨hlong, log, rfl⟩ := word_hasLength.of_ok hcount
  obtain ⟨w, tail, hrest⟩ := Word.exists_bytes hlong
  rw [word_reads w r tail hrest] at hcount
  obtain ⟨rfl, _⟩ := EStateM.Result.ok.inj hcount
  obtain ⟨ids, _, hids, h⟩ := exists_of_bind h
  obtain ⟨_, log', rfl⟩ := (repeated_hasLength id_hasLength _).of_ok hids
  cases h
  exact ⟨w, tail, hrest, rfl⟩

/-- With fewer choices than there is room for, or with no room for their number, the parser comes to
another place than the end. -/
theorem measures_choices : Extent.choices.Measures .routine (timed readChoices) where
  takes i hi := by
    rintro ⟨hsize, timing, count, args, hbody, hcount⟩
    have hlength := hi.length
    rw [i.length_bytes, Header.byteLength, hbody, List.length_append, List.length_append] at hlength
    change 4 + (4 + 4 + args.length) = _ at hlength
    have hargs : args.length = min count.toNat ((i.header .routine).size.toNat - 3) * 4 := by
      rw [Nat.min_eq_right hcount]
      omega
    obtain ⟨a, ha⟩ := readChoices_takes hargs
    rw [hbody, List.append_assoc]
    exact timed_takes timing ha
  misses i hi hfits r rest hr x r' hx hpos := by
    have hlength := hi.length
    rw [i.length_bytes, Header.byteLength] at hlength
    obtain ⟨_, log, a, ha⟩ := timed_ok hx
    obtain ⟨count, tail, hcount, hend⟩ := readChoices_ok ha
    change r'.pos = r.pos + 4 + 4 + _ at hend
    obtain ⟨timing, words, hbody⟩ := Word.exists_bytes (show 4 ≤ i.body.length by omega)
    have hwords : 4 ≤ words.length := by
      rw [hbody, List.length_append] at hpos
      change r'.pos = r.pos + (4 + _) at hpos
      omega
    obtain ⟨count', args, rfl⟩ := Word.exists_bytes hwords
    have hsame : count' = count := by
      rw [r.rest_past, hr, hbody, List.append_assoc] at hcount
      change Word.bytes count' ++ args ++ rest = _ at hcount
      rw [List.append_assoc] at hcount
      exact Word.bytes_inj.mp (List.append_inj hcount rfl).1
    refine hfits ⟨by omega, timing, count', args, ?_, ?_⟩
    · rw [hbody, List.append_assoc]
    · rw [hsame]
      omega

end Effect

/-- Checked opcode by opcode. -/
theorem Action.isSome_extent? (opcode : UInt8) :
    (extent? opcode).isSome = (parser? opcode).isSome := by
  revert opcode
  apply Word.forall_byte
  decide +kernel

/-- Every routine instruction that has a parser has an extent that measures it. -/
theorem Action.exists_extent {opcode : UInt8} {parse : Header → Decoder Action}
    (h : parser? opcode = some parse) :
    ∃ e, extent? opcode = some e ∧ e.Measures .routine (Effect.timed parse) := by
  have fixed {parse : Header → Decoder Action} (n : Nat)
      (hlength : ∀ header, (parse header).HasLength (4 * n)) :
      ∃ e, some (Extent.words (n + 2)) = some e ∧ e.Measures .routine (Effect.timed parse) :=
    ⟨_, rfl, Effect.measures_words hlength⟩
  -- One case for each opcode, in their order; each names the parts that its parser reads.
  unfold parser? at h
  split at h <;> cases h
  · exact fixed 1 fun _ => id_hasLength.map _
  · exact fixed 1 fun _ => id_hasLength.map _
  · exact fixed 2 fun _ => id_hasLength.bind fun _ => flag_hasLength.map _
  · exact fixed 2 fun _ => id_hasLength.bind fun _ => flag_hasLength.map _
  · exact ⟨_, rfl, Effect.measures_choices⟩
  · exact fixed 1 fun _ => id_hasLength.map _
  · exact fixed 3 fun _ =>
      id_hasLength.bind fun _ => scalar_hasLength.bind fun _ => flag_hasLength.map _
  · exact fixed 1 fun _ => id_hasLength.map _
  · exact fixed 2 fun _ =>
      id_hasLength.bind fun _ => byte_hasLength.bind fun _ => byte_hasLength.bind fun _ =>
      half_hasLength.map _
  · exact fixed 2 fun _ => id_hasLength.bind fun _ => role_hasLength.map _
  · exact fixed 1 fun _ => role_hasLength.map _
  · exact fixed 1 fun _ => role_hasLength.map _
  · exact fixed 1 fun _ => role_hasLength.map _
  · exact fixed 0 fun _ => .pure _
  · exact fixed 0 fun _ => .pure _
  · exact fixed 0 fun _ => .pure _
  · exact fixed 2 fun _ =>
      byte_hasLength.bind fun _ => byte_hasLength.bind fun _ => half_hasLength.bind fun _ =>
      integer_hasLength.map _
  · exact fixed 0 fun _ => .pure _
  · exact fixed 0 fun _ => .pure _
  · exact fixed 10 fun _ =>
      role_hasLength.bind fun _ => vec3_hasLength.bind fun _ => vec3_hasLength.bind fun _ =>
      vec3_hasLength.map _
  · exact fixed 3 fun _ =>
      role_hasLength.bind fun _ => scalar_hasLength.bind fun _ => scalar_hasLength.map _
  · exact fixed 2 fun _ => role_hasLength.bind fun _ => packedColor_hasLength.map _
  · exact fixed 1 fun _ => packedColor_hasLength.map _
  · exact fixed 3 fun _ =>
      id_hasLength.bind fun _ => word_hasLength.bind fun _ => scalar_hasLength.map _
  · exact fixed 1 fun _ => packedColor_hasLength.map _
  · exact fixed 2 fun _ => role_hasLength.bind fun _ => id_hasLength.map _
  · exact fixed 1 fun _ => scalar_hasLength.map _
  · exact fixed 0 fun _ => .pure _
  · exact fixed 1 fun _ => half_hasLength.bind fun _ => half_hasLength.map _
  · exact fixed 1 fun _ => flag_hasLength.map _
  · exact fixed 1 fun _ => word_hasLength.map _
  · exact fixed 0 fun _ => .pure _
  · exact fixed 1 fun _ => scalar_hasLength.map _
  · exact fixed 2 fun _ => packedColor_hasLength.bind fun _ => scalar_hasLength.map _
  · exact fixed 2 fun _ => role_hasLength.bind fun _ => flag_hasLength.map _
  · exact fixed 0 fun _ => .pure _
  · exact fixed 1 fun _ => role_hasLength.map _

/-- The routine table reads each instruction at the size of its extent. -/
theorem routineTable_sized : routineTable.Sized .routine Action.extent? := by
  have hparser (opcode : UInt8) :
      routineTable.parser? opcode = (Action.parser? opcode).map Effect.timed := rfl
  apply OpcodeTable.sized_of_measures
  · intro opcode
    rw [hparser, Option.isSome_map]
    exact Action.isSome_extent? opcode
  · intro opcode parse h
    rw [hparser] at h
    obtain ⟨parse, hparse, rfl⟩ := Option.map_eq_some_iff.mp h
    exact Action.exists_extent hparse

end EffectMachine
