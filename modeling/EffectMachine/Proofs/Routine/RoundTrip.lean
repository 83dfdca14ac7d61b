import EffectMachine.Proofs.Routine.Actions
import EffectMachine.Proofs.Stream.Sections
import EffectMachine.Routine.Definition

namespace EffectMachine

open Decoder OpcodeTable

/-- The header and the timing take two of the words that a size can count. -/
theorem Action.length_args_le {a : Action} (h : a.IsCanonical) : a.args.length ≤ 253 := by
  cases a with
  | randomRoutine choices =>
    rw [args, List.length_cons, List.length_map]
    exact Nat.succ_le_succ h
  | _ => exact of_decide_eq_true rfl

namespace Effect

variable {e : Effect}

def header (e : Effect) : Header := ⟨e.action.opcode, UInt8.ofNat (e.action.args.length + 2), 0⟩

theorem toNat_size (h : e.action.IsCanonical) :
    e.header.size.toNat = e.action.args.length + 2 :=
  UInt8.toNat_ofNat_of_lt'
    (Nat.lt_of_le_of_lt (Nat.add_le_add_right (Action.length_args_le h) 2) (by decide))

/-- The instruction of an effect is read as the effect, whatever follows it. -/
theorem step_reads (h : e.action.IsCanonical) :
    (routineTable.step .routine).Reads e.write (.item e.header e) := by
  obtain ⟨parse, hparse, hreads⟩ := e.action.parser_reads h (toNat_size h)
  have hopcode : e.action.opcode ≠ terminator := by
    intro hzero
    rw [hzero] at hparse
    cases hparse
  have hsize : e.header.byteLength =
      4 + (Word.allBytes (Word.ofHalves e.delay e.duration :: e.action.args)).length := by
    rw [Header.byteLength, toNat_size h, Word.length_allBytes, List.length_cons]
    omega
  have htable : routineTable.parser? e.action.opcode =
      some fun header => do return ⟨← half, ← half, ← parse header⟩ := by
    change Option.map _ (Action.parser? e.action.opcode) = _
    rw [hparse]
    rfl
  have htiming : Word.halfBytes e.delay ++ (Word.halfBytes e.duration ++
      Word.allBytes e.action.args) =
        Word.allBytes (Word.ofHalves e.delay e.duration :: e.action.args) := by
    rw [← List.append_assoc, ← Word.bytes_ofHalves]
    rfl
  exact step_item (Header.routine_reads _ _) rfl hopcode hsize htable
    (.of_eq (.bind (half_reads _) (.bind (half_reads _) (hreads.map _))) htiming) rfl

/-- Header, timing, name, and the word that holds who, how often and how smoothly. -/
example : Effect.write ⟨7, 8, .playAnimation ⟨1, 2, 3, 4⟩ .target 5 6⟩ =
    [0x09, 4, 0, 0, 7, 0, 8, 0, 1, 2, 3, 4, 1, 5, 6, 0] := by decide

end Effect

namespace Routine

/-- A list of effects up to its end. -/
theorem section_reads {effects : List Effect} (h : ∀ e ∈ effects, e.action.IsCanonical) :
    (routineTable.decoder .routine).Reads
      (effects.flatMap Effect.write ++ Writer.sectionEnd .routine)
      (effects.map fun e => (e.header, e), .terminated) := by
  have hend : (routineTable.step .routine).Reads (Writer.sectionEnd .routine) (.stop .terminated) :=
    step_terminated (Header.routine_reads terminator 1) rfl rfl rfl
  have hitems : ∀ i ∈ effects.map fun e => (e.header, e),
      (routineTable.step .routine).Reads i.2.write (.item i.1 i.2) := by
    intro i hi
    obtain ⟨e, he, rfl⟩ := List.mem_map.mp hi
    exact Effect.step_reads (h e he)
  have hreads := decoder_reads hitems (fun _ _ => List.cons_ne_nil _ _) hend
  rwa [List.flatMap_map] at hreads

/-- The three lists are read back, each up to its terminator. -/
theorem sections_reads (r : Routine) (heffects : ∀ e ∈ r.effects, e.action.IsCanonical)
    (hcomplete : ∀ e ∈ r.onComplete, e.action.IsCanonical)
    (hstop : ∀ e ∈ r.onStop, e.action.IsCanonical) :
    sections.Reads r.write (r.effects, r.onComplete, r.onStop) := by
  have hlater : SectionEnd.terminated ≠ .exhausted := by decide
  have hcontents (effects : List Effect) :
      (effects.map fun e => (e.header, e)).map Prod.snd = effects := by
    rw [List.map_map]
    exact List.map_id effects
  refine .bind (section_reads heffects) ?_
  dsimp only
  rw [if_neg hlater]
  refine .bind (section_reads hcomplete) ?_
  dsimp only
  rw [if_neg hlater]
  refine .bind (section_reads hstop) ?_
  dsimp only
  rw [hcontents, hcontents, hcontents]
  exact .pure _

/-- Under any name and origin, the three lists come out as they went in, with nothing to note. -/
theorem decode_write (r : Routine) (id : ResourceId) (origin : ResourcePath) (config : Config)
    (heffects : ∀ e ∈ r.effects, e.action.IsCanonical)
    (hcomplete : ∀ e ∈ r.onComplete, e.action.IsCanonical)
    (hstop : ∀ e ∈ r.onStop, e.action.IsCanonical) :
    ∃ autoRun, decode id origin config r.write =
      (.ok ⟨id, origin, r.effects, r.onComplete, r.onStop, autoRun⟩, []) :=
  ⟨_, ((r.sections_reads heffects hcomplete hstop).map _).decode⟩

/-- A choice, a colour, a tag without a meaning and a list that is empty. -/
def flare : Routine where
  id := ⟨1, 0, 0, 0⟩
  origin := ResourcePath.root
  effects :=
    [⟨2, 0, .randomRoutine [⟨2, 0, 0, 0⟩, ⟨3, 0, 0, 0⟩]⟩,
     ⟨0, 30, .screenFlash (Color.ofPacked 0x80ff0000)⟩]
  onComplete := [⟨0, 0, .condition 3 (.unknown 9 5)⟩, ⟨0, 0, .branch true⟩, ⟨5, 0, .loopRoutine⟩]
  onStop := []
  autoRun := true

theorem flare_reread : ∃ autoRun, decode flare.id flare.origin {} flare.write =
    (.ok ⟨flare.id, flare.origin, flare.effects, flare.onComplete, flare.onStop, autoRun⟩, []) := by
  have hchoices : (Action.randomRoutine [⟨2, 0, 0, 0⟩, ⟨3, 0, 0, 0⟩]).IsCanonical :=
    show 2 ≤ 252 by decide
  have hflash : (Action.screenFlash (Color.ofPacked 0x80ff0000)).IsCanonical := ⟨_, rfl⟩
  have htag : (Action.condition 3 (.unknown 9 5)).IsCanonical :=
    show (2 : UInt8) < 9 by decide
  refine decode_write flare flare.id flare.origin {} ?_ ?_ nofun
  · exact List.forall_mem_cons.mpr ⟨hchoices, List.forall_mem_cons.mpr ⟨hflash, nofun⟩⟩
  · exact List.forall_mem_cons.mpr ⟨htag,
      List.forall_mem_cons.mpr ⟨trivial, List.forall_mem_cons.mpr ⟨trivial, nofun⟩⟩⟩

end Routine
end EffectMachine
