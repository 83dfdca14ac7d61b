import EffectMachine.Proofs.Stream.Headers
import EffectMachine.Proofs.Stream.Lengths
import EffectMachine.Stream.Section

namespace EffectMachine

open Decoder

def Header.ofWord : HeaderFormat → UInt32 → Header
  | .routine, w => ⟨w.toUInt8, (w >>> 8).toUInt8, 0⟩
  | .particle, w => ofPacked w

theorem Header.read_takes (format : HeaderFormat) (w : UInt32) :
    (read format).Takes (Word.bytes w) (ofWord format w) := by
  cases format with
  | routine =>
    obtain ⟨pad, hpad⟩ := half_hasLength.takes [(w >>> 16).toUInt8, (w >>> 24).toUInt8] rfl
    exact (byte_reads _).takes.bind ((byte_reads _).takes.bind (hpad.bind (.pure _)))
  | particle => exact ((word_reads w).map ofPacked).takes

theorem Header.read_hasLength (format : HeaderFormat) : (read format).HasLength 4 := by
  cases format with
  | routine =>
    exact byte_hasLength.bind fun _ => byte_hasLength.bind fun _ => half_hasLength.map _
  | particle => exact word_hasLength.map ofPacked

/-- A header word and the bytes that belong to it. -/
structure Instruction where
  head : UInt32
  body : List UInt8

namespace Instruction

def bytes (i : Instruction) : List UInt8 := Word.bytes i.head ++ i.body

theorem length_bytes (i : Instruction) : i.bytes.length = 4 + i.body.length := by
  rw [bytes, List.length_append]
  rfl

def header (format : HeaderFormat) (i : Instruction) : Header := Header.ofWord format i.head

/-- It closes a section. No terminator is shorter than its header. -/
structure IsEnd (format : HeaderFormat) (i : Instruction) : Prop where
  opcode : (i.header format).opcode = terminator
  length : i.bytes.length = max (i.header format).byteLength 4

/-- It is as long as it says, and closes no section. -/
structure IsWhole (format : HeaderFormat) (i : Instruction) : Prop where
  opcode : (i.header format).opcode ≠ terminator
  length : i.bytes.length = (i.header format).byteLength

theorem IsWhole.size_ne_zero {format : HeaderFormat} {i : Instruction} (h : i.IsWhole format) :
    (i.header format).size ≠ 0 := by
  intro hzero
  have hlength := h.length
  rw [length_bytes, Header.byteLength, hzero, UInt8.toNat_zero] at hlength
  omega

/-- Bytes of a declared length, cut off what is left of a stream. -/
theorem exists_of_length {w : UInt32} {tail : List UInt8} {n : Nat} (hn : 4 ≤ n)
    (h : n ≤ tail.length + 4) :
    ∃ (i : Instruction) (rest : List UInt8), i.head = w ∧ i.bytes.length = n ∧
      Word.bytes w ++ tail = i.bytes ++ rest := by
  refine ⟨⟨w, tail.take (n - 4)⟩, tail.drop (n - 4), rfl, ?_, ?_⟩
  · rw [length_bytes, List.length_take_of_le (by omega)]
    omega
  · rw [bytes, List.append_assoc, List.take_append_drop]

end Instruction

inductive Extent where
  /-- So many words, the header among them. -/
  | words (n : Nat)
  /-- Header, timing and count, then choices. The count is at least what the size has room for. -/
  | choices

def Extent.Admits (format : HeaderFormat) (i : Instruction) : Extent → Prop
  | words n => (i.header format).size.toNat = n
  | choices => 3 ≤ (i.header format).size.toNat ∧
      ∃ timing count args, i.body = Word.bytes timing ++ Word.bytes count ++ args ∧
        (i.header format).size.toNat - 3 ≤ count.toNat

/-- An instruction that a table can read or step over: its opcode is unknown, or it is as long as
its extent says. -/
structure Instruction.IsAdmitted (extent? : UInt8 → Option Extent) (format : HeaderFormat)
    (i : Instruction) : Prop extends i.IsWhole format where
  fits : ∀ e ∈ extent? (i.header format).opcode, e.Admits format i

/-- A parser for instructions of an extent. It comes to the end of those and of no others. -/
structure Extent.Measures {α : Type} (format : HeaderFormat) (e : Extent)
    (parse : Header → Decoder α) : Prop where
  takes : ∀ i : Instruction, i.IsWhole format → e.Admits format i →
    ∃ x, (parse (i.header format)).Takes i.body x
  misses : ∀ i : Instruction, i.IsWhole format → ¬ e.Admits format i → ∀ r rest,
    r.rest = i.body ++ rest → ∀ x r', parse (i.header format) r = .ok x r' →
      r'.pos ≠ r.pos + i.body.length

/-- A parser that takes a fixed number of bytes. -/
theorem Extent.measures_words {α : Type} {format : HeaderFormat} {parse : Header → Decoder α}
    {n : Nat} (h : ∀ header, (parse header).HasLength (4 * n)) :
    (Extent.words (n + 1)).Measures format parse where
  takes i hi hfits := by
    apply (h _).takes
    have hlength := hi.length
    rw [i.length_bytes, Header.byteLength, show (i.header format).size.toNat = n + 1 from hfits]
      at hlength
    omega
  misses i hi hfits r rest hr x r' hx hpos := by
    have hlength := hi.length
    have hsize : (i.header format).size.toNat ≠ n + 1 := hfits
    rw [i.length_bytes, Header.byteLength] at hlength
    obtain ⟨_, log, rfl⟩ := (h _).of_ok hx
    change r.pos + 4 * n = _ at hpos
    omega

namespace OpcodeTable

variable {α : Type} {table : OpcodeTable α} {format : HeaderFormat}
  {extent? : UInt8 → Option Extent} {i : Instruction} {r r' : Reader} {out : Step α}

/-- Every parser of a table reads instructions of the extent of its opcode. -/
def Sized (table : OpcodeTable α) (format : HeaderFormat) (extent? : UInt8 → Option Extent) :
    Prop :=
  ∀ opcode, Option.Rel (fun e parse => e.Measures format parse) (extent? opcode)
    (table.parser? opcode)

/-- What a table makes of an instruction, by its bytes alone. -/
def item? (table : OpcodeTable α) (format : HeaderFormat) (i : Instruction) :
    Option (Header × α) := do
  let parse ← table.parser? (i.header format).opcode
  let content ← ((parse (i.header format)).decode i.body).1.toOption
  return (i.header format, content)

def stepOf (table : OpcodeTable α) (format : HeaderFormat) (i : Instruction) : Step α :=
  match table.item? format i with
  | some (header, content) => .item header content
  | none => .skip

def perform (table : OpcodeTable α) (start : Nat) (header : Header) : Decoder (Step α) := do
  match table.parser? header.opcode with
  | some parse =>
    let content ← parse header
    let actual := (← Decoder.position) - start
    if actual ≠ header.byteLength then
      throw (.sizeMismatch header.opcode start header.byteLength actual)
    (table.remarks header content).forM Decoder.note
    return .item header content
  | none =>
    let args ← Decoder.words (header.size.toNat - 1)
    Decoder.note (.unknownOpcode table.name header.opcode start header.offset args)
    return .skip

def afterHeader (table : OpcodeTable α) (start available : Nat) (header : Header) :
    Decoder (Step α) :=
  if header.opcode = terminator then
    if available < max header.byteLength 4 then
      throw (.truncated header.opcode start (max header.byteLength 4) available)
    else do
      Decoder.seek (start + max header.byteLength 4)
      return .stop .terminated
  else if header.size = 0 then throw (.zeroSize header.opcode start)
  else if available < header.byteLength then
    throw (.truncated header.opcode start header.byteLength available)
  else table.perform start header

/-- The first four bytes are read as a header, whatever they are. -/
theorem step_header (table : OpcodeTable α) (format : HeaderFormat) {w : UInt32}
    {tail : List UInt8} (h : r.rest = Word.bytes w ++ tail) :
    ∃ log, table.step format r =
      table.afterHeader r.pos (tail.length + 4) (Header.ofWord format w) (r.past 4 log) := by
  obtain ⟨log, hread⟩ := Header.read_takes format w r tail h
  have hremaining : remaining (r.past 4 log) = .ok tail.length (r.past 4 log) := by
    have hrest : (r.past 4 log).rest = tail := r.rest_past_of_append h log
    rw [remaining, Reader.remaining_eq, hrest]
  refine ⟨log, ?_⟩
  rw [step, run_bind (atEnd_of_rest (List.cons_ne_nil _ _) h), if_neg Bool.false_ne_true,
    run_bind (position_eq r), run_bind hread]
  exact run_bind hremaining

theorem step_exhausted (h : r.rest = []) : table.step format r = .ok (.stop .exhausted) r := by
  have hend : atEnd r = .ok true r := by
    rw [atEnd, r.atEnd_eq, h]
    rfl
  rw [step, run_bind hend, if_pos rfl]
  rfl

/-- A terminator stops the section, and is read with all its bytes. -/
theorem step_end (table : OpcodeTable α) (hi : i.IsEnd format) :
    (table.step format).Takes i.bytes (.stop .terminated) := by
  intro r rest h
  have hlong : r.rest.length = i.bytes.length + rest.length := by rw [h, List.length_append]
  rw [Instruction.bytes, List.append_assoc] at h
  obtain ⟨log, hstep⟩ := step_header table format h
  have hopcode : (Header.ofWord format i.head).opcode = terminator := hi.opcode
  have hlength : max (Header.ofWord format i.head).byteLength 4 = i.bytes.length := hi.length.symm
  have hseek : seek (r.pos + i.bytes.length) (r.past 4 log) =
      .ok () (r.past i.bytes.length log) := by
    rw [Reader.rest, List.length_drop, i.length_bytes] at hlong
    rw [seek, Reader.seek, Reader.past, Reader.past, i.length_bytes,
      Nat.min_eq_left (by dsimp only; omega)]
  have hfits : ¬ (i.body ++ rest).length + 4 < i.bytes.length := by
    rw [i.length_bytes, List.length_append]
    omega
  refine ⟨log, ?_⟩
  rw [hstep, afterHeader, if_pos hopcode, hlength, if_neg hfits]
  exact run_bind hseek

/-- Notes take no bytes. -/
theorem forM_note_takes (notices : List Notice) : (notices.forM Decoder.note).Takes [] () := by
  induction notices with
  | nil => exact .pure ()
  | cons n notices ih => exact (Takes.note n).bind ih

variable {start : Nat} {rest : List UInt8}

/-- What is said about the size of an instruction whose arguments are performed. -/
theorem step_whole (table : OpcodeTable α) (hi : i.IsWhole format)
    (h : r.rest = i.bytes ++ rest) :
    ∃ log, table.step format r = table.perform r.pos (i.header format) (r.past 4 log) := by
  rw [Instruction.bytes, List.append_assoc] at h
  obtain ⟨log, hstep⟩ := step_header table format h
  have hlength : i.bytes.length = (Header.ofWord format i.head).byteLength := hi.length
  have hsize : (Header.ofWord format i.head).size ≠ 0 := hi.size_ne_zero
  have hopcode : (Header.ofWord format i.head).opcode ≠ terminator := hi.opcode
  have hfits : ¬ (i.body ++ rest).length + 4 < i.bytes.length := by
    rw [i.length_bytes, List.length_append]
    omega
  refine ⟨log, ?_⟩
  rw [hstep, afterHeader, if_neg hopcode, if_neg hsize, ← hlength, if_neg hfits]
  rfl

/-- An opcode that the table does not know: all its words are stepped over. -/
theorem step_unknown (hi : i.IsWhole format)
    (hunknown : table.parser? (i.header format).opcode = none) :
    (table.step format).Takes i.bytes .skip := by
  intro r rest h
  obtain ⟨log, hstep⟩ := step_whole table hi h
  rw [Instruction.bytes, List.append_assoc] at h
  have hlength : i.body.length = ((i.header format).size.toNat - 1) * 4 := by
    have hlength := hi.length
    rw [i.length_bytes, Header.byteLength] at hlength
    omega
  obtain ⟨args, hargs⟩ := (repeated_hasLength word_hasLength _).takes i.body hlength
  have hskip : (table.perform r.pos (i.header format)).Takes (i.body ++ ([] ++ [])) .skip := by
    rw [perform, hunknown]
    exact hargs.bind ((Takes.note _).bind (.pure _))
  rw [List.append_nil, List.append_nil] at hskip
  obtain ⟨log', hskip⟩ := hskip _ rest (r.rest_past_of_append h log)
  refine ⟨log', ?_⟩
  rw [hstep, i.length_bytes]
  exact hskip.trans (congrArg _ (r.past_past ..))

/-- A parser that comes to the end of the instruction. -/
theorem step_known {parse : Header → Decoder α} {content : α} (hi : i.IsWhole format)
    (hparse : table.parser? (i.header format).opcode = some parse)
    (hcontent : (parse (i.header format)).Takes i.body content) :
    (table.step format).Takes i.bytes (.item (i.header format) content) := by
  intro r rest h
  obtain ⟨log, hstep⟩ := step_whole table hi h
  have hafter := r.rest_past_of_append h
  rw [Instruction.bytes, List.append_assoc] at h
  have hbody : (r.past 4 log).rest = i.body ++ rest := r.rest_past_of_append h log
  obtain ⟨log', hcontent⟩ := hcontent _ _ hbody
  have hend : (r.past 4 log).past i.body.length log' = r.past i.bytes.length log' := by
    rw [r.past_past, i.length_bytes]
  have hactual : (r.past i.bytes.length log').pos - r.pos = (i.header format).byteLength := by
    rw [← hi.length]
    exact Nat.add_sub_cancel_left ..
  obtain ⟨log'', hnotes⟩ :=
    forM_note_takes (table.remarks (i.header format) content) _ rest (hafter log')
  refine ⟨log'', ?_⟩
  rw [hstep, perform, hparse]
  dsimp only
  rw [run_bind (hcontent.trans (congrArg _ hend)), run_bind (position_eq _), hactual,
    if_neg (by simp), run_bind hnotes]
  exact congrArg (EStateM.Result.ok _) (r.past_past ..)

/-- A parser that fails, or comes to another place than the end of the instruction. -/
theorem step_misfit {parse : Header → Decoder α} (hi : i.IsWhole format)
    (hparse : table.parser? (i.header format).opcode = some parse)
    (hmiss : ∀ r, r.rest = i.body ++ rest → ∀ x r', parse (i.header format) r = .ok x r' →
      r'.pos ≠ r.pos + i.body.length)
    (h : r.rest = i.bytes ++ rest) : (table.step format).Fails r := by
  obtain ⟨log, hstep⟩ := step_whole table hi h
  rw [Instruction.bytes, List.append_assoc] at h
  have hbody : (r.past 4 log).rest = i.body ++ rest := r.rest_past_of_append h log
  rw [Fails, hstep, perform, hparse]
  cases hrun : parse (i.header format) (r.past 4 log) with
  | error fault r' => exact ⟨fault, r', run_bind_error hrun⟩
  | ok x r' =>
    have hpos := hmiss _ hbody x r' hrun
    have hactual : r'.pos - r.pos ≠ (i.header format).byteLength := by
      rw [← hi.length, i.length_bytes]
      change r'.pos ≠ r.pos + 4 + i.body.length at hpos
      omega
    dsimp only
    rw [run_bind hrun, run_bind (position_eq _), if_pos hactual]
    exact ⟨_, _, rfl⟩

theorem item?_unknown (hunknown : table.parser? (i.header format).opcode = none) :
    table.item? format i = none := by
  rw [item?, hunknown]
  rfl

theorem item?_known {parse : Header → Decoder α} {content : α}
    (hparse : table.parser? (i.header format).opcode = some parse)
    (hcontent : (parse (i.header format)).Takes i.body content) :
    table.item? format i = some (i.header format, content) := by
  rw [item?, hparse]
  change (do let x ← ((parse (i.header format)).decode i.body).1.toOption; _) = _
  rw [hcontent.decode]
  rfl

/-- The extents are of just the opcodes that the table knows, and of the right size. -/
theorem sized_of_measures
    (hknown : ∀ opcode, (extent? opcode).isSome = (table.parser? opcode).isSome)
    (hmeasures : ∀ opcode parse, table.parser? opcode = some parse →
      ∃ e, extent? opcode = some e ∧ e.Measures format parse) : table.Sized format extent? := by
  intro opcode
  have hsome := hknown opcode
  cases hparse : table.parser? opcode with
  | none =>
    rw [hparse] at hsome
    rw [Option.not_isSome_iff_eq_none.mp (ne_true_of_eq_false hsome)]
    exact .none
  | some parse =>
    obtain ⟨e, he, hmeasures⟩ := hmeasures opcode parse hparse
    rw [he]
    exact .some hmeasures

/-- An opcode has an extent and a parser that keeps to it, or neither. -/
theorem Sized.cases (hs : table.Sized format extent?) (opcode : UInt8) :
    (extent? opcode = none ∧ table.parser? opcode = none) ∨
    ∃ e parse, extent? opcode = some e ∧ table.parser? opcode = some parse ∧
      e.Measures format parse := by
  have h := hs opcode
  generalize extent? opcode = known at h
  generalize table.parser? opcode = parse? at h
  cases h with
  | none => exact .inl ⟨rfl, rfl⟩
  | some hmeasures => exact .inr ⟨_, _, rfl, rfl, hmeasures⟩

/-- The step of an admitted instruction is the one that its own bytes say. -/
theorem step_admitted (hs : table.Sized format extent?) (hi : i.IsAdmitted extent? format) :
    (table.step format).Takes i.bytes (table.stepOf format i) := by
  obtain ⟨_, hunknown⟩ | ⟨e, parse, he, hparse, hmeasures⟩ := hs.cases (i.header format).opcode
  · rw [stepOf, item?_unknown hunknown]
    exact step_unknown hi.toIsWhole hunknown
  · obtain ⟨content, hcontent⟩ := hmeasures.takes i hi.toIsWhole (hi.fits e he)
    rw [stepOf, item?_known hparse hcontent]
    exact step_known hi.toIsWhole hparse hcontent

/-- A whole instruction that is not admitted cannot be read, whatever follows it. -/
theorem step_not_admitted (hs : table.Sized format extent?) (hi : i.IsWhole format)
    (hnot : ¬ i.IsAdmitted extent? format) (h : r.rest = i.bytes ++ rest) :
    (table.step format).Fails r := by
  obtain ⟨hunknown, _⟩ | ⟨e, parse, he, hparse, hmeasures⟩ := hs.cases (i.header format).opcode
  · refine absurd ⟨hi, fun e he => ?_⟩ hnot
    rw [hunknown] at he
    cases he
  · have hfits : ¬ e.Admits format i := by
      intro hfits
      refine hnot ⟨hi, fun e' he' => ?_⟩
      rw [he] at he'
      cases he'
      exact hfits
    exact step_misfit hi hparse (fun r hr => hmeasures.misses i hi hfits r rest hr) h

theorem step_no_header (hne : r.rest ≠ []) (hshort : r.rest.length < 4) :
    (table.step format).Fails r := by
  have hend : atEnd r = .ok false r := by
    rw [atEnd, r.atEnd_eq, List.isEmpty_eq_false_iff.mpr hne]
  rw [Fails, step, run_bind hend, if_neg Bool.false_ne_true, run_bind (position_eq r)]
  exact ((Header.read_hasLength format).short r hshort).bind

/-- A step that succeeds is at the end of the stream, at the end of a section, or at an instruction
that is admitted. -/
theorem step_cases (hs : table.Sized format extent?) (h : table.step format r = .ok out r') :
    r.rest = [] ∨ ∃ (i : Instruction) (rest : List UInt8), r.rest = i.bytes ++ rest ∧
      (i.IsEnd format ∨ i.IsAdmitted extent? format) := by
  by_cases hnil : r.rest = []
  · exact .inl hnil
  right
  have hlong : 4 ≤ r.rest.length := by
    apply Nat.le_of_not_lt
    intro hshort
    exact (step_no_header hnil hshort).not_ok h
  obtain ⟨w, tail, hrest⟩ := Word.exists_bytes hlong
  obtain ⟨log, hstep⟩ := step_header table format hrest
  rw [hstep, afterHeader] at h
  split at h
  next hopcode =>
    split at h
    next => cases h
    next hfits =>
      obtain ⟨i, rest, rfl, hlength, hi⟩ :=
        Instruction.exists_of_length (w := w) (Nat.le_max_right _ 4) (Nat.le_of_not_lt hfits)
      exact ⟨i, rest, hrest.trans hi, .inl ⟨hopcode, hlength⟩⟩
  next hopcode =>
    split at h
    next => cases h
    next hsize =>
      split at h
      next => cases h
      next hfits =>
        have hword : 4 ≤ (Header.ofWord format w).byteLength := by
          have hpos : (Header.ofWord format w).size.toNat ≠ 0 :=
            fun hzero => hsize (UInt8.toNat_inj.mp hzero)
          rw [Header.byteLength]
          omega
        obtain ⟨i, rest, rfl, hlength, hi⟩ :=
          Instruction.exists_of_length (w := w) hword (Nat.le_of_not_lt hfits)
        refine ⟨i, rest, hrest.trans hi, .inr ?_⟩
        apply Classical.byContradiction
        intro hnot
        have hfails := step_not_admitted hs ⟨hopcode, hlength⟩ hnot (hrest.trans hi)
        rw [Fails, hstep, afterHeader, if_neg hopcode, if_neg hsize, if_neg hfits] at hfails
        exact Fails.not_ok hfails h

end OpcodeTable
end EffectMachine
