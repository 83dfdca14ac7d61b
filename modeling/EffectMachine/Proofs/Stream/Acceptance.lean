import EffectMachine.Proofs.Stream.Instructions

namespace EffectMachine

open Decoder

/-- Instructions, and the terminator behind them if there is one. -/
structure Section where
  instructions : List Instruction
  close? : Option Instruction

namespace Section

def bytes (s : Section) : List UInt8 :=
  s.instructions.flatMap Instruction.bytes ++ s.close?.elim [] Instruction.bytes

def how (s : Section) : SectionEnd :=
  match s.close? with
  | some _ => .terminated
  | none => .exhausted

def items {α : Type} (table : OpcodeTable α) (format : HeaderFormat) (s : Section) :
    List (Header × α) :=
  s.instructions.filterMap (table.item? format)

/-- The section stands before `rest`. Without a terminator it goes on to the end. -/
structure Opens (extent? : UInt8 → Option Extent) (format : HeaderFormat) (s : Section)
    (bytes rest : List UInt8) : Prop where
  split : bytes = s.bytes ++ rest
  admitted : ∀ i ∈ s.instructions, i.IsAdmitted extent? format
  closed : ∀ i ∈ s.close?, i.IsEnd format
  exhausted : s.close? = none → rest = []

theorem Opens.exhausted_nil {extent? : UInt8 → Option Extent} {format : HeaderFormat}
    {bytes : List UInt8} (h : bytes = []) : Opens extent? format ⟨[], none⟩ bytes [] where
  split := h
  admitted := List.forall_mem_nil _
  closed _ hi := by cases hi
  exhausted _ := rfl

theorem Opens.closed_nil {extent? : UInt8 → Option Extent} {format : HeaderFormat}
    {bytes rest : List UInt8} {i : Instruction} (hi : i.IsEnd format)
    (h : bytes = i.bytes ++ rest) : Opens extent? format ⟨[], some i⟩ bytes rest where
  split := h
  admitted := List.forall_mem_nil _
  closed j hj := by
    cases hj
    exact hi
  exhausted hnone := by cases hnone

/-- A section opens with an instruction that is admitted and a section behind it. -/
theorem Opens.cons {extent? : UInt8 → Option Extent} {format : HeaderFormat} {s : Section}
    {bytes later rest : List UInt8} {i : Instruction} (h : s.Opens extent? format later rest)
    (hi : i.IsAdmitted extent? format) (hbytes : bytes = i.bytes ++ later) :
    Opens extent? format ⟨i :: s.instructions, s.close?⟩ bytes rest where
  split := by
    rw [hbytes, h.split, Section.bytes, Section.bytes, List.flatMap_cons]
    simp only [List.append_assoc]
  admitted := List.forall_mem_cons.mpr ⟨hi, h.admitted⟩
  closed := h.closed
  exhausted := h.exhausted

end Section

def Step.GoesOn {α : Type} : Step α → Prop
  | .stop _ => False
  | .item _ _ => True
  | .skip => True

namespace OpcodeTable

variable {α : Type} {table : OpcodeTable α} {format : HeaderFormat}
  {extent? : UInt8 → Option Extent} {r r' : Reader} {read read' : SectionRead α}

/-- The loop over the instructions of a section, with no bound on its turns. -/
inductive Runs (table : OpcodeTable α) (format : HeaderFormat) : Reader → SectionRead α → Prop where
  | fails {r r' : Reader} {fault : Fault} (h : table.step format r = .error fault r') :
      Runs table format r ⟨[], .error fault, r'⟩
  | stops {r r' : Reader} {how : SectionEnd} (h : table.step format r = .ok (.stop how) r') :
      Runs table format r ⟨[], .ok how, r'⟩
  | reads {r r' : Reader} {header : Header} {content : α} {later : SectionRead α}
      (h : table.step format r = .ok (.item header content) r')
      (hlater : Runs table format r' later) :
      Runs table format r { later with items := (header, content) :: later.items }
  | skips {r r' : Reader} {later : SectionRead α} (h : table.step format r = .ok .skip r')
      (hlater : Runs table format r' later) : Runs table format r later

/-- What a section reads is decided by its bytes. -/
theorem Runs.unique (h : table.Runs format r read) (h' : table.Runs format r read') :
    read = read' := by
  induction h generalizing read' with
  | fails h =>
    cases h' with
    | fails h' => rw [h] at h'; cases h'; rfl
    | stops h' => rw [h] at h'; cases h'
    | reads h' => rw [h] at h'; cases h'
    | skips h' => rw [h] at h'; cases h'
  | stops h =>
    cases h' with
    | fails h' => rw [h] at h'; cases h'
    | stops h' => rw [h] at h'; cases h'; rfl
    | reads h' => rw [h] at h'; cases h'
    | skips h' => rw [h] at h'; cases h'
  | reads h _ ih =>
    cases h' with
    | fails h' => rw [h] at h'; cases h'
    | stops h' => rw [h] at h'; cases h'
    | reads h' hlater' => rw [h] at h'; cases h'; rw [ih hlater']
    | skips h' => rw [h] at h'; cases h'
  | skips h _ ih =>
    cases h' with
    | fails h' => rw [h] at h'; cases h'
    | stops h' => rw [h] at h'; cases h'
    | reads h' => rw [h] at h'; cases h'
    | skips h' hlater' => rw [h] at h'; cases h'; exact ih hlater'

/-- The step of an instruction, and what is read behind it. -/
theorem Runs.step {i : Instruction} {later : SectionRead α}
    (h : table.step format r = .ok (table.stepOf format i) r')
    (hlater : table.Runs format r' later) :
    table.Runs format r
      { later with items := (table.item? format i).toList ++ later.items } := by
  rw [stepOf] at h
  cases hi : table.item? format i with
  | none =>
    rw [hi] at h
    exact .skips h hlater
  | some item =>
    rw [hi] at h
    exact .reads h hlater

/-- A step that goes on has left an instruction behind. -/
theorem rest_of_step {out : Step α} (hs : table.Sized format extent?)
    (h : table.step format r = .ok out r') (hgoes : out.GoesOn) :
    ∃ i : Instruction, i.IsAdmitted extent? format ∧ r.rest = i.bytes ++ r'.rest ∧
      out = table.stepOf format i := by
  obtain hnil | ⟨i, rest, hrest, hend | hi⟩ := step_cases hs h
  · rw [step_exhausted hnil] at h
    cases h
    exact hgoes.elim
  · obtain ⟨log, hstep⟩ := step_end table hend r rest hrest
    rw [hstep] at h
    cases h
    exact hgoes.elim
  · obtain ⟨log, hstep⟩ := step_admitted hs hi r rest hrest
    rw [hstep] at h
    cases h
    exact ⟨i, hi, by rw [r.rest_past_of_append hrest, hrest], rfl⟩

theorem length_rest_lt {out : Step α} (hs : table.Sized format extent?)
    (h : table.step format r = .ok out r') (hgoes : out.GoesOn) :
    r'.rest.length < r.rest.length := by
  obtain ⟨i, _, hrest, _⟩ := rest_of_step hs h hgoes
  rw [hrest, List.length_append, i.length_bytes]
  omega

/-- The bounded loop is the unbounded one as long as the bound exceeds the bytes. -/
theorem runs_readUpTo (hs : table.Sized format extent?) {n : Nat} (h : r.rest.length < n) :
    table.Runs format r (table.readUpTo format n r) := by
  induction n generalizing r with
  | zero => exact absurd h (Nat.not_lt_zero _)
  | succ n ih =>
    rw [readUpTo]
    cases hstep : table.step format r with
    | error fault r' => exact .fails hstep
    | ok out r' =>
      cases out with
      | stop how => exact .stops hstep
      | item header content =>
        have hlt := length_rest_lt hs hstep trivial
        exact .reads hstep (ih (by omega))
      | skip =>
        have hlt := length_rest_lt hs hstep trivial
        exact .skips hstep (ih (by omega))

/-- The bound of a section is never met: the loop ends of itself. -/
theorem runs_readSection (hs : table.Sized format extent?) (r : Reader) :
    table.Runs format r (table.readSection format r) := by
  apply runs_readUpTo hs
  rw [r.remaining_eq]
  exact Nat.lt_succ_self _

theorem decoder_of_runs (hs : table.Sized format extent?) {items : List (Header × α)}
    {how : SectionEnd} (h : table.Runs format r ⟨items, .ok how, r'⟩) :
    table.decoder format r = .ok (items, how) r' := by
  rw [decoder, (runs_readSection hs r).unique h]

theorem runs_of_decoder (hs : table.Sized format extent?) {items : List (Header × α)}
    {how : SectionEnd} (h : table.decoder format r = .ok (items, how) r') :
    table.Runs format r ⟨items, .ok how, r'⟩ := by
  have hruns := runs_readSection hs r
  rw [decoder] at h
  generalize table.readSection format r = read at h hruns
  obtain ⟨items, outcome, last⟩ := read
  cases outcome with
  | error fault => cases h
  | ok how =>
    cases h
    exact hruns

/-- Instructions one after another, then whatever is read behind them. -/
theorem runs_instructions (hs : table.Sized format extent?) {is : List Instruction}
    {rest : List UInt8} (his : ∀ i ∈ is, i.IsAdmitted extent? format)
    (h : r.rest = is.flatMap Instruction.bytes ++ rest) :
    ∃ log, ∀ later, table.Runs format (r.past (is.flatMap Instruction.bytes).length log) later →
      table.Runs format r
        { later with items := is.filterMap (table.item? format) ++ later.items } := by
  induction is generalizing r with
  | nil => exact ⟨r.log, fun later hlater => hlater⟩
  | cons i is ih =>
    rw [List.flatMap_cons, List.append_assoc] at h
    obtain ⟨log, hstep⟩ := step_admitted hs (his i List.mem_cons_self) r _ h
    obtain ⟨log', hruns⟩ :=
      ih (fun j hj => his j (List.mem_cons_of_mem i hj)) (r.rest_past_of_append h log)
    refine ⟨log', fun later hlater => ?_⟩
    rw [List.flatMap_cons, List.length_append, ← r.past_past _ _ log] at hlater
    have hitems : (i :: is).filterMap (table.item? format) =
        (table.item? format i).toList ++ is.filterMap (table.item? format) := by
      rw [List.filterMap_cons]
      cases table.item? format i <;> rfl
    rw [hitems, List.append_assoc]
    exact Runs.step hstep (hruns later hlater)

/-- A section that stands at the head of the stream is read to its end. -/
theorem runs_of_opens (hs : table.Sized format extent?) {s : Section} {rest : List UInt8}
    (h : s.Opens extent? format r.rest rest) :
    ∃ log, table.Runs format r ⟨s.items table format, .ok s.how, r.past s.bytes.length log⟩ := by
  have hsplit := h.split
  rw [Section.bytes, List.append_assoc] at hsplit
  obtain ⟨log, hruns⟩ := runs_instructions hs h.admitted hsplit
  have hbehind := r.rest_past_of_append hsplit log
  cases hclose : s.close? with
  | none =>
    rw [hclose, h.exhausted hclose] at hbehind
    have hlast := hruns _ (.stops (step_exhausted hbehind))
    rw [List.append_nil] at hlast
    refine ⟨log, ?_⟩
    rw [Section.items, Section.how, Section.bytes, hclose, Option.elim, List.append_nil]
    exact hlast
  | some i =>
    rw [hclose] at hbehind
    obtain ⟨log', hend⟩ := step_end table (h.closed i hclose) _ rest hbehind
    have hlast := hruns _ (.stops hend)
    rw [List.append_nil, r.past_past, ← List.length_append] at hlast
    refine ⟨log', ?_⟩
    rw [Section.items, Section.how, Section.bytes, hclose]
    exact hlast

/-- What is read to an end is a section. -/
theorem opens_of_runs (hs : table.Sized format extent?) (h : table.Runs format r read)
    {how : SectionEnd} (hread : read.outcome = .ok how) :
    ∃ (s : Section) (rest : List UInt8), s.Opens extent? format r.rest rest := by
  induction h with
  | fails => cases hread
  | stops h =>
    obtain hnil | ⟨i, rest, hrest, hend | hi⟩ := step_cases hs h
    · exact ⟨⟨[], none⟩, [], .exhausted_nil hnil⟩
    · exact ⟨⟨[], some i⟩, rest, .closed_nil hend hrest⟩
    · obtain ⟨log, hstep⟩ := step_admitted hs hi _ rest hrest
      rw [h, stepOf] at hstep
      split at hstep <;> cases hstep
  | reads h _ ih =>
    obtain ⟨i, hi, hrest, _⟩ := rest_of_step hs h trivial
    obtain ⟨s, rest, hopens⟩ := ih hread
    exact ⟨⟨i :: s.instructions, s.close?⟩, rest, hopens.cons hi hrest⟩
  | skips h _ ih =>
    obtain ⟨i, hi, hrest, _⟩ := rest_of_step hs h trivial
    obtain ⟨s, rest, hopens⟩ := ih hread
    exact ⟨⟨i :: s.instructions, s.close?⟩, rest, hopens.cons hi hrest⟩

/-- A table reads the sections that its extents describe, and nothing else. -/
structure ReadsExactly (table : OpcodeTable α) (format : HeaderFormat)
    (extent? : UInt8 → Option Extent) : Prop where
  /-- The extents are of the opcodes that the table knows. -/
  knows : ∀ opcode, (extent? opcode).isSome = (table.parser? opcode).isSome
  /-- Every instruction of a known opcode has an item. -/
  yields : ∀ i : Instruction, i.IsAdmitted extent? format →
    (table.item? format i).isSome = (extent? (i.header format).opcode).isSome
  /-- The loop ends, with the outcome that the reading of a section has. -/
  ends : ∀ r, table.Runs format r (table.readSection format r)
  accepts : ∀ r, (∃ outcome r', table.decoder format r = .ok outcome r') ↔
    ∃ (s : Section) (rest : List UInt8), s.Opens extent? format r.rest rest
  reads : ∀ r (s : Section) rest, s.Opens extent? format r.rest rest →
    ∃ log, table.decoder format r = .ok (s.items table format, s.how) (r.past s.bytes.length log)
  /-- Nothing depends on the bytes behind a terminator. -/
  forgets : ∀ r items r', table.decoder format r = .ok (items, .terminated) r' →
    ∀ data, data.take r'.pos = r.data.take r'.pos →
      ∃ r'', table.decoder format { r with data } = .ok (items, .terminated) r'' ∧ r''.pos = r'.pos

theorem isSome_item? (hs : table.Sized format extent?) {i : Instruction}
    (hi : i.IsAdmitted extent? format) :
    (table.item? format i).isSome = (extent? (i.header format).opcode).isSome := by
  obtain ⟨he, hunknown⟩ | ⟨e, parse, he, hparse, hmeasures⟩ := hs.cases (i.header format).opcode
  · rw [item?_unknown hunknown, he]
    rfl
  · obtain ⟨content, hcontent⟩ := hmeasures.takes i hi.toIsWhole (hi.fits e he)
    rw [item?_known hparse hcontent, he]
    rfl

theorem decoder_of_opens (hs : table.Sized format extent?) {s : Section} {rest : List UInt8}
    (h : s.Opens extent? format r.rest rest) : ∃ log, table.decoder format r =
      .ok (s.items table format, s.how) (r.past s.bytes.length log) := by
  obtain ⟨log, hruns⟩ := runs_of_opens hs h
  exact ⟨log, decoder_of_runs hs hruns⟩

theorem opens_of_decoder (hs : table.Sized format extent?)
    {outcome : List (Header × α) × SectionEnd}
    (h : table.decoder format r = .ok outcome r') :
    ∃ (s : Section) (rest : List UInt8) (log : Log), s.Opens extent? format r.rest rest ∧
      outcome = (s.items table format, s.how) ∧ r' = r.past s.bytes.length log := by
  obtain ⟨items, how⟩ := outcome
  obtain ⟨s, rest, hopens⟩ := opens_of_runs hs (runs_of_decoder hs h) rfl
  obtain ⟨log, hread⟩ := decoder_of_opens hs hopens
  rw [h] at hread
  cases hread
  exact ⟨s, rest, log, hopens, rfl, rfl⟩

/-- With a terminator a section stands before any bytes. -/
theorem decoder_of_agree (hs : table.Sized format extent?) {items : List (Header × α)}
    (h : table.decoder format r = .ok (items, .terminated) r') {data : List UInt8}
    (hdata : data.take r'.pos = r.data.take r'.pos) :
    ∃ r'', table.decoder format { r with data } = .ok (items, .terminated) r'' ∧
      r''.pos = r'.pos := by
  obtain ⟨s, rest, log, hopens, houtcome, rfl⟩ := opens_of_decoder hs h
  obtain ⟨rfl, hhow⟩ := Prod.mk.inj houtcome
  have hhead : (data.drop r.pos).take s.bytes.length = s.bytes := by
    have hbytes : (r.data.drop r.pos).take s.bytes.length = s.bytes := by
      change r.rest.take _ = _
      rw [hopens.split, List.take_left]
    change data.take (r.pos + s.bytes.length) = r.data.take (r.pos + s.bytes.length) at hdata
    rw [List.take_drop, hdata, ← List.take_drop, hbytes]
  have hagree : s.Opens extent? format (Reader.rest { r with data })
      ((data.drop r.pos).drop s.bytes.length) := by
    refine ⟨?_, hopens.admitted, hopens.closed, fun hnone => ?_⟩
    · have hparts := List.take_append_drop s.bytes.length (data.drop r.pos)
      rw [hhead] at hparts
      exact hparts.symm
    · rw [Section.how, hnone] at hhow
      cases hhow
  obtain ⟨log', hread⟩ := decoder_of_opens hs hagree
  rw [← hhow] at hread
  exact ⟨_, hread, rfl⟩

/-- A table whose parsers keep to their extents reads just the sections that these describe. -/
theorem Sized.readsExactly (hs : table.Sized format extent?) :
    table.ReadsExactly format extent? where
  knows opcode := by
    obtain ⟨he, hparse⟩ | ⟨e, parse, he, hparse, _⟩ := hs.cases opcode
    · rw [he, hparse]
      rfl
    · rw [he, hparse]
      rfl
  yields _ := isSome_item? hs
  ends := runs_readSection hs
  accepts r := by
    constructor
    · rintro ⟨outcome, r', h⟩
      obtain ⟨s, rest, _, hopens, _⟩ := opens_of_decoder hs h
      exact ⟨s, rest, hopens⟩
    · rintro ⟨s, rest, hopens⟩
      obtain ⟨log, hread⟩ := decoder_of_opens hs hopens
      exact ⟨_, _, hread⟩
  reads _ _ _ := decoder_of_opens hs
  forgets _ _ _ h _ := decoder_of_agree hs h

end OpcodeTable
end EffectMachine
