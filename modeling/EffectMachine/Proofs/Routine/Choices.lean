import EffectMachine.Proofs.Routine.Extents
import EffectMachine.Routine.Definition

namespace EffectMachine

open Decoder

namespace OpcodeTable

variable {α : Type} {table : OpcodeTable α} {format : HeaderFormat}

/-- The loop over a section comes from one place to another, with these items on the way. -/
inductive Passes (table : OpcodeTable α) (format : HeaderFormat) :
    Reader → List (Header × α) → Reader → Prop where
  | here (r : Reader) : Passes table format r [] r
  | reads {r s t : Reader} {header : Header} {content : α} {items : List (Header × α)}
      (h : table.step format r = .ok (.item header content) s)
      (later : Passes table format s items t) :
      Passes table format r ((header, content) :: items) t
  | skips {r s t : Reader} {items : List (Header × α)} (h : table.step format r = .ok .skip s)
      (later : Passes table format s items t) : Passes table format r items t

variable {r s t : Reader} {items : List (Header × α)} {read : SectionRead α}

/-- A loop goes on from where a part of it has come to. -/
theorem Passes.runs (h : table.Passes format r items s) (hread : table.Runs format s read) :
    table.Runs format r { read with items := items ++ read.items } := by
  induction h with
  | here => exact hread
  | reads h _ ih => exact .reads h (ih hread)
  | skips h _ ih => exact .skips h (ih hread)

theorem Passes.snoc {header : Header} {content : α} (h : table.Passes format r items s)
    (hstep : table.step format s = .ok (.item header content) t) :
    table.Passes format r (items ++ [(header, content)]) t := by
  induction h with
  | here => exact .reads hstep (.here t)
  | reads h _ ih => exact .reads h (ih hstep)
  | skips h _ ih => exact .skips h (ih hstep)

end OpcodeTable

namespace Effect

variable {parse : Header → Decoder Action} {header : Header} {r : Reader}

theorem timed_reads {a : Action} {args : List UInt8} (timing : UInt32)
    (h : (parse header).Reads args a) :
    (timed parse header).Reads (Word.bytes timing ++ args)
      ⟨timing.toUInt16, (timing >>> 16).toUInt16, a⟩ := by
  have hhalves : Word.halfBytes timing.toUInt16 ++
      (Word.halfBytes (timing >>> 16).toUInt16 ++ args) = Word.bytes timing ++ args := by
    rw [← List.append_assoc, ← Word.bytes_ofHalves, Word.ofHalves_halves]
  exact .of_eq (.bind (half_reads _) (.bind (half_reads _) (h.map _))) hhalves

def namesBytes (ids : List ResourceId) : List UInt8 :=
  ids.flatMap fun id => Word.bytes id.toWord

@[simp] theorem length_namesBytes (ids : List ResourceId) :
    (namesBytes ids).length = ids.length * 4 := by
  induction ids with
  | nil => rfl
  | cons id ids ih =>
    rw [namesBytes, List.flatMap_cons, List.length_append, ← namesBytes, ih, List.length_cons]
    exact (Nat.add_comm _ _).trans (Nat.succ_mul _ 4).symm

/-- Bytes enough for some names are those of names. -/
theorem exists_names {n : Nat} {bs : List UInt8} (h : n * 4 ≤ bs.length) :
    ∃ ids rest, ids.length = n ∧ bs = namesBytes ids ++ rest := by
  obtain ⟨ws, hn, hws⟩ :=
    Word.exists_allBytes (show (bs.take (n * 4)).length = 4 * n by rw [List.length_take]; omega)
  refine ⟨ws.map ResourceId.ofWord, bs.drop (n * 4), by rw [List.length_map, hn], ?_⟩
  rw [namesBytes, List.flatMap_map]
  simp only [Word.toWord_ofWord]
  change bs = Word.allBytes ws ++ _
  rw [hws, List.take_append_drop]

theorem readChoices_reads {count : UInt32} {ids : List ResourceId}
    (h : ids.length = min count.toNat (header.size.toNat - 3)) :
    (readChoices header).Reads (Word.bytes count ++ namesBytes ids) (.randomRoutine ids) := by
  have hids := repeated_reads ids id_reads
  rw [h] at hids
  exact (word_reads count).bind (hids.map _)

end Effect

namespace Routine

def lists (r : Routine) : List (List Effect) := [r.effects, r.onComplete, r.onStop]

/-- A list starts at this place of a stream, behind others that their terminators close. -/
inductive Starts (data : List UInt8) : List (List Effect) → Reader → Prop where
  | first : Starts data [] (Reader.of data)
  | next {closed : List (List Effect)} {r r' : Reader} {items : List (Header × Effect)}
      (h : Starts data closed r)
      (hread : routineTable.decoder .routine r = .ok (items, .terminated) r') :
      Starts data (closed ++ [items.map Prod.snd]) r'

/-- The decoding of a stream comes to a place, behind some lists and these effects of its own. -/
inductive ComesTo (data : List UInt8) (closed : List (List Effect)) (before : List Effect)
    (r : Reader) : Prop where
  | intro {start : Reader} {items : List (Header × Effect)} (starts : Starts data closed start)
      (three : closed.length < 3) (passes : routineTable.Passes .routine start items r)
      (effects : items.map Prod.snd = before)

variable {data : List UInt8} {closed : List (List Effect)} {before : List Effect}
  {start r r' : Reader} {id : ResourceId} {origin : ResourcePath} {config : Config}

/-- The first, second or third section. -/
theorem Starts.cases (h : Starts data closed start) (hthree : closed.length < 3) :
    (closed = [] ∧ start = Reader.of data) ∨
    (∃ items, closed = [items.map Prod.snd] ∧
      routineTable.decoder .routine (Reader.of data) = .ok (items, .terminated) start) ∨
    ∃ items items' r, closed = [items.map Prod.snd, items'.map Prod.snd] ∧
      routineTable.decoder .routine (Reader.of data) = .ok (items, .terminated) r ∧
      routineTable.decoder .routine r = .ok (items', .terminated) start := by
  cases h with
  | first => exact .inl ⟨rfl, rfl⟩
  | next h hread =>
    cases h with
    | first => exact .inr (.inl ⟨_, rfl, hread⟩)
    | next h hread' =>
      cases h with
      | first => exact .inr (.inr ⟨_, _, _, rfl, hread', hread⟩)
      | next =>
        simp only [List.length_append, List.length_singleton] at hthree
        omega

/-- What cannot be read in one list makes the whole routine fail. -/
theorem Starts.sections_fault (h : Starts data closed start) (hthree : closed.length < 3)
    {fault : Fault} (hread : routineTable.decoder .routine start = .error fault r') :
    sections (Reader.of data) = .error fault r' := by
  have hlater : SectionEnd.terminated ≠ .exhausted := by decide
  obtain ⟨-, rfl⟩ | ⟨items, -, hfirst⟩ | ⟨items, items', r, -, hfirst, hsecond⟩ := h.cases hthree
  · exact run_bind_error hread
  · rw [sections, run_bind hfirst]
    dsimp only
    rw [if_neg hlater]
    exact run_bind_error hread
  · rw [sections, run_bind hfirst]
    dsimp only
    rw [if_neg hlater, run_bind hsecond]
    dsimp only
    rw [if_neg hlater]
    exact run_bind_error hread

/-- The lists of a stream are read one after another, as long as the stream does not run out. -/
theorem exists_of_sections {out : List Effect × List Effect × List Effect} {last : Reader}
    (hout : sections r = .ok out last) :
    ∃ first how s, routineTable.decoder .routine r = .ok (first, how) s ∧
      out.1 = first.map Prod.snd ∧ (how ≠ .exhausted →
        ∃ second how t, routineTable.decoder .routine s = .ok (second, how) t ∧
          out.2.1 = second.map Prod.snd ∧ (how ≠ .exhausted →
            ∃ third how, routineTable.decoder .routine t = .ok (third, how) last ∧
              out.2.2 = third.map Prod.snd)) := by
  obtain ⟨⟨first, how⟩, s, hfirst, hout⟩ := exists_of_bind hout
  refine ⟨first, how, s, hfirst, ?_⟩
  dsimp only at hout
  split at hout
  next hend =>
    cases hout
    exact ⟨rfl, fun hne => (hne hend).elim⟩
  obtain ⟨⟨second, how⟩, t, hsecond, hout⟩ := exists_of_bind hout
  dsimp only at hout
  split at hout
  next hend =>
    cases hout
    exact ⟨rfl, fun _ => ⟨second, how, last, hsecond, rfl, fun hne => (hne hend).elim⟩⟩
  obtain ⟨⟨third, how⟩, u, hthird, hout⟩ := exists_of_bind hout
  cases hout
  exact ⟨rfl, fun _ => ⟨second, _, t, hsecond, rfl, fun _ => ⟨third, how, hthird, rfl⟩⟩⟩

/-- What is read from a place on is the list that stands there. -/
theorem Starts.sections_list (h : Starts data closed start) (hthree : closed.length < 3)
    {items : List (Header × Effect)} {how : SectionEnd}
    (hread : routineTable.decoder .routine start = .ok (items, how) r')
    {out : List Effect × List Effect × List Effect} {last : Reader}
    (hout : sections (Reader.of data) = .ok out last) :
    [out.1, out.2.1, out.2.2][closed.length]? = some (items.map Prod.snd) := by
  have hlater : SectionEnd.terminated ≠ .exhausted := by decide
  obtain ⟨first, _, _, hfirst, hone, more⟩ := exists_of_sections hout
  obtain ⟨rfl, rfl⟩ | ⟨_, rfl, hbefore⟩ | ⟨_, _, _, rfl, hbefore, hbefore'⟩ := h.cases hthree
  · cases hread.symm.trans hfirst
    exact congrArg some hone
  · cases hbefore.symm.trans hfirst
    obtain ⟨second, _, _, hsecond, htwo, -⟩ := more hlater
    cases hread.symm.trans hsecond
    exact congrArg some htwo
  · cases hbefore.symm.trans hfirst
    obtain ⟨second, _, _, hsecond, -, more⟩ := more hlater
    cases hbefore'.symm.trans hsecond
    obtain ⟨third, _, hthird, hlast⟩ := more hlater
    cases hread.symm.trans hthird
    exact congrArg some hlast

theorem ComesTo.decode_fault (h : ComesTo data closed before r) {fault : Fault}
    (hstep : routineTable.step .routine r = .error fault r') :
    (decode id origin config data).1 = .error fault := by
  obtain ⟨starts, three, passes, -⟩ := h
  rename_i start items
  have hread := (OpcodeTable.runs_readSection routineTable_sized start).unique
    (passes.runs (.fails hstep))
  have hsection : routineTable.decoder .routine start = .error fault r' := by
    rw [OpcodeTable.decoder, hread]
  rw [decode, Decoder.decode, run_bind_error (starts.sections_fault three hsection)]

/-- An effect that is read stands behind those before it, in the list that is then open. -/
theorem ComesTo.decode_item (h : ComesTo data closed before r) {header : Header} {e : Effect}
    (hstep : routineTable.step .routine r = .ok (.item header e) r') {routine : Routine}
    (hroutine : (decode id origin config data).1 = .ok routine) :
    ∃ later, routine.lists[closed.length]? = some (before ++ e :: later) := by
  obtain ⟨starts, three, passes, rfl⟩ := h
  rename_i start items
  have hread := (OpcodeTable.runs_readSection routineTable_sized start).unique
    (passes.runs (.reads hstep (OpcodeTable.runs_readSection routineTable_sized r')))
  obtain ⟨last, hlast⟩ := exists_of_decode (Prod.ext hroutine rfl)
  obtain ⟨out, last', hout, hlast⟩ := exists_of_bind hlast
  cases hlast
  cases houtcome : (routineTable.readSection .routine r').outcome with
  | error fault =>
    have hsection : routineTable.decoder .routine start =
        .error fault (routineTable.readSection .routine r').reader := by
      rw [OpcodeTable.decoder, hread]
      dsimp only
      rw [houtcome]
    rw [starts.sections_fault three hsection] at hout
    cases hout
  | ok how =>
    have hsection : routineTable.decoder .routine start =
        .ok (items ++ (header, e) :: (routineTable.readSection .routine r').items, how)
          (routineTable.readSection .routine r').reader := by
      rw [OpcodeTable.decoder, hread]
      dsimp only
      rw [houtcome]
    refine ⟨(routineTable.readSection .routine r').items.map Prod.snd, ?_⟩
    have hlist := starts.sections_list three hsection hout
    rw [List.map_append, List.map_cons] at hlist
    exact hlist

theorem ComesTo.snoc (h : ComesTo data closed before r) {header : Header} {e : Effect}
    (hstep : routineTable.step .routine r = .ok (.item header e) r') :
    ComesTo data closed (before ++ [e]) r' := by
  obtain ⟨starts, three, passes, rfl⟩ := h
  exact ⟨starts, three, passes.snoc hstep, by simp⟩

/-- The head of a choice that the stream has room for, and the words that its parser reads first.
A size below three words has these beyond its own end. -/
structure ChoiceAt (r : Reader) (header : Header) (count : UInt32) (tail : List UInt8) : Prop where
  opcode : header.opcode = 0x05
  inside : header.byteLength ≤ r.rest.length
  words : ∃ head timing, header = Header.ofWord .routine head ∧
    r.rest = Word.bytes head ++ (Word.bytes timing ++ (Word.bytes count ++ tail))

variable {header : Header} {count : UInt32} {tail : List UInt8}

/-- A choice holds no more names than its size has room for. -/
theorem ChoiceAt.room (h : ChoiceAt r header count tail) :
    (header.size.toNat - 3) * 4 ≤ tail.length := by
  obtain ⟨-, hin, head, timing, -, hrest⟩ := h
  rw [hrest] at hin
  simp only [Header.byteLength, List.length_append, Word.length_bytes] at hin
  omega

/-- A size of zero is refused before any parser runs. -/
theorem ChoiceAt.step_zero (h : ChoiceAt r header count tail) (hzero : header.size.toNat = 0) :
    ∃ r', routineTable.step .routine r = .error (.zeroSize 0x05 r.pos) r' := by
  obtain ⟨hop, -, head, timing, rfl, hrest⟩ := h
  obtain ⟨log, hstep⟩ := OpcodeTable.step_header routineTable .routine hrest
  have hsize : (Header.ofWord .routine head).size = 0 := UInt8.toNat_inj.mp hzero
  refine ⟨r.past 4 log, ?_⟩
  rw [hstep, OpcodeTable.afterHeader, if_neg (by rw [hop]; decide), if_pos hsize, hop]
  rfl

/-- A size above zero is left to the parser, which stands at the timing then. -/
theorem ChoiceAt.step_parse (h : ChoiceAt r header count tail) (hpos : 0 < header.size.toNat) :
    ∃ timing log, routineTable.step .routine r =
        routineTable.perform r.pos header (r.past 4 log) ∧
      (r.past 4 log).rest = Word.bytes timing ++ (Word.bytes count ++ tail) := by
  obtain ⟨hop, hin, head, timing, rfl, hrest⟩ := h
  obtain ⟨log, hstep⟩ := OpcodeTable.step_header routineTable .routine hrest
  have hsize : (Header.ofWord .routine head).size ≠ 0 := by
    intro hzero
    rw [hzero] at hpos
    exact absurd hpos (by decide)
  have hlong : ¬(Word.bytes timing ++ (Word.bytes count ++ tail)).length + 4 <
      (Header.ofWord .routine head).byteLength := by
    rw [hrest, List.length_append, Word.length_bytes] at hin
    omega
  refine ⟨timing, log, ?_, r.rest_past_of_append hrest log⟩
  rw [hstep, OpcodeTable.afterHeader, if_neg (by rw [hop]; decide), if_neg hsize, if_neg hlong]

/-- The parser reads its names, and what it came to is held against the declared size. -/
theorem ChoiceAt.step_eq (h : ChoiceAt r header count tail) (hpos : 0 < header.size.toNat) :
    ∃ ids e rest, ids.length = min count.toNat (header.size.toNat - 3) ∧
      tail = Effect.namesBytes ids ++ rest ∧ e.action = .randomRoutine ids ∧
      ∃ r', routineTable.step .routine r =
        if 12 + ids.length * 4 = header.byteLength then .ok (.item header e) r'
        else .error (.sizeMismatch 0x05 r.pos header.byteLength (12 + ids.length * 4)) r' := by
  have hnames : min count.toNat (header.size.toNat - 3) * 4 ≤ tail.length :=
    Nat.le_trans (Nat.mul_le_mul_right 4 (Nat.min_le_right ..)) h.room
  obtain ⟨ids, rest, hids, htail⟩ := Effect.exists_names hnames
  obtain ⟨timing, log, hstep, hbody⟩ := h.step_parse hpos
  have hrest : (r.past 4 log).rest =
      (Word.bytes timing ++ (Word.bytes count ++ Effect.namesBytes ids)) ++ rest := by
    rw [hbody, htail]
    simp only [List.append_assoc]
  have hreads := Effect.timed_reads timing (Effect.readChoices_reads hids) _ rest hrest
  simp only [List.length_append, Word.length_bytes, Effect.length_namesBytes] at hreads
  let after := (r.past 4 log).advance (4 + (4 + ids.length * 4))
  have hactual : after.pos - r.pos = 12 + ids.length * 4 := by
    change r.pos + 4 + (4 + (4 + ids.length * 4)) - r.pos = _
    omega
  refine ⟨ids, ⟨timing.toUInt16, (timing >>> 16).toUInt16, .randomRoutine ids⟩, rest, hids, htail,
    rfl, after, ?_⟩
  have hparse : routineTable.parser? header.opcode = some (Effect.timed Effect.readChoices) := by
    rw [h.opcode]
    rfl
  rw [hstep, OpcodeTable.perform, hparse]
  dsimp only
  rw [run_bind hreads, run_bind (position_eq _), hactual]
  by_cases he : 12 + ids.length * 4 = header.byteLength
  · rw [if_neg (not_not_intro he), if_pos he]
    rfl
  · rw [if_pos he, if_neg he, h.opcode]
    rfl

/-- Fewer choices than the size has room for, or no room for their count. -/
theorem ChoiceAt.step_refused (h : ChoiceAt r header count tail) (hpos : 0 < header.size.toNat)
    (hmiss : header.size.toNat < 3 ∨ count.toNat + 3 < header.size.toNat) :
    ∃ actual r', routineTable.step .routine r =
      .error (.sizeMismatch 0x05 r.pos header.byteLength actual) r' := by
  obtain ⟨ids, e, rest, hids, -, -, r', hstep⟩ := h.step_eq hpos
  rw [if_neg (by rw [Header.byteLength]; omega)] at hstep
  exact ⟨_, r', hstep⟩

/-- As many choices as the size has room for, or a count of more. -/
theorem ChoiceAt.step_read (h : ChoiceAt r header count tail) (hroom : 3 ≤ header.size.toNat)
    (hcount : header.size.toNat ≤ count.toNat + 3) :
    ∃ ids e rest, ids.length + 3 = header.size.toNat ∧ tail = Effect.namesBytes ids ++ rest ∧
      e.action = .randomRoutine ids ∧
      ∃ r', routineTable.step .routine r = .ok (.item header e) r' := by
  obtain ⟨ids, e, rest, hids, htail, haction, r', hstep⟩ := h.step_eq (by omega)
  rw [if_pos (by rw [Header.byteLength]; omega)] at hstep
  exact ⟨ids, e, rest, by omega, htail, haction, r', hstep⟩

/-- What the count of a choice would promise if it were held against the size: the choice is read
just if they agree, then with the names that follow, in their order; and else it is refused for its
size. -/
structure CountHeld (data : List UInt8) (closed : List (List Effect)) (before : List Effect)
    (r : Reader) (header : Header) (count : UInt32) (tail : List UInt8) : Prop where
  read_iff : (∃ e r', routineTable.step .routine r = .ok (.item header e) r') ↔
    count.toNat + 3 = header.size.toNat
  names : ∀ id origin config routine, (decode id origin config data).1 = .ok routine →
    ∃ ids e later rest, ids.length = count.toNat ∧ tail = Effect.namesBytes ids ++ rest ∧
      e.action = .randomRoutine ids ∧
      routine.lists[closed.length]? = some (before ++ e :: later)
  refused : count.toNat + 3 ≠ header.size.toNat → ∀ id origin config, ∃ actual,
    (decode id origin config data).1 =
      .error (.sizeMismatch 0x05 r.pos header.byteLength actual)

theorem ChoiceAt.countHeld_of_refused (hplace : ComesTo data closed before r)
    (h : ChoiceAt r header count tail) (hpos : 0 < header.size.toNat)
    (hmiss : header.size.toNat < 3 ∨ count.toNat + 3 < header.size.toNat) :
    CountHeld data closed before r header count tail := by
  obtain ⟨actual, r', hstep⟩ := h.step_refused hpos hmiss
  refine ⟨?_, fun _ _ _ routine hroutine => ?_, fun _ _ _ _ => ⟨actual, hplace.decode_fault hstep⟩⟩
  · constructor
    · rintro ⟨e, s, hread⟩
      rw [hstep] at hread
      cases hread
    · omega
  · rw [hplace.decode_fault hstep] at hroutine
    cases hroutine

theorem ChoiceAt.countHeld_of_eq (hplace : ComesTo data closed before r)
    (h : ChoiceAt r header count tail) (hcount : count.toNat + 3 = header.size.toNat) :
    CountHeld data closed before r header count tail := by
  obtain ⟨ids, e, rest, hids, htail, haction, r', hstep⟩ := h.step_read (by omega) (by omega)
  refine ⟨⟨fun _ => hcount, fun _ => ⟨e, r', hstep⟩⟩, fun _ _ _ routine hroutine => ?_,
    fun hne => (hne hcount).elim⟩
  obtain ⟨later, hlist⟩ := hplace.decode_item hstep hroutine
  exact ⟨ids, e, later, rest, by omega, htail, haction, hlist⟩

/-- For every choice that the decoding of a stream comes to, the count is held against the size just
if it is not too large. With a larger one the choice is read, too, with the names that there is room
for. -/
theorem countHeld_iff (hplace : ComesTo data closed before r)
    (h : ChoiceAt r header count tail) :
    (CountHeld data closed before r header count tail ↔
      0 < header.size.toNat ∧ (header.size.toNat < 3 ∨ count.toNat + 3 ≤ header.size.toNat)) ∧
    (header.size.toNat = 0 → ∀ id origin config,
      (decode id origin config data).1 = .error (.zeroSize 0x05 r.pos)) ∧
    (3 ≤ header.size.toNat → header.size.toNat ≤ count.toNat + 3 →
      ∃ ids e rest r', ids.length + 3 = header.size.toNat ∧
        tail = Effect.namesBytes ids ++ rest ∧ e.action = .randomRoutine ids ∧
        ComesTo data closed (before ++ [e]) r' ∧
        ∀ id origin config routine, (decode id origin config data).1 = .ok routine →
          ∃ later, routine.lists[closed.length]? = some (before ++ e :: later)) := by
  have hzero (hsize : header.size.toNat = 0) (id origin config) :
      (decode id origin config data).1 = .error (.zeroSize 0x05 r.pos) := by
    obtain ⟨r', hstep⟩ := h.step_zero hsize
    exact hplace.decode_fault hstep
  refine ⟨⟨fun held => ?_, ?_⟩, hzero, fun hroom hcount => ?_⟩
  · have hpos : 0 < header.size.toNat := by
      apply Nat.pos_of_ne_zero
      intro hsize
      obtain ⟨actual, hfault⟩ := held.refused (by omega) ResourceId.none ResourcePath.root {}
      rw [hzero hsize] at hfault
      cases hfault
    refine ⟨hpos, ?_⟩
    by_cases hlarge : header.size.toNat < 3 ∨ count.toNat + 3 ≤ header.size.toNat
    · exact hlarge
    · obtain ⟨ids, e, rest, -, -, -, r', hstep⟩ := h.step_read (by omega) (by omega)
      have hcount := held.read_iff.mp ⟨e, r', hstep⟩
      omega
  · rintro ⟨hpos, hsmall⟩
    by_cases hcount : count.toNat + 3 = header.size.toNat
    · exact h.countHeld_of_eq hplace hcount
    · exact h.countHeld_of_refused hplace hpos (by omega)
  · obtain ⟨ids, e, rest, hids, htail, haction, r', hstep⟩ := h.step_read hroom hcount
    exact ⟨ids, e, rest, r', hids, htail, haction, hplace.snoc hstep,
      fun _ _ _ routine hroutine => hplace.decode_item hstep hroutine⟩

def oneChoice : List UInt8 :=
  [0, 1, 0, 0, 5, 4, 0, 0, 0, 0, 0, 0, 1, 0, 0, 0, 0x6c, 0x61, 0x6d, 0x70]

theorem oneChoice_countHeld :
    ComesTo oneChoice [[]] [] ⟨oneChoice, 4, []⟩ ∧
    ChoiceAt ⟨oneChoice, 4, []⟩ ⟨5, 4, 0⟩ 1 [0x6c, 0x61, 0x6d, 0x70] ∧
    CountHeld oneChoice [[]] [] ⟨oneChoice, 4, []⟩ ⟨5, 4, 0⟩ 1 [0x6c, 0x61, 0x6d, 0x70] := by
  have hplace : ComesTo oneChoice [[]] [] ⟨oneChoice, 4, []⟩ := by
    have hread : routineTable.decoder .routine (Reader.of oneChoice) =
        .ok ([], .terminated) ⟨oneChoice, 4, []⟩ := rfl
    exact ⟨.next .first hread, by decide, .here _, rfl⟩
  have hchoice : ChoiceAt ⟨oneChoice, 4, []⟩ ⟨5, 4, 0⟩ 1 [0x6c, 0x61, 0x6d, 0x70] :=
    ⟨rfl, by decide, Word.ofBytes 5 4 0 0, 0, by decide, by decide⟩
  exact ⟨hplace, hchoice, (countHeld_iff hplace hchoice).1.mpr (by decide)⟩

/-- A choice that says it has one name and has room for none, then the end of the list. -/
def noRoom : List UInt8 := [5, 3, 0, 0, 0, 0, 0, 0, 1, 0, 0, 0, 0, 1, 0, 0]

/-- It is read as a choice of none. -/
theorem noRoom_not_countHeld :
    ComesTo noRoom [] [] (Reader.of noRoom) ∧
    ChoiceAt (Reader.of noRoom) ⟨5, 3, 0⟩ 1 [0, 1, 0, 0] ∧
    (decode ResourceId.none ResourcePath.root {} noRoom).1 =
      .ok (ofSections ResourceId.none ResourcePath.root [⟨0, 0, .randomRoutine []⟩] [] [] {}) ∧
    ¬CountHeld noRoom [] [] (Reader.of noRoom) ⟨5, 3, 0⟩ 1 [0, 1, 0, 0] := by
  have hdecode : (decode ResourceId.none ResourcePath.root {} noRoom).1 =
      .ok (ofSections ResourceId.none ResourcePath.root [⟨0, 0, .randomRoutine []⟩] [] [] {}) := rfl
  refine ⟨⟨.first, by decide, .here _, rfl⟩,
    ⟨rfl, by decide, Word.ofBytes 5 3 0 0, 0, by decide, by decide⟩, hdecode, fun held => ?_⟩
  obtain ⟨actual, hfault⟩ := held.refused (by decide) ResourceId.none ResourcePath.root {}
  rw [hdecode] at hfault
  cases hfault

end Routine
end EffectMachine
