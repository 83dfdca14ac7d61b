import EffectMachine.Proofs.Stream.Acceptance

namespace EffectMachine

namespace Decoder

variable {α β : Type} {d : Decoder α} {f : α → Decoder β} {P Q R : List UInt8 → List UInt8 → Prop}

/-- Two runs of a decoder on related streams: both fail, or both succeed with one outcome, and what
is left is related again. -/
def Twin (P : List UInt8 → List UInt8 → Prop) (d : Decoder α)
    (Q : List UInt8 → List UInt8 → Prop) : Prop :=
  ∀ r s, P r.rest s.rest → (d.Fails r ∧ d.Fails s) ∨
    ∃ x r' s', d r = .ok x r' ∧ d s = .ok x s' ∧ Q r'.rest s'.rest

namespace Twin

theorem pure (x : α) : (Pure.pure x : Decoder α).Twin P P :=
  fun r s h => .inr ⟨x, r, s, rfl, rfl, h⟩

/-- At the end it is all one what is left. -/
theorem done (x : α) : (Pure.pure x : Decoder α).Twin P fun _ _ => True :=
  fun r s _ => .inr ⟨x, r, s, rfl, rfl, trivial⟩

/-- Decoders in sequence agree on twin streams if each of them does. -/
theorem bind (hd : d.Twin P Q) (hf : ∀ x, (f x).Twin Q R) : (d >>= f).Twin P R := by
  intro r s h
  obtain ⟨hr, hs⟩ | ⟨x, r', s', hr, hs, h⟩ := hd r s h
  · exact .inl ⟨hr.bind, hs.bind⟩
  obtain ⟨hr', hs'⟩ | ⟨y, r'', s'', hr', hs', h⟩ := hf x r' s' h
  · exact .inl ⟨.after hr hr', .after hs hs'⟩
  · refine .inr ⟨y, r'', s'', ?_, ?_, h⟩
    · rw [run_bind hr, hr']
    · rw [run_bind hs, hs']

theorem weaken (hd : d.Twin P Q) (h : ∀ b c, Q b c → R b c) : d.Twin P R := by
  intro r s hrs
  obtain hfail | ⟨x, r', s', hr, hs, hq⟩ := hd r s hrs
  · exact .inl hfail
  · exact .inr ⟨x, r', s', hr, hs, h _ _ hq⟩

/-- The same bytes in front. -/
theorem of_hasLength {n : Nat} (hd : d.HasLength n) :
    d.Twin (fun b c =>
      ∃ bytes b' c', bytes.length = n ∧ b = bytes ++ b' ∧ c = bytes ++ c' ∧ P b' c') P := by
  rintro r s ⟨bytes, b', c', hlength, hr, hs, h⟩
  obtain ⟨x, hx⟩ := hd.takes bytes hlength
  obtain ⟨log, hxr⟩ := hx r b' hr
  obtain ⟨log', hxs⟩ := hx s c' hs
  refine .inr ⟨x, _, _, hxr, hxs, ?_⟩
  rwa [r.rest_past_of_append hr, s.rest_past_of_append hs]

/-- What is decoded of the streams, if anything is, is the same. -/
theorem decode {data data' : List UInt8} (hd : d.Twin P Q) (h : P data data') :
    (d.decode data).1.toOption = (d.decode data').1.toOption := by
  rw [Decoder.decode, Decoder.decode]
  obtain ⟨⟨_, _, hr⟩, ⟨_, _, hs⟩⟩ | ⟨x, r', s', hr, hs, _⟩ := hd (.of data) (.of data') h
  · rw [hr, hs]
    rfl
  · rw [hr, hs]

end Twin
end Decoder

open Decoder

/-- The first stream has one instruction more than the second, at a boundary inside a section. The
list says for each section that is still to come which instructions it may be. -/
inductive Inserted (format : HeaderFormat) :
    List (Instruction → Prop) → List UInt8 → List UInt8 → Prop where
  | here {may : Instruction → Prop} {later : List (Instruction → Prop)} {is : List Instruction}
      {i : Instruction} {rest : List UInt8} (his : ∀ j ∈ is, j.IsWhole format) (hi : may i) :
      Inserted format (may :: later) (is.flatMap Instruction.bytes ++ (i.bytes ++ rest))
        (is.flatMap Instruction.bytes ++ rest)
  | behind {may : Instruction → Prop} {later : List (Instruction → Prop)} {is : List Instruction}
      {i : Instruction} {after before : List UInt8} (his : ∀ j ∈ is, j.IsWhole format)
      (hi : i.IsEnd format) (h : Inserted format later after before) :
      Inserted format (may :: later) (is.flatMap Instruction.bytes ++ (i.bytes ++ after))
        (is.flatMap Instruction.bytes ++ (i.bytes ++ before))

/-- The streams are the same, or one has an instruction more. -/
def Alike (format : HeaderFormat) (later : List (Instruction → Prop)) (after before : List UInt8) :
    Prop :=
  after = before ∨ Inserted format later after before

namespace OpcodeTable

variable {α β : Type} {table : OpcodeTable α} {format : HeaderFormat}
  {extent? : UInt8 → Option Extent} {r s r' : Reader} {is : List Instruction} {rest : List UInt8}
  {items : List (Header × α)} {how : SectionEnd}

theorem outcome_of_fails (h : (table.decoder format).Fails r) :
    ∃ fault, (table.readSection format r).outcome = .error fault := by
  obtain ⟨fault, r', h⟩ := h
  rw [decoder] at h
  cases hread : (table.readSection format r).outcome with
  | error fault => exact ⟨fault, rfl⟩
  | ok how =>
    rw [hread] at h
    cases h

theorem fails_of_runs (hs : table.Sized format extent?) {fault : Fault}
    (h : table.Runs format r ⟨items, .error fault, r'⟩) : (table.decoder format).Fails r := by
  rw [Fails, decoder, (runs_readSection hs r).unique h]
  exact ⟨_, _, rfl⟩

/-- Instructions that are admitted are read first, and what follows them as ever. -/
theorem decoder_instructions (hs : table.Sized format extent?)
    (his : ∀ i ∈ is, i.IsAdmitted extent? format)
    (h : r.rest = is.flatMap Instruction.bytes ++ rest) :
    ∃ s : Reader, s.rest = rest ∧
      ((table.decoder format).Fails s → (table.decoder format).Fails r) ∧
      ∀ items how r', table.decoder format s = .ok (items, how) r' →
        table.decoder format r = .ok (is.filterMap (table.item? format) ++ items, how) r' := by
  obtain ⟨log, hruns⟩ := runs_instructions hs his h
  refine ⟨_, r.rest_past_of_append h log, fun hfails => ?_, fun items how r' hread => ?_⟩
  · obtain ⟨fault, houtcome⟩ := outcome_of_fails hfails
    have hlater := hruns _ (runs_readSection hs _)
    rw [houtcome] at hlater
    exact fails_of_runs hs hlater
  · exact decoder_of_runs hs (hruns _ (runs_of_decoder hs hread))

/-- Where one of the instructions is not admitted, nothing can be read. -/
theorem decoder_fails (hs : table.Sized format extent?) (his : ∀ i ∈ is, i.IsWhole format)
    (hnot : ¬ ∀ i ∈ is, i.IsAdmitted extent? format)
    (h : r.rest = is.flatMap Instruction.bytes ++ rest) : (table.decoder format).Fails r := by
  induction is generalizing r with
  | nil => exact absurd nofun hnot
  | cons i is ih =>
    have hi := his i List.mem_cons_self
    rw [List.flatMap_cons, List.append_assoc] at h
    by_cases hadmitted : i.IsAdmitted extent? format
    · have hone : r.rest =
          [i].flatMap Instruction.bytes ++ (is.flatMap Instruction.bytes ++ rest) := by
        rw [h, List.flatMap_singleton]
      obtain ⟨s, hrest, hfails, _⟩ :=
        decoder_instructions hs (List.forall_mem_singleton.mpr hadmitted) hone
      refine hfails (ih (fun j hj => his j (List.mem_cons_of_mem i hj)) ?_ hrest)
      exact fun hall => hnot (List.forall_mem_cons.mpr ⟨hadmitted, hall⟩)
    · obtain ⟨fault, r', hstep⟩ := step_not_admitted hs hi hadmitted h
      exact fails_of_runs hs (.fails hstep)

/-- A section is read by the bytes that are left alone. -/
theorem decoder_local (hs : table.Sized format extent?) (h : r.rest = s.rest)
    (hread : table.decoder format r = .ok (items, how) r') :
    ∃ s', table.decoder format s = .ok (items, how) s' ∧ r'.rest = s'.rest := by
  obtain ⟨sec, rest, log, hopens, houtcome, rfl⟩ := opens_of_decoder hs hread
  rw [h] at hopens
  obtain ⟨log', hread'⟩ := decoder_of_opens hs hopens
  rw [houtcome]
  exact ⟨_, hread', by rw [r.rest_past, s.rest_past, h]⟩

/-- A section decoder sees nothing but what is still to be read. -/
theorem decoder_twin_eq (hs : table.Sized format extent?) :
    (table.decoder format).Twin Eq Eq := by
  intro r s h
  cases hr : table.decoder format r with
  | ok outcome r' =>
    obtain ⟨s', hs', hrest⟩ := decoder_local hs h hr
    exact .inr ⟨outcome, r', s', rfl, hs', hrest⟩
  | error fault r' =>
    cases hs' : table.decoder format s with
    | ok outcome s' =>
      obtain ⟨r'', hr', _⟩ := decoder_local hs h.symm hs'
      rw [hr] at hr'
      cases hr'
    | error fault' s' => exact .inl ⟨⟨_, _, hr⟩, ⟨_, _, hs'⟩⟩

def picked (table : OpcodeTable α) (format : HeaderFormat) (pick : Header × α → Option β) :
    Decoder (List β × SectionEnd) := do
  let (items, how) ← table.decoder format
  return (items.filterMap pick, how)

/-- Nothing is picked of this instruction. -/
structure PassesOver (table : OpcodeTable α) (extent? : UInt8 → Option Extent)
    (format : HeaderFormat) (pick : Header × α → Option β) (i : Instruction) : Prop where
  admitted : i.IsAdmitted extent? format
  unpicked : ∀ item ∈ table.item? format i, pick item = none

variable {pick : Header × α → Option β}

theorem picked_fails (h : (table.decoder format).Fails r) : (table.picked format pick).Fails r :=
  h.bind

theorem picked_of_decoder (pick : Header × α → Option β)
    (h : table.decoder format r = .ok (items, how) r') :
    table.picked format pick r = .ok (items.filterMap pick, how) r' := by
  rw [picked, run_bind h]
  rfl

/-- An instruction of which nothing is picked, among others of its section. -/
theorem filterMap_picked {i : Instruction} (hi : table.PassesOver extent? format pick i) :
    ((is ++ [i]).filterMap (table.item? format) ++ items).filterMap pick =
      (is.filterMap (table.item? format) ++ items).filterMap pick := by
  rw [List.filterMap_append, List.filterMap_append, List.filterMap_append, List.filterMap_append]
  have hnone : ([i].filterMap (table.item? format)).filterMap pick = [] := by
    rw [List.filterMap_cons]
    cases hitem : table.item? format i with
    | none => rfl
    | some item =>
      dsimp only
      rw [List.filterMap_nil, List.filterMap_cons, hi.unpicked item hitem]
      rfl
  rw [hnone, List.append_nil]

theorem picked_twin_eq (hs : table.Sized format extent?) :
    (table.picked format pick).Twin Eq Eq :=
  (decoder_twin_eq hs).bind fun (_, _) => .pure _

/-- The section is the same but for one instruction. -/
theorem picked_here (hs : table.Sized format extent?) {i : Instruction}
    (his : ∀ j ∈ is, j.IsWhole format) (hi : table.PassesOver extent? format pick i)
    (hr : r.rest = is.flatMap Instruction.bytes ++ (i.bytes ++ rest))
    (hs' : s.rest = is.flatMap Instruction.bytes ++ rest) :
    ((table.picked format pick).Fails r ∧ (table.picked format pick).Fails s) ∨
    ∃ x r' s', table.picked format pick r = .ok x r' ∧ table.picked format pick s = .ok x s' ∧
      r'.rest = s'.rest := by
  by_cases hall : ∀ j ∈ is, j.IsAdmitted extent? format
  · have hmore : ∀ j ∈ is ++ [i], j.IsAdmitted extent? format :=
      List.forall_mem_append.mpr ⟨hall, List.forall_mem_singleton.mpr hi.admitted⟩
    rw [← List.append_assoc, ← List.flatMap_singleton Instruction.bytes i,
      ← List.flatMap_append] at hr
    obtain ⟨r₁, hr₁, hrfails, hrok⟩ := decoder_instructions hs hmore hr
    obtain ⟨s₁, hs₁, hsfails, hsok⟩ := decoder_instructions hs hall hs'
    obtain ⟨hr', hs'⟩ | ⟨⟨items, how⟩, r', s', hr', hs', hrest⟩ :=
      decoder_twin_eq hs r₁ s₁ (hr₁.trans hs₁.symm)
    · exact .inl ⟨picked_fails (hrfails hr'), picked_fails (hsfails hs')⟩
    · have hread := picked_of_decoder pick (hrok items how r' hr')
      rw [filterMap_picked hi] at hread
      exact .inr ⟨_, r', s', hread, picked_of_decoder pick (hsok items how s' hs'), hrest⟩
  · exact .inl ⟨picked_fails (decoder_fails hs his hall hr),
      picked_fails (decoder_fails hs his hall hs')⟩

/-- The section is the same, and it is closed before the streams differ. -/
theorem picked_behind (hs : table.Sized format extent?) {i : Instruction}
    {after before : List UInt8} (his : ∀ j ∈ is, j.IsWhole format) (hi : i.IsEnd format)
    (hr : r.rest = is.flatMap Instruction.bytes ++ (i.bytes ++ after))
    (hs' : s.rest = is.flatMap Instruction.bytes ++ (i.bytes ++ before)) :
    ((table.picked format pick).Fails r ∧ (table.picked format pick).Fails s) ∨
    ∃ x r' s', table.picked format pick r = .ok x r' ∧ table.picked format pick s = .ok x s' ∧
      r'.rest = after ∧ s'.rest = before := by
  by_cases hall : ∀ j ∈ is, j.IsAdmitted extent? format
  · have hopens {bytes rest : List UInt8}
        (h : bytes = is.flatMap Instruction.bytes ++ (i.bytes ++ rest)) :
        Section.Opens extent? format ⟨is, some i⟩ bytes rest :=
      ⟨h.trans (List.append_assoc ..).symm, hall, fun _ hj => Option.some.inj hj ▸ hi, nofun⟩
    obtain ⟨log, hread⟩ := decoder_of_opens hs (hopens hr)
    obtain ⟨log', hread'⟩ := decoder_of_opens hs (hopens hs')
    exact .inr ⟨_, _, _, picked_of_decoder pick hread, picked_of_decoder pick hread',
      r.rest_past_of_append (hopens hr).split log, s.rest_past_of_append (hopens hs').split log'⟩
  · exact .inl ⟨picked_fails (decoder_fails hs his hall hr),
      picked_fails (decoder_fails hs his hall hs')⟩

/-- With one instruction more in this section, of which nothing is picked, or in a later one. -/
theorem picked_twin (hs : table.Sized format extent?) {may : Instruction → Prop}
    {later : List (Instruction → Prop)}
    (hmay : ∀ i, may i → table.PassesOver extent? format pick i) :
    (table.picked format pick).Twin (Alike format (may :: later)) (Alike format later) := by
  rintro r s (heq | hinserted)
  · exact (picked_twin_eq hs).weaken (fun _ _ => .inl) r s heq
  generalize hr : r.rest = after at hinserted
  generalize hs' : s.rest = before at hinserted
  cases hinserted with
  | here his hi =>
    obtain hfails | ⟨x, r', s', hread, hread', hrest⟩ := picked_here hs his (hmay _ hi) hr hs'
    · exact .inl hfails
    · exact .inr ⟨x, r', s', hread, hread', .inl hrest⟩
  | behind his hi h =>
    obtain hfails | ⟨x, r', s', hread, hread', rfl, rfl⟩ := picked_behind hs his hi hr hs'
    · exact .inl hfails
    · exact .inr ⟨x, r', s', hread, hread', .inr h⟩

/-- Read as a whole, of instructions that the table does not know. -/
theorem decoder_twin (hs : table.Sized format extent?) {may : Instruction → Prop}
    {later : List (Instruction → Prop)}
    (hmay : ∀ i, may i → table.PassesOver extent? format some i) :
    (table.decoder format).Twin (Alike format (may :: later)) (Alike format later) := by
  have hpicked : table.picked format some = table.decoder format := by
    funext r
    cases hread : table.decoder format r with
    | ok outcome r' =>
      rw [picked_of_decoder some hread, List.filterMap_some]
    | error fault r' => exact run_bind_error hread
  rw [← hpicked]
  exact picked_twin hs hmay

end OpcodeTable
end EffectMachine
