import EffectMachine.Proofs.System.Steps

namespace EffectMachine

open EffectMachine.System

inductive Request where
  | trigger (routine : ResourceId) (scope : SearchScope) (binding : Binding)
  | start (routine : Routine) (binding : Binding)
  | stop (id : SequenceId)
  | stopRoutine (routine : ResourceId)
  | advance (elapsed : Scalar)
  | takeFailures

namespace Request

def isAdvance : Request → Bool
  | advance _ => true
  | _ => false

def stops (s : System) : Request → List SequenceId
  | stop id => [id]
  | stopRoutine routine =>
    (s.sequences.filter fun q => q.body.routine.id = routine && !q.body.stopped).map (·.body.id)
  | _ => []

end Request

/-- A request with what it finds. The host may have been at work elsewhere in the meantime, but
gives no name twice. -/
structure Occasion where
  request : Request
  surroundings : Surroundings
  meanwhile : Host → Host
  forward : ∀ h, h.nextSequence ≤ (meanwhile h).nextSequence

/-- A system, and the failures that it has handed over. -/
structure Ledger where
  system : System := {}
  handedOver : List ActivationFailure := []

namespace Ledger

def recorded (l : Ledger) : List ActivationFailure := l.handedOver ++ l.system.failures

def serve (l : Ledger) : Request → Tick (Ledger × Option Halt)
  | .trigger routine scope binding => do
    let (system, _) ← l.system.trigger routine scope binding
    return ({ l with system }, none)
  | .start routine binding => do
    let (system, _) ← l.system.start routine binding
    return ({ l with system }, none)
  | .stop id => do
    let (system, _) ← l.system.stop id
    return ({ l with system }, none)
  | .stopRoutine routine => do
    let (system, _) ← l.system.stopRoutine routine
    return ({ l with system }, none)
  | .advance elapsed => do
    let (system, halt) ← l.system.advance elapsed
    return ({ l with system }, halt)
  | .takeFailures =>
    let (failures, system) := l.system.takeFailures
    return (⟨system, l.handedOver ++ failures⟩, none)

variable (l : Ledger) (h : Host) (o : Occasion)

def served : (Ledger × Option Halt) × Host := l.serve o.request o.surroundings (o.meanwhile h)

/-- The sequences as a tick has moved them, before it lets go of any. -/
def moved : List Sequence :=
  match o.request with
  | .advance elapsed =>
    (advanceIn elapsed l.system.sequences o.surroundings (o.meanwhile h)).1.1
  | _ => []

/-- Does a sequence that is stopped hand up a fault of its descendants? -/
def handsUp : Bool :=
  l.system.stopsHandUp (o.request.stops l.system) o.surroundings (o.meanwhile h)

/-- A request after which the books are right. -/
structure Accounted (l' : Ledger) : Prop where
  kept : l.recorded <+: l'.recorded
  once : (namesIn l'.recorded).Nodup
  failed : ∀ q ∈ l'.system.sequences, q.body.id ∈ namesIn l'.recorded → q.state = .failed
  gone : o.request.isAdvance = true →
    ∀ q ∈ l'.system.sequences, q.body.id ∉ namesIn l'.recorded
  dropped : ∀ q ∈ l.system.sequences, q.body.id ∉ idsOf l'.system.sequences →
    (∃ q' ∈ l.moved h o, q'.body.id = q.body.id ∧ q'.isComplete = true) ∨
      (namesIn l'.recorded).count q.body.id = 1

end Ledger

/-- No tick of a run spends all the fuel of a loop. -/
def Ledger.Returns : Ledger → Host → List Occasion → Prop
  | _, _, [] => True
  | l, h, o :: os =>
    (l.served h o).1.2 ≠ some .outOfFuel ∧ (l.served h o).1.1.Returns (l.served h o).2 os

def Ledger.AccountedRun : Ledger → Host → List Occasion → Prop
  | _, _, [] => True
  | l, h, o :: os =>
    l.Accounted h o (l.served h o).1.1 ∧ (l.served h o).1.1.AccountedRun (l.served h o).2 os

def Ledger.handsUpIn : Ledger → Host → List Occasion → Bool
  | _, _, [] => false
  | l, h, o :: os => l.handsUp h o || (l.served h o).1.1.handsUpIn (l.served h o).2 os

namespace Ledger

/-- Names are used once, and what failed is what the records name. -/
structure Orderly (l : Ledger) (h : Host) : Prop where
  names : (idsOf l.system.sequences).Nodup
  listed : ∀ q ∈ l.system.sequences, q.body.id.number < h.nextSequence
  known : ∀ id ∈ namesIn l.recorded, id.number < h.nextSequence
  once : (namesIn l.recorded).Nodup
  failed : ∀ q ∈ l.system.sequences, (q.isFailed = true ↔ q.body.id ∈ namesIn l.recorded)

variable {l : Ledger} {h h' : Host} {r : Surroundings}

theorem orderly_empty (h : Host) : Orderly {} h :=
  ⟨List.nodup_nil, by simp, by simp [recorded, namesIn], List.nodup_nil, by simp⟩

theorem recorded_with (l : Ledger) (qs : List Sequence) (fs : List ActivationFailure) :
    recorded { l with system := ⟨qs, l.system.failures ++ fs⟩ } = l.recorded ++ fs :=
  (List.append_assoc ..).symm

namespace Orderly

theorem later (ho : l.Orderly h) (hl : h.nextSequence ≤ h'.nextSequence) : l.Orderly h' :=
  ⟨ho.names, fun q hq => Nat.lt_of_lt_of_le (ho.listed q hq) hl,
    fun id hi => Nat.lt_of_lt_of_le (ho.known id hi) hl, ho.once, ho.failed⟩

/-- A new sequence has a name that was never used. -/
theorem started (ho : l.Orderly h) {q : Sequence} (hid : q.body.id.number = h.nextSequence)
    (hf : q.isFailed = false) (hl : h.nextSequence < h'.nextSequence) :
    Orderly { l with system := { l.system with sequences := l.system.sequences ++ [q] } } h' where
  names := by
    rw [idsOf_append, List.nodup_append]
    refine ⟨ho.names, by simp [idsOf], fun id hi id' hi' he => ?_⟩
    obtain ⟨p, hp, rfl⟩ := List.mem_map.mp hi
    obtain rfl : id' = q.body.id := by simpa [idsOf] using hi'
    have hlt := ho.listed p hp
    rw [he, hid] at hlt
    exact Nat.lt_irrefl _ hlt
  listed p hp := by
    rcases List.mem_append.mp hp with hp | hp
    · exact Nat.lt_trans (ho.listed p hp) hl
    · obtain rfl := List.mem_singleton.mp hp
      rwa [hid]
  known id hi := Nat.lt_trans (ho.known id hi) hl
  once := ho.once
  failed p hp := by
    rcases List.mem_append.mp hp with hp | hp
    · exact ho.failed p hp
    · obtain rfl := List.mem_singleton.mp hp
      refine iff_of_false (by simp [hf]) fun hi => ?_
      have hlt := ho.known _ hi
      rw [hid] at hlt
      exact Nat.lt_irrefl _ hlt

/-- The sequences have changed under their names, and failures of some were recorded. -/
theorem recording (ho : l.Orderly h) {qs : List Sequence} {fs : List ActivationFailure}
    (hids : idsOf qs = idsOf l.system.sequences) (hl : h.nextSequence ≤ h'.nextSequence)
    (honce : (namesIn fs).Nodup)
    (hlive : ∀ id ∈ namesIn fs, id ∈ idsOf l.system.sequences ∧ id ∉ namesIn l.recorded)
    (hfailed : ∀ q ∈ qs,
      (q.isFailed = true ↔ q.body.id ∈ namesIn fs ∨ q.body.id ∈ namesIn l.recorded)) :
    Orderly { l with system := ⟨qs, l.system.failures ++ fs⟩ } h' := by
  have hnumber (id : SequenceId) (hi : id ∈ idsOf l.system.sequences) :
      id.number < h'.nextSequence := by
    obtain ⟨q, hq, rfl⟩ := List.mem_map.mp hi
    exact Nat.lt_of_lt_of_le (ho.listed q hq) hl
  refine ⟨hids ▸ ho.names, fun q hq => hnumber _ ?_, fun id hi => ?_, ?_, fun q hq => ?_⟩
  · rw [← hids]
    exact List.mem_map_of_mem hq
  · rw [recorded_with, namesIn_append, List.mem_append] at hi
    rcases hi with hi | hi
    · exact Nat.lt_of_lt_of_le (ho.known id hi) hl
    · exact hnumber id (hlive id hi).1
  · rw [recorded_with, namesIn_append, List.nodup_append]
    exact ⟨ho.once, honce, fun id hi id' hi' he => (hlive id' hi').2 (he ▸ hi)⟩
  · rw [recorded_with, namesIn_append, List.mem_append, hfailed q hq, or_comm]

theorem filtered (ho : l.Orderly h) (keep : Sequence → Bool) :
    Orderly { l with system := { l.system with
      sequences := l.system.sequences.filter keep } } h :=
  ⟨(List.filter_sublist.map _).nodup ho.names, fun q hq => ho.listed q (List.mem_filter.mp hq).1,
    ho.known, ho.once, fun q hq => ho.failed q (List.mem_filter.mp hq).1⟩

/-- Other sequences have other names. -/
theorem other_names (ho : l.Orderly h) {pre post : List Sequence} {q p : Sequence}
    (hs : l.system.sequences = pre ++ q :: post) (hp : p ∈ pre ∨ p ∈ post) :
    p.body.id ≠ q.body.id := by
  have hn := ho.names
  rw [hs, idsOf_append, idsOf_cons, List.nodup_append, List.nodup_cons] at hn
  obtain ⟨_, ⟨hpost, _⟩, hpre⟩ := hn
  rcases hp with hp | hp
  · exact hpre _ (List.mem_map_of_mem hp) _ List.mem_cons_self
  · exact fun he => hpost (he ▸ List.mem_map_of_mem hp)

/-- A stop keeps the names in order, unless it hands up a fault. -/
theorem stop (ho : l.Orderly h) (id : SequenceId) (hu : l.system.stopHandsUp id r h = false) :
    Orderly { l with system := (l.system.stop id r h).1.1 } (l.system.stop id r h).2 := by
  rcases l.system.stop_cases id r h with ⟨hx, _⟩ | ⟨pre, q, post, hs, hid, hx⟩
  · rw [hx]
    exact ho
  have hq : q ∈ l.system.sequences := hs ▸ List.mem_append_right _ List.mem_cons_self
  have hid' := q.stop_id r h
  have hids : idsOf (pre ++ (q.stop r h).1.1 :: post) = idsOf l.system.sequences := by
    rw [hs]
    simp [hid']
  have hown : ∀ f, (q.stop r h).1.2 = some (.fault f) → q.isFailed = false := by
    intro f hf
    cases he : q.body.isEnded with
    | true => rw [Sequence.stop_of_ended he] at hf; cases hf
    | false => exact Sequence.isFailed_of_live he
  have hfailed : (q.stop r h).1.1.isFailed = true ↔
      (∃ f, (q.stop r h).1.2 = some (.fault f)) ∨ q.isFailed = true := by
    cases he : q.body.isEnded with
    | true => simp [Sequence.stop_of_ended he]
    | false =>
      have hn : q.stopHandsUp r h = false := by
        simpa [hid] using List.any_eq_false.mp hu q hq
      rw [Sequence.isFailed_eq_true, Sequence.isFailed_of_live he]
      simp [Sequence.stop_outcome he hn]
  rw [hx]
  refine ho.recording hids (q.forward_stop r h) (nodup_failureOf _ _) (fun i hi => ?_)
    fun p hp => ?_
  · obtain ⟨rfl, f, hf⟩ := mem_namesIn_failureOf.mp hi
    rw [hid', ← ho.failed q hq]
    exact ⟨List.mem_map_of_mem hq, by simp [hown f hf]⟩
  · rw [mem_namesIn_failureOf, hid']
    rcases List.mem_append.mp hp with hp | hp
    · have hne := ho.other_names hs (.inl hp)
      simp [hne, ho.failed p (hs ▸ List.mem_append_left _ hp)]
    · rcases List.mem_cons.mp hp with rfl | hp
      · rw [hfailed, hid', ho.failed q hq]
        simp
      · have hne := ho.other_names hs (.inr hp)
        simp [hne, ho.failed p (hs ▸ List.mem_append_right _ (List.mem_cons_of_mem _ hp))]

/-- So do several stops in turn. -/
theorem stopEach (ids : List SequenceId) (ho : l.Orderly h)
    (hu : l.system.stopsHandUp ids r h = false) :
    Orderly { l with system := (l.system.stopEach ids r h).1.1 } (l.system.stopEach ids r h).2 := by
  induction ids generalizing l h with
  | nil => exact ho
  | cons id ids ih =>
    obtain ⟨hn, hu⟩ := Bool.or_eq_false_iff.mp hu
    obtain ⟨hs, hh⟩ := l.system.stopEach_cons id ids r h
    rw [hs, hh]
    exact ih (ho.stop id hn) hu

end Orderly

end Ledger

/-- Is there a sequence that was stopped and has not failed, with a failure recorded for it? -/
def System.HasStray (s : System) : Prop :=
  ∃ q ∈ s.sequences, q.body.stopped = true ∧ q.isFailed = false ∧ q.body.id ∈ namesIn s.failures

/-- Nothing is done to it by later stops. -/
theorem System.HasStray.stop {s : System} (hs : s.HasStray) (id : SequenceId) (r : Surroundings)
    (h : Host) : (s.stop id r h).1.1.HasStray := by
  obtain ⟨p, hp, hstop, hf, hi⟩ := hs
  rcases s.stop_cases id r h with ⟨hx, _⟩ | ⟨pre, q, post, hs, _, hx⟩
  · rw [hx]
    exact ⟨p, hp, hstop, hf, hi⟩
  · rw [hx]
    refine ⟨p, ?_, hstop, hf, by rw [namesIn_append]; exact List.mem_append_left _ hi⟩
    rw [hs] at hp
    rcases List.mem_append.mp hp with hp | hp
    · exact List.mem_append_left _ hp
    · rcases List.mem_cons.mp hp with rfl | hp
      · have he : p.body.isEnded = true := by simp [SequenceBody.isEnded, hstop]
        rw [Sequence.stop_of_ended he]
        exact List.mem_append_right _ List.mem_cons_self
      · exact List.mem_append_right _ (List.mem_cons_of_mem _ hp)

/-- A failure that is astray stays so through further stops. -/
theorem System.HasStray.stopEach (ids : List SequenceId) {s : System} (hs : s.HasStray)
    (r : Surroundings) (h : Host) : (s.stopEach ids r h).1.1.HasStray := by
  induction ids generalizing s h with
  | nil => exact hs
  | cons id ids ih =>
    rw [(s.stopEach_cons id ids r h).1]
    exact ih (hs.stop id r h) _

namespace Ledger

variable {l l' : Ledger} {h h' : Host} {r : Surroundings} {o : Occasion}

/-- A stop that hands up a fault leaves a failure recorded of what has not failed. -/
theorem Orderly.stray_of_stop (ho : l.Orderly h') {id : SequenceId}
    (hu : l.system.stopHandsUp id r h = true) : (l.system.stop id r h).1.1.HasStray := by
  obtain ⟨q, hq, hu⟩ := List.any_eq_true.mp hu
  simp only [Bool.and_eq_true, decide_eq_true_eq] at hu
  obtain ⟨hid, hu⟩ := hu
  rcases l.system.stop_cases id r h with ⟨_, hn⟩ | ⟨pre, p, post, hs, hp, hx⟩
  · exact absurd (hid ▸ List.mem_map_of_mem hq) hn
  · obtain rfl : q = p := by
      rw [hs] at hq
      rcases List.mem_append.mp hq with hq | hq
      · exact absurd (hid.trans hp.symm) (ho.other_names hs (.inl hq))
      · rcases List.mem_cons.mp hq with rfl | hq
        · rfl
        · exact absurd (hid.trans hp.symm) (ho.other_names hs (.inr hq))
    obtain ⟨f, hf, hstop, hlive⟩ := Sequence.stop_of_handsUp hu
    rw [hx]
    refine ⟨_, List.mem_append_right _ List.mem_cons_self, hstop, hlive, ?_⟩
    rw [namesIn_append, List.mem_append, mem_namesIn_failureOf]
    exact .inr ⟨rfl, f, hf⟩

theorem Orderly.stray_of_stops (ids : List SequenceId) (ho : l.Orderly h)
    (hu : l.system.stopsHandUp ids r h = true) : (l.system.stopEach ids r h).1.1.HasStray := by
  induction ids generalizing l h with
  | nil => cases hu
  | cons id ids ih =>
    obtain ⟨hs, _⟩ := l.system.stopEach_cons id ids r h
    rw [hs]
    cases hn : l.system.stopHandsUp id r h with
    | true => exact (ho.stray_of_stop hn).stopEach ids r _
    | false =>
      rw [System.stopsHandUp, hn, Bool.false_or] at hu
      exact ih (ho.stop id hn) hu

theorem state_eq_failed (s : Sequence) : s.state = .failed ↔ s.isFailed = true := by
  unfold Sequence.state
  repeat' split
  all_goals simp_all

/-- The books are right where names are used once and what failed is what the records name. -/
theorem accounted_of_orderly (ho : l'.Orderly h') (kept : l.recorded <+: l'.recorded)
    (gone : o.request.isAdvance = true → ∀ q ∈ l'.system.sequences, q.isFailed = false)
    (dropped : ∀ q ∈ l.system.sequences, q.body.id ∉ idsOf l'.system.sequences →
      (∃ q' ∈ l.moved h o, q'.body.id = q.body.id ∧ q'.isComplete = true) ∨
        q.body.id ∈ namesIn l'.recorded) : l.Accounted h o l' where
  kept := kept
  once := ho.once
  failed q hq hi := (state_eq_failed q).mpr ((ho.failed q hq).mpr hi)
  gone ha q hq hi := by
    have hf := (ho.failed q hq).mpr hi
    rw [gone ha q hq] at hf
    cases hf
  dropped q hq hn := by
    refine (dropped q hq hn).imp_right fun hi => ?_
    rw [ho.once.count, if_pos hi]

/-- Only a tick drops sequences. -/
theorem accounted_of_kept (ho : l'.Orderly h') (kept : l.recorded <+: l'.recorded)
    (ha : o.request.isAdvance = false)
    (hids : ∀ id ∈ idsOf l.system.sequences, id ∈ idsOf l'.system.sequences) :
    l.Accounted h o l' := by
  refine accounted_of_orderly ho kept (fun hadv => ?_) fun q hq hn => ?_
  · rw [ha] at hadv
    cases hadv
  · exact absurd (hids _ (List.mem_map_of_mem hq)) hn

theorem not_accounted_of_stray (hs : l'.system.HasStray) : ¬l.Accounted h o l' := by
  intro ha
  obtain ⟨q, hq, _, hf, hi⟩ := hs
  have hst := ha.failed q hq (by
    rw [recorded, namesIn_append]
    exact List.mem_append_right _ hi)
  rw [(state_eq_failed q).mp hst] at hf
  cases hf

/-- A tick moves the sequences, records what fails, and lets go of what has failed or is
complete. -/
theorem served_of_advance {elapsed : Scalar} (hq : o.request = .advance elapsed)
    (hr : (l.served h o).1.2 ≠ some .outOfFuel) : ∃ fs,
    Moved l.system.sequences (l.moved h o) fs ∧
      (l.served h o).1.1 = { l with system := ⟨(l.moved h o).filter fun q =>
        !q.isFailed && !q.isComplete, l.system.failures ++ fs⟩ } ∧
      h.nextSequence ≤ (l.served h o).2.nextSequence := by
  have hm : l.moved h o =
      (advanceIn elapsed l.system.sequences o.surroundings (o.meanwhile h)).1.1 := by
    simp only [moved, hq]
  rw [served, hq, serve, Tick.run_bind, System.advance, Tick.run_bind] at hr ⊢
  rw [hm]
  have hforward := forward_advanceIn elapsed l.system.sequences o.surroundings (o.meanwhile h)
  rcases advanceIn_halt elapsed l.system.sequences o.surroundings (o.meanwhile h) with hn | hn
  · have hne : (advanceIn elapsed l.system.sequences o.surroundings (o.meanwhile h)).1.2.2 ≠
        some .outOfFuel := by
      rw [hn]
      simp
    refine ⟨_, advanceIn_moved _ _ hne, ?_, Nat.le_trans (o.forward h) ?_⟩
    · dsimp only
      rw [hn]
      rfl
    · dsimp only
      rw [hn]
      exact hforward
  · dsimp only at hr
    rw [hn] at hr
    exact absurd rfl hr

/-- A tick of the list records what fails and renames nothing. -/
theorem Orderly.moved (ho : l.Orderly h) {qs : List Sequence} {fs : List ActivationFailure}
    (hm : Moved l.system.sequences qs fs) (hl : h.nextSequence ≤ h'.nextSequence) :
    Orderly { l with system := ⟨qs, l.system.failures ++ fs⟩ } h' := by
  refine ho.recording hm.ids hl (hm.once ho.names) (fun id hi => ?_) fun q' hq' => ?_
  · obtain ⟨q, hq, rfl, hf⟩ := hm.live id hi
    rw [← ho.failed q hq]
    exact ⟨List.mem_map_of_mem hq, by simp [hf]⟩
  · rw [hm.failed ho.names q' hq']
    refine or_congr_right ⟨?_, fun hi => ?_⟩
    · rintro ⟨q, hq, hid, hf⟩
      exact hid ▸ (ho.failed q hq).mp hf
    · have hlisted : q'.body.id ∈ idsOf l.system.sequences := hm.ids ▸ List.mem_map_of_mem hq'
      obtain ⟨q, hq, hid⟩ := List.mem_map.mp hlisted
      exact ⟨q, hq, hid, (ho.failed q hq).mpr (hid ▸ hi)⟩

/-- After a tick the books are right, and every failure of it is recorded. -/
theorem accounted_of_advance {elapsed : Scalar} (ho : l.Orderly h)
    (hq : o.request = .advance elapsed) (hr : (l.served h o).1.2 ≠ some .outOfFuel) :
    (l.served h o).1.1.Orderly (l.served h o).2 ∧ l.Accounted h o (l.served h o).1.1 := by
  obtain ⟨fs, hm, hx, hl⟩ := served_of_advance hq hr
  have hall := ho.moved hm hl
  have ho' : (l.served h o).1.1.Orderly (l.served h o).2 := by
    rw [hx]
    exact hall.filtered _
  refine ⟨ho', accounted_of_orderly ho' ?_ (fun _ q hin => ?_) fun q hin hn => ?_⟩
  · rw [hx, recorded_with]
    exact List.prefix_append _ _
  · rw [hx] at hin
    have hkept := (List.mem_filter.mp hin).2
    simp only [Bool.and_eq_true, Bool.not_eq_true'] at hkept
    exact hkept.1
  · have hlisted : q.body.id ∈ idsOf (l.moved h o) := hm.ids ▸ List.mem_map_of_mem hin
    obtain ⟨q', hq', hid⟩ := List.mem_map.mp hlisted
    -- What the tick let go of was complete or had failed, and then it is recorded.
    cases hc : q'.isComplete with
    | true => exact .inl ⟨q', hq', hid, hc⟩
    | false =>
      refine .inr ?_
      cases hf : q'.isFailed with
      | true =>
        have hi := (hall.failed q' hq').mp hf
        rw [hx, recorded_with]
        rw [recorded_with] at hi
        exact hid ▸ hi
      | false =>
        refine absurd ?_ hn
        rw [hx, ← hid]
        exact List.mem_map_of_mem (List.mem_filter.mpr ⟨hq', by simp [hc, hf]⟩)

theorem accounted_of_stops (ho : l.Orderly h) (ha : o.request.isAdvance = false)
    (hu : l.handsUp h o = false)
    (hx : (l.served h o).1.1 = { l with system := (l.system.stopEach (o.request.stops l.system)
      o.surroundings (o.meanwhile h)).1.1 })
    (hh : (l.served h o).2 = (l.system.stopEach (o.request.stops l.system) o.surroundings
      (o.meanwhile h)).2) :
    (l.served h o).1.1.Orderly (l.served h o).2 ∧ l.Accounted h o (l.served h o).1.1 := by
  have ho' : (l.served h o).1.1.Orderly (l.served h o).2 := by
    rw [hx, hh]
    exact (ho.later (o.forward h)).stopEach _ hu
  refine ⟨ho', accounted_of_kept ho' ?_ ha fun id hi => ?_⟩
  · rw [hx]
    exact (List.prefix_append_right_inj _).mpr (failures_stopEach _ _ _ _)
  · rw [hx]
    exact (idsOf_stopEach _ l.system _ _).symm ▸ hi

/-- A sequence starts before its first tick, under the next name. -/
theorem accounted_of_start (ho : l.Orderly h) (ha : o.request.isAdvance = false) (r : Routine)
    (binding : Binding)
    (hx : (l.served h o).1.1 = { l with system := (l.system.start r binding o.surroundings
      (o.meanwhile h)).1.1 })
    (hh : (l.served h o).2 = (l.system.start r binding o.surroundings (o.meanwhile h)).2) :
    (l.served h o).1.1.Orderly (l.served h o).2 ∧ l.Accounted h o (l.served h o).1.1 := by
  have ho' : (l.served h o).1.1.Orderly (l.served h o).2 := by
    rw [hx, hh]
    exact (ho.later (o.forward h)).started rfl rfl (Nat.lt_succ_self _)
  refine ⟨ho', accounted_of_kept ho' ?_ ha fun id hi => ?_⟩
  · rw [hx]
    exact List.prefix_rfl
  · rw [hx]
    exact (idsOf_append _ _).symm ▸ List.mem_append_left _ hi

/-- Nothing changes but the host. -/
theorem accounted_of_same (ho : l.Orderly h) (ha : o.request.isAdvance = false)
    (hx : (l.served h o).1.1 = l) (hh : (l.served h o).2.nextSequence =
      (o.meanwhile h).nextSequence) :
    (l.served h o).1.1.Orderly (l.served h o).2 ∧ l.Accounted h o (l.served h o).1.1 := by
  have ho' : (l.served h o).1.1.Orderly (l.served h o).2 := by
    rw [hx]
    exact ho.later (hh ▸ o.forward h)
  rw [hx] at ho' ⊢
  exact ⟨ho', accounted_of_kept ho' List.prefix_rfl ha fun _ hi => hi⟩

/-- Handing the failures over keeps them on the books. -/
theorem accounted_of_take (ho : l.Orderly h) (hq : o.request = .takeFailures) :
    (l.served h o).1.1.Orderly (l.served h o).2 ∧ l.Accounted h o (l.served h o).1.1 := by
  have hx : l.served h o =
      ((⟨⟨l.system.sequences, []⟩, l.handedOver ++ l.system.failures⟩, none), o.meanwhile h) := by
    rw [served, hq]
    rfl
  have hr : (l.served h o).1.1.recorded = l.recorded := by
    rw [hx]
    exact List.append_nil _
  have ho' : (l.served h o).1.1.Orderly (l.served h o).2 := by
    have hl := ho.later (o.forward h)
    refine ⟨?_, ?_, ?_, ?_, ?_⟩
    · rw [hx]; exact hl.names
    · rw [hx]; exact hl.listed
    · rw [hr, hx]; exact hl.known
    · rw [hr]; exact hl.once
    · rw [hr, hx]; exact hl.failed
  refine ⟨ho', accounted_of_kept ho' ?_ (by rw [hq]; rfl) fun id hi => ?_⟩
  · exact hr ▸ List.prefix_rfl
  · rw [hx]
    exact hi

/-- One request keeps the books right, unless a sequence that it stops hands up a fault. -/
theorem accounted_of_not_handsUp (ho : l.Orderly h) (hu : l.handsUp h o = false)
    (hr : (l.served h o).1.2 ≠ some .outOfFuel) :
    (l.served h o).1.1.Orderly (l.served h o).2 ∧ l.Accounted h o (l.served h o).1.1 := by
  cases hq : o.request with
  | trigger routine scope binding =>
    have ha : o.request.isAdvance = false := by rw [hq]; rfl
    cases hd : o.surroundings.directory.routine? routine scope with
    | none =>
      have hx : (l.served h o).1.1 = l ∧
          (l.served h o).2.nextSequence = (o.meanwhile h).nextSequence := by
        simp only [served, hq, serve, System.trigger, Tick.run_bind, Tick.run_read, hd]
        exact ⟨rfl, rfl⟩
      exact accounted_of_same ho ha hx.1 hx.2
    | some found =>
      have hx : (l.served h o).1.1 = { l with system := (l.system.start found binding
            o.surroundings (o.meanwhile h)).1.1 } ∧
          (l.served h o).2 = (l.system.start found binding o.surroundings (o.meanwhile h)).2 := by
        simp only [served, hq, serve, System.trigger, Tick.run_bind, Tick.run_read, hd]
        exact ⟨rfl, rfl⟩
      exact accounted_of_start ho ha found binding hx.1 hx.2
  | start routine binding =>
    exact accounted_of_start ho (by rw [hq]; rfl) routine binding (by rw [served, hq]; rfl)
      (by rw [served, hq]; rfl)
  | stop id =>
    exact accounted_of_stops ho (by rw [hq]; rfl) hu (by rw [served, hq]; rfl)
      (by rw [served, hq]; rfl)
  | stopRoutine routine =>
    exact accounted_of_stops ho (by rw [hq]; rfl) hu (by rw [served, hq]; rfl)
      (by rw [served, hq]; rfl)
  | advance elapsed => exact accounted_of_advance ho hq hr
  | takeFailures => exact accounted_of_take ho hq

/-- A stop that hands up a fault leaves the books wrong. -/
theorem not_accounted_of_handsUp (ho : l.Orderly h) (hu : l.handsUp h o = true) :
    ¬l.Accounted h o (l.served h o).1.1 := by
  refine not_accounted_of_stray ?_
  have hs := (ho.later (o.forward h)).stray_of_stops _ hu
  cases hq : o.request with
  | stop id =>
    rw [hq] at hs
    rw [served, hq]
    exact hs
  | stopRoutine routine =>
    rw [hq] at hs
    rw [served, hq]
    exact hs
  | _ =>
    rw [handsUp, hq] at hu
    cases hu

theorem accountedRun_iff (ho : l.Orderly h) (os : List Occasion) (hr : l.Returns h os) :
    l.AccountedRun h os ↔ l.handsUpIn h os = false := by
  induction os generalizing l h with
  | nil => exact iff_of_true trivial rfl
  | cons o os ih =>
    rw [AccountedRun, handsUpIn, Bool.or_eq_false_iff]
    cases hu : l.handsUp h o with
    | true =>
      exact iff_of_false (fun ha => not_accounted_of_handsUp ho hu ha.1) fun hn => nomatch hn.1
    | false =>
      obtain ⟨ho', ha⟩ := accounted_of_not_handsUp ho hu hr.1
      exact and_congr (iff_of_true ha rfl) (ih ho' hr.2)

end Ledger

/-- Over any run of requests the failures that a new system records are accounted for, exactly when
no stop comes back with the fault of a descendant of what it stops. -/
theorem failures_accounted_iff (h : Host) (os : List Occasion) (hr : Ledger.Returns {} h os) :
    Ledger.AccountedRun {} h os ↔ Ledger.handsUpIn {} h os = false :=
  Ledger.accountedRun_iff (Ledger.orderly_empty h) os hr

def Occasion.alone (surroundings : Surroundings) (request : Request) : Occasion :=
  ⟨request, surroundings, id, fun _ => Nat.le_refl _⟩

def Ledger.after : Ledger → Host → List Occasion → Ledger
  | l, _, [] => l
  | l, h, o :: os => (l.served h o).1.1.after (l.served h o).2 os

/-- Over a whole run no sequence is recorded twice. -/
theorem Ledger.AccountedRun.once {l : Ledger} {h : Host} {os : List Occasion}
    (ha : l.AccountedRun h os) (hn : (namesIn l.recorded).Nodup) :
    (namesIn (l.after h os).recorded).Nodup := by
  induction os generalizing l h with
  | nil => exact hn
  | cons o os ih => exact ih ha.2 ha.1.once

/-- One activation fails in a tick; another one is stopped and completes. -/
def plainRun : List Occasion :=
  let routine (effects : List Effect) : Routine :=
    ⟨ResourceId.none, ResourcePath.root, effects, [], [⟨0, 0, .screenFlash Color.white⟩], false⟩
  [.start (routine [⟨100, 0, .wait⟩]) .weather, .start (routine [⟨0, 0, .endBlock⟩]) .weather,
    .advance 1, .stop ⟨1⟩, .takeFailures, .advance 1].map (Occasion.alone .bare)

theorem plainRun_accounted :
    Ledger.Returns {} .fresh plainRun ∧ Ledger.AccountedRun {} .fresh plainRun ∧
      namesIn (Ledger.after {} .fresh plainRun).recorded = [⟨2⟩] := by
  have hr : Ledger.Returns {} .fresh plainRun :=
    ⟨by decide +kernel, by decide +kernel, by decide +kernel, by decide +kernel,
      by decide +kernel, by decide +kernel, trivial⟩
  exact ⟨hr, (failures_accounted_iff .fresh plainRun hr).mpr (by decide +kernel),
    by decide +kernel⟩

/-- An activation that waits for a child is stopped, and the stop handlers of the child fail. -/
def strayRun : List Occasion :=
  let child : ResourceId := ⟨1, 0, 0, 0⟩
  let root := ResourcePath.root
  let directory := ({} : Directory).insert root child
    (.routine ⟨child, root, [⟨100, 0, .wait⟩], [], [⟨0, 0, .endBlock⟩], false⟩)
  [.start ⟨ResourceId.none, root, [⟨0, 0, .spawnRoutine child true⟩], [⟨0, 0, .endBlock⟩], [],
      false⟩ .weather,
    .advance 1, .stop ⟨1⟩, .advance 1].map (Occasion.alone { Surroundings.bare with directory })

/-- The stop is recorded for the activation, which has not failed; what fails in the next tick is
recorded for it again. -/
theorem strayRun_recorded_twice :
    ¬Ledger.AccountedRun {} .fresh strayRun ∧
      namesIn (Ledger.after {} .fresh (strayRun.take 3)).recorded = [⟨1⟩] ∧
      (Ledger.after {} .fresh (strayRun.take 3)).system.sequences.map (·.state) = [.finishing] ∧
      namesIn (Ledger.after {} .fresh strayRun).recorded = [⟨1⟩, ⟨1⟩] := by
  have htwice : namesIn (Ledger.after {} .fresh strayRun).recorded = [⟨1⟩, ⟨1⟩] := by
    decide +kernel
  refine ⟨fun ha => ?_, by decide +kernel, by decide +kernel, htwice⟩
  have honce := ha.once List.nodup_nil
  rw [htwice] at honce
  simp at honce

end EffectMachine
