import EffectMachine.Proofs.Sequence.Containment
import EffectMachine.Proofs.Sequence.Names
import EffectMachine.Sequence.System

namespace EffectMachine

namespace Sequence

variable {s : Sequence} {r : Surroundings} {h : Host}

/-- Do the stop handlers of a descendant hand up their fault when the sequence is stopped? -/
def stopHandsUp (s : Sequence) (r : Surroundings) (h : Host) : Bool :=
  !s.body.isEnded &&
    match (stopAllWith (runStopHandlers r.fuel) s.children r h).1.2 with
    | some (.fault _) => true
    | _ => false

theorem stopHandsUp_iff : s.stopHandsUp r h = true ↔ s.body.isEnded = false ∧
    ∃ f, (stopAllWith (runStopHandlers r.fuel) s.children r h).1.2 = some (.fault f) := by
  rw [stopHandsUp, Bool.and_eq_true, Bool.not_eq_true']
  refine and_congr_right fun _ => ?_
  split
  next hf => exact iff_of_true rfl ⟨_, hf⟩
  next hn => exact iff_of_false Bool.false_ne_true fun ⟨f, hf⟩ => hn f hf

theorem isFailed_of_live (hs : s.body.isEnded = false) : s.isFailed = false :=
  isFailed_eq_false.mpr (failure_of_live hs)

theorem stop_id (s : Sequence) (r : Surroundings) (h : Host) :
    (s.stop r h).1.1.body.id = s.body.id :=
  (s.stop_later r h).body.id

theorem stop_eq (s : Sequence) (r : Surroundings) (h : Host) :
    s.stop r h = s.stopWith (runStopHandlers r.fuel) r h := rfl

theorem stop_of_ended (hs : s.body.isEnded = true) : s.stop r h = ((s, none), h) := by
  rw [stop_eq, stopWith_of_ended _ hs, Tick.run_pure]

theorem stop_of_cut (hs : s.body.isEnded = false) {why : Halt}
    (hc : (stopAllWith (runStopHandlers r.fuel) s.children r h).1.2 = some why) :
    (s.stop r h).1 = (mk s.body.halted (stopAllWith (runStopHandlers r.fuel) s.children r h).1.1,
      some why) := by
  simp only [stop_eq, stopWith_of_live _ hs, Tick.run_bind, hc, Option.isSome_some, if_true,
    Tick.run_pure]

theorem stop_of_children (hs : s.body.isEnded = false)
    (hc : (stopAllWith (runStopHandlers r.fuel) s.children r h).1.2 = none) :
    s.stop r h = runStopHandlers r.fuel
      (mk s.body.halted (stopAllWith (runStopHandlers r.fuel) s.children r h).1.1) r
      (stopAllWith (runStopHandlers r.fuel) s.children r h).2 := by
  simp only [stop_eq, stopWith_of_live _ hs, Tick.run_bind, hc, Option.isSome_none,
    Bool.false_eq_true, if_false]

theorem failure_halted (hs : s.body.isEnded = false) (cs : List Sequence) :
    (mk s.body.halted cs).body.failure = none :=
  show s.body.failure = none from failure_of_live hs

/-- A fault that is handed up leaves the sequence stopped, but not failed. -/
theorem stop_of_handsUp (hu : s.stopHandsUp r h = true) : ∃ f,
    (s.stop r h).1.2 = some (.fault f) ∧ (s.stop r h).1.1.body.stopped = true ∧
      (s.stop r h).1.1.isFailed = false := by
  obtain ⟨hs, f, hc⟩ := stopHandsUp_iff.mp hu
  rw [stop_of_cut hs hc]
  exact ⟨f, rfl, rfl, isFailed_eq_false.mpr (failure_halted hs _)⟩

/-- Any other fault of a stop is the sequence's own, and leaves it failed. -/
theorem stop_outcome (hs : s.body.isEnded = false) (hu : s.stopHandsUp r h = false) (f : Fault) :
    (s.stop r h).1.1.body.failure = some f ↔ (s.stop r h).1.2 = some (.fault f) := by
  cases hc : (stopAllWith (runStopHandlers r.fuel) s.children r h).1.2 with
  | some why =>
    have hw : why ≠ .fault f := by
      intro hw
      rw [stopHandsUp_iff.mpr ⟨hs, f, by rw [hc, hw]⟩] at hu
      cases hu
    rw [stop_of_cut hs hc, failure_halted hs]
    simp [hw]
  | none =>
    rw [stop_of_children hs hc]
    cases hn : r.fuel with
    | zero =>
      change (mk s.body.halted _).body.failure = some f ↔ some Halt.outOfFuel = some (.fault f)
      rw [failure_halted hs]
      simp
    | succ n => exact (runStopHandlers_outcome (isFailed_eq_false.mpr (failure_halted hs _)) n f).1

end Sequence

namespace System

def idsOf (qs : List Sequence) : List SequenceId := qs.map (·.body.id)

def namesIn (fs : List ActivationFailure) : List SequenceId := fs.map (·.sequence)

@[simp] theorem idsOf_append (qs ps : List Sequence) : idsOf (qs ++ ps) = idsOf qs ++ idsOf ps :=
  List.map_append

@[simp] theorem idsOf_cons (q : Sequence) (qs : List Sequence) :
    idsOf (q :: qs) = q.body.id :: idsOf qs := rfl

@[simp] theorem namesIn_append (fs gs : List ActivationFailure) :
    namesIn (fs ++ gs) = namesIn fs ++ namesIn gs :=
  List.map_append

theorem mem_namesIn_failureOf {q : Sequence} {halt : Option Halt} {id : SequenceId} :
    id ∈ namesIn (failureOf q halt) ↔ id = q.body.id ∧ ∃ f, halt = some (.fault f) := by
  unfold failureOf
  split
  · simp [namesIn]
  next hn => simpa [namesIn] using fun _ f => hn f

theorem nodup_failureOf (q : Sequence) (halt : Option Halt) :
    (namesIn (failureOf q halt)).Nodup := by
  unfold failureOf
  split <;> simp [namesIn]

section Stopping

variable {s : System} {r : Surroundings} {h : Host}

/-- A stop finds nothing of the name, or stops the first that has it. -/
theorem stopIn_cases (id : SequenceId) (qs : List Sequence) (r : Surroundings) (h : Host) :
    (stopIn id qs r h = ((qs, [], false), h) ∧ id ∉ idsOf qs) ∨
      ∃ pre q post, qs = pre ++ q :: post ∧ q.body.id = id ∧
        stopIn id qs r h = ((pre ++ (q.stop r h).1.1 :: post,
          failureOf (q.stop r h).1.1 (q.stop r h).1.2, true), (q.stop r h).2) := by
  induction qs with
  | nil => exact .inl ⟨rfl, List.not_mem_nil⟩
  | cons q qs ih =>
    unfold stopIn
    split
    next hq => exact .inr ⟨[], q, qs, rfl, hq, rfl⟩
    next hq =>
      rw [Tick.run_bind]
      rcases ih with ⟨hx, hn⟩ | ⟨pre, p, post, rfl, hp, hx⟩
      · rw [hx]
        refine .inl ⟨rfl, ?_⟩
        rw [idsOf_cons, List.mem_cons]
        exact fun hm => hm.elim (fun he => hq he.symm) hn
      · rw [hx]
        exact .inr ⟨q :: pre, p, post, rfl, hp, rfl⟩

/-- What a stop does: nothing, or it stops one sequence and records the fault that comes back. -/
theorem stop_cases (s : System) (id : SequenceId) (r : Surroundings) (h : Host) :
    (s.stop id r h = ((s, false), h) ∧ id ∉ idsOf s.sequences) ∨
      ∃ pre q post, s.sequences = pre ++ q :: post ∧ q.body.id = id ∧
        s.stop id r h = ((⟨pre ++ (q.stop r h).1.1 :: post,
          s.failures ++ failureOf (q.stop r h).1.1 (q.stop r h).1.2⟩, true), (q.stop r h).2) := by
  rw [stop, Tick.run_bind]
  rcases stopIn_cases id s.sequences r h with ⟨hx, hn⟩ | ⟨pre, q, post, hs, hq, hx⟩
  · rw [hx]
    refine .inl ⟨?_, hn⟩
    simp
  · rw [hx]
    exact .inr ⟨pre, q, post, hs, hq, rfl⟩

theorem idsOf_stop (s : System) (id : SequenceId) (r : Surroundings) (h : Host) :
    idsOf (s.stop id r h).1.1.sequences = idsOf s.sequences := by
  rcases s.stop_cases id r h with ⟨hx, _⟩ | ⟨pre, q, post, hs, _, hx⟩
  · rw [hx]
  · rw [hx, hs]
    simp [q.stop_id r h]

theorem failures_stop (s : System) (id : SequenceId) (r : Surroundings) (h : Host) :
    s.failures <+: (s.stop id r h).1.1.failures := by
  rcases s.stop_cases id r h with ⟨hx, _⟩ | ⟨pre, q, post, _, _, hx⟩
  · have he : (s.stop id r h).1.1.failures = s.failures := by rw [hx]
    exact he ▸ List.prefix_rfl
  · rw [hx]
    exact List.prefix_append _ _

/-- Does the sequence of a name hand up a fault of its descendants when it is stopped? -/
def stopHandsUp (s : System) (id : SequenceId) (r : Surroundings) (h : Host) : Bool :=
  s.sequences.any fun q => q.body.id = id && q.stopHandsUp r h

def stopsHandUp : System → List SequenceId → Surroundings → Host → Bool
  | _, [], _, _ => false
  | s, id :: ids, r, h =>
    s.stopHandsUp id r h || (s.stop id r h).1.1.stopsHandUp ids r (s.stop id r h).2

theorem stopEach_cons (s : System) (id : SequenceId) (ids : List SequenceId) (r : Surroundings)
    (h : Host) :
    (s.stopEach (id :: ids) r h).1.1 =
        ((s.stop id r h).1.1.stopEach ids r (s.stop id r h).2).1.1 ∧
      (s.stopEach (id :: ids) r h).2 =
        ((s.stop id r h).1.1.stopEach ids r (s.stop id r h).2).2 :=
  ⟨rfl, rfl⟩

theorem idsOf_stopEach (ids : List SequenceId) (s : System) (r : Surroundings) (h : Host) :
    idsOf (s.stopEach ids r h).1.1.sequences = idsOf s.sequences := by
  induction ids generalizing s h with
  | nil => rfl
  | cons id ids ih => rw [(s.stopEach_cons id ids r h).1, ih, idsOf_stop]

theorem failures_stopEach (ids : List SequenceId) (s : System) (r : Surroundings) (h : Host) :
    s.failures <+: (s.stopEach ids r h).1.1.failures := by
  induction ids generalizing s h with
  | nil => exact List.prefix_rfl
  | cons id ids ih =>
    rw [(s.stopEach_cons id ids r h).1]
    exact (s.failures_stop id r h).trans (ih _ _)

end Stopping

section Moving

variable {elapsed : Scalar} {r : Surroundings} {h : Host}

theorem forward_advanceIn (elapsed : Scalar) (qs : List Sequence) :
    (advanceIn elapsed qs).Forward := by
  induction qs with
  | nil => exact .pure _
  | cons q qs ih =>
    refine .ite (.bind ih fun _ => .pure _) (.bind (q.forward_advance elapsed) fun x => ?_)
    exact .ite (.pure _) (.bind ih fun _ => .pure _)

/-- One tick of a list: nothing is renamed, and what fails is what a new record names. -/
structure Moved (qs qs' : List Sequence) (fs : List ActivationFailure) : Prop where
  ids : idsOf qs' = idsOf qs
  once : (idsOf qs).Nodup → (namesIn fs).Nodup
  live : ∀ id ∈ namesIn fs, ∃ q ∈ qs, q.body.id = id ∧ q.isFailed = false
  failed : (idsOf qs).Nodup → ∀ q' ∈ qs', (q'.isFailed = true ↔
    q'.body.id ∈ namesIn fs ∨ ∃ q ∈ qs, q.body.id = q'.body.id ∧ q.isFailed = true)

theorem Moved.nil : Moved [] [] [] :=
  ⟨rfl, fun h => h, by simp [namesIn], by simp⟩

theorem Moved.subset {qs qs' : List Sequence} {fs : List ActivationFailure} (hm : Moved qs qs' fs)
    {id : SequenceId} (hi : id ∈ namesIn fs) : id ∈ idsOf qs := by
  obtain ⟨q, hq, rfl, _⟩ := hm.live id hi
  exact List.mem_map_of_mem hq

/-- One more sequence in front, with what it records. -/
theorem Moved.cons {q q' : Sequence} {qs qs' : List Sequence} {fs gs : List ActivationFailure}
    (hm : Moved qs qs' fs) (hid : q'.body.id = q.body.id) (hgs : (namesIn gs).Nodup)
    (hg : ∀ id ∈ namesIn gs, id = q.body.id ∧ q.isFailed = false)
    (hq : q'.isFailed = true ↔ q.body.id ∈ namesIn gs ∨ q.isFailed = true) :
    Moved (q :: qs) (q' :: qs') (gs ++ fs) where
  ids := by rw [idsOf_cons, idsOf_cons, hid, hm.ids]
  once hn := by
    rw [idsOf_cons, List.nodup_cons] at hn
    rw [namesIn_append, List.nodup_append]
    refine ⟨hgs, hm.once hn.2, fun id hi id' hi' he => hn.1 ?_⟩
    rw [← (hg id hi).1, he]
    exact hm.subset hi'
  live id hi := by
    rw [namesIn_append, List.mem_append] at hi
    rcases hi with hi | hi
    · exact ⟨q, List.mem_cons_self, (hg id hi).1.symm, (hg id hi).2⟩
    · obtain ⟨p, hp, hpi⟩ := hm.live id hi
      exact ⟨p, List.mem_cons_of_mem _ hp, hpi⟩
  failed hn p' hp' := by
    rw [idsOf_cons, List.nodup_cons] at hn
    simp only [namesIn_append, List.mem_append, List.mem_cons, or_and_right, exists_or,
      exists_eq_left]
    rcases List.mem_cons.mp hp' with rfl | hp'
    · -- The others have other names.
      have hfs : q.body.id ∉ namesIn fs := fun hi => hn.1 (hm.subset hi)
      have hqs : ¬∃ p ∈ qs, p.body.id = q.body.id ∧ p.isFailed = true := by
        rintro ⟨p, hp, hi, _⟩
        exact hn.1 (hi ▸ List.mem_map_of_mem hp)
      rw [hq, hid]
      simp [hfs, hqs]
    · have hne : p'.body.id ≠ q.body.id := by
        intro he
        refine hn.1 (he ▸ ?_)
        rw [← hm.ids]
        exact List.mem_map_of_mem hp'
      have hgp : p'.body.id ∉ namesIn gs := fun hi => hne (hg _ hi).1
      rw [hm.failed hn.2 p' hp']
      simp [hgp, Ne.symm hne]

theorem advanceIn_of_failed {q : Sequence} (hq : q.isFailed = true) (qs : List Sequence) :
    advanceIn elapsed (q :: qs) r h =
      let y := advanceIn elapsed qs r h
      ((q :: y.1.1, y.1.2.1, y.1.2.2), y.2) := by
  rw [advanceIn, if_pos hq]
  rfl

theorem advanceIn_of_live {q : Sequence} (hq : q.isFailed = false) (qs : List Sequence) :
    advanceIn elapsed (q :: qs) r h =
      let x := q.ticked ⟨elapsed, r, h⟩
      if x.1.2 = some .outOfFuel then ((x.1.1 :: qs, [], x.1.2), x.2)
      else
        let y := advanceIn elapsed qs r x.2
        ((x.1.1 :: y.1.1, failureOf x.1.1 x.1.2 ++ y.1.2.1, y.1.2.2), y.2) := by
  rw [advanceIn, hq, if_neg Bool.false_ne_true, Tick.run_bind]
  dsimp only [Sequence.ticked]
  split <;> rfl

/-- A tick of the list moves each in turn, and records just what fails. -/
theorem advanceIn_moved (qs : List Sequence) (h : Host)
    (hr : (advanceIn elapsed qs r h).1.2.2 ≠ some .outOfFuel) :
    Moved qs (advanceIn elapsed qs r h).1.1 (advanceIn elapsed qs r h).1.2.1 := by
  induction qs generalizing h with
  | nil => exact .nil
  | cons q qs ih =>
    cases hq : q.isFailed with
    | true =>
      rw [advanceIn_of_failed hq] at hr ⊢
      have hm : Moved (q :: qs) (q :: _) ([] ++ _) :=
        (ih h hr).cons rfl List.nodup_nil (fun id hi => nomatch hi) (by simp [namesIn, hq])
      exact hm
    | false =>
      rw [advanceIn_of_live hq] at hr ⊢
      dsimp only at hr ⊢
      split at hr
      next ho => exact absurd ho hr
      next ho =>
        rw [if_neg ho]
        have hid := q.ticked_id ⟨elapsed, r, h⟩
        refine (ih _ hr).cons hid (nodup_failureOf _ _) (fun id hi => ?_) ?_
        · exact ⟨(mem_namesIn_failureOf.mp hi).1.trans hid, hq⟩
        · rw [mem_namesIn_failureOf, hid, Sequence.isFailed_eq_true]
          simp [(Sequence.ticked_outcome hq ho).2, hq]

theorem advanceIn_halt (elapsed : Scalar) (qs : List Sequence) :
    (advanceIn elapsed qs).Always fun x => x.2.2 = none ∨ x.2.2 = some .outOfFuel := by
  induction qs with
  | nil => exact .pure (.inl rfl)
  | cons q qs ih =>
    unfold advanceIn
    split
    · exact .bind ih fun _ hx => .pure hx
    · refine .after _ fun x => ?_
      dsimp only
      split
      next ho => exact .pure (.inr ho)
      next => exact .bind ih fun _ hy => .pure hy

end Moving

end System
end EffectMachine
