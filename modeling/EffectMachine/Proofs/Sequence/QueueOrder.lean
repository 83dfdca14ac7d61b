import EffectMachine.Proofs.Sequence.BlockDrains
import EffectMachine.Proofs.Sequence.Sections

namespace EffectMachine

/-- Nothing in the list puts other code in its place. -/
def IsFixed (es : List Effect) : Prop := ∀ e ∈ es, ∀ choices, e.action ≠ .randomRoutine choices

theorem isFixed_append {es fs : List Effect} : IsFixed (es ++ fs) ↔ IsFixed es ∧ IsFixed fs :=
  List.forall_mem_append

theorem fresh_work (id : SequenceId) (r : Routine) (binding : Binding) (rate : Scalar)
    (depth : UInt8) : (SequenceBody.fresh id r binding rate depth).work = r.effects := by
  simp [SequenceBody.work, SequenceBody.fresh, SequenceBody.pendingOf, Function.comp_def]

/-- Do all lists that a sequence takes effects from stay as they are? -/
structure SequenceBody.IsFixed (s : SequenceBody) : Prop where
  work : EffectMachine.IsFixed s.work
  effects : EffectMachine.IsFixed s.routine.effects
  onComplete : EffectMachine.IsFixed s.routine.onComplete

namespace Sequence

@[simp] theorem takenOf_append (ts us : List Turn) :
    takenOf (ts ++ us) = takenOf ts ++ takenOf us :=
  List.filterMap_append

@[simp] theorem queuedOf_append (ts us : List Turn) :
    queuedOf (ts ++ us) = queuedOf ts ++ queuedOf us :=
  List.flatMap_append

theorem DrainEvent.taken_of_foundEmpty {event : DrainEvent} (h : event.foundEmpty = true) :
    event.taken? = none := by
  cases event <;> first | rfl | cases h

section Turns

variable {t : Turn} {s : Sequence} {ts : List Turn}

/-- A turn takes at most the first of the effects that wait, and puts all that it adds behind
them. -/
theorem Turn.IsStep.conserves (h : t.IsStep) (hw : IsFixed t.before.body.work) :
    t.before.body.work ++ t.queued = t.event.taken?.toList ++ t.after.body.work := by
  cases hf : t.event.foundEmpty with
  | true =>
    obtain ⟨hq, hr⟩ := h.requeues hf
    have he : t.before.body.work = [] := by rw [SequenceBody.work, hq]; rfl
    rw [DrainEvent.taken_of_foundEmpty hf, hr.work_eq, he]
    rfl
  | false =>
    have hn : t.queued = [] := SequenceBody.takenUp_of_marks (h.marks_eq hf)
    rw [hn, List.append_nil]
    cases h.progress with
    | idle _ taken work => rw [taken, work]; rfl
    | foundEmpty found => rw [found] at hf; cases hf
    | skipped e rest event _ work left => rw [event, work, left]; rfl
    | ran e rest _ _ _ _ _ _ _ taken work left => rw [taken, work, left]; rfl
    | spliced e rest choices action _ work =>
      refine absurd action (hw e ?_ choices)
      rw [work]
      exact List.mem_cons_self

/-- A turn puts nothing into the lists that has other code put in its place. -/
theorem Turn.IsStep.isFixed (h : t.IsStep) (hb : t.before.body.IsFixed) :
    t.after.body.IsFixed := by
  have hq : IsFixed t.queued := by
    rw [Turn.queued, SequenceBody.takenUp, isFixed_append]
    constructor
    · split
      · exact hb.onComplete
      · simp [IsFixed]
    · split
      · exact hb.effects
      · simp [IsFixed]
  have hw : IsFixed (t.event.taken?.toList ++ t.after.body.work) := by
    rw [← h.conserves hb.work]
    exact isFixed_append.mpr ⟨hb.work, hq⟩
  refine ⟨(isFixed_append.mp hw).2, ?_, ?_⟩
  · rw [h.routine_eq]
    exact hb.effects
  · rw [h.routine_eq]
    exact hb.onComplete

/-- Over linked turns, what waited and what was queued is what was taken and what waits still. -/
theorem Linked.conserves (h : s.Linked ts) (hb : s.body.IsFixed) :
    s.body.work ++ queuedOf ts = takenOf ts ++ (s.lastOf ts).body.work ∧
      (s.lastOf ts).body.IsFixed := by
  induction ts generalizing s with
  | nil => exact ⟨List.append_nil _, hb⟩
  | cons t ts ih =>
    obtain ⟨rfl, hs, hl⟩ := h
    obtain ⟨hc, hb'⟩ := ih hl (hs.isFixed hb)
    have ht : takenOf (t :: ts) = t.event.taken?.toList ++ takenOf ts := by
      cases hv : t.event.taken? <;> simp [takenOf, hv]
    have hq : queuedOf (t :: ts) = t.queued ++ queuedOf ts := List.flatMap_cons
    refine ⟨?_, hb'⟩
    calc t.before.body.work ++ queuedOf (t :: ts)
        = (t.before.body.work ++ t.queued) ++ queuedOf ts := by rw [hq, List.append_assoc]
      _ = t.event.taken?.toList ++ (t.after.body.work ++ queuedOf ts) := by
          rw [hs.conserves hb.work, List.append_assoc]
      _ = takenOf (t :: ts) ++ (t.after.lastOf ts).body.work := by
          rw [hc, ht, List.append_assoc]

end Turns

theorem after_of_failed {s : Sequence} (hf : s.isFailed = true) (ms : List Moment) :
    s.after ms = s := by
  induction ms with
  | nil => rfl
  | cons m ms ih =>
    obtain ⟨f, hs⟩ := isFailed_eq_true.mp hf
    rw [after, ticked_of_failed hs, ih]

theorem ready_isFixed {s : Sequence} (hb : s.body.IsFixed) (m : Moment) :
    (s.ready m).body.IsFixed :=
  ⟨hb.work, hb.effects, hb.onComplete⟩

/-- What waits after a tick is what its last turn left, unless the sequence failed. -/
theorem ticked_work {s : Sequence} {m : Moment} (hf : (s.ticked m).1.1.isFailed = false) :
    (s.ticked m).1.1.body.work = ((s.ready m).lastOf (s.tickTurns m)).body.work := by
  rcases s.ticked_sameWork m with hs | ⟨hw, _⟩
  · rw [hs] at hf
    cases hf
  · have hl := lastOf_sameWork (s.ready_sameWork m) (s.tickTurns m)
    rw [SequenceBody.work, hw.queue, ← hl.queue]
    rfl

/-- A tick that does not fail leaves lists in which nothing has other code put in its place. -/
theorem ticked_isFixed {s : Sequence} {m : Moment} (hb : s.body.IsFixed)
    (hf : (s.ticked m).1.1.isFailed = false) : (s.ticked m).1.1.body.IsFixed := by
  have hs : s.isFailed = false := by
    cases hs : s.isFailed with
    | false => rfl
    | true =>
      obtain ⟨f, hs'⟩ := isFailed_eq_true.mp hs
      rw [ticked_of_failed hs', hs] at hf
      cases hf
  obtain ⟨_, hl⟩ := (s.linked_tickTurns m).conserves (ready_isFixed hb m)
  have hm : (s.ticked m).1.1.body.routine = ((s.ready m).lastOf (s.tickTurns m)).body.routine :=
    congrArg Prod.fst (ticked_marks hs m)
  refine ⟨?_, ?_, ?_⟩
  · rw [ticked_work hf]
    exact hl.work
  · rw [hm]
    exact hl.effects
  · rw [hm]
    exact hl.onComplete

/-- Over a run of ticks, too, what was taken and what still waits is what was put in. A fault drops
what waits. -/
theorem turns_conserve {s : Sequence} (hb : s.body.IsFixed) (ms : List Moment) :
    ∃ rest, s.body.work ++ queuedOf (s.turns ms) = takenOf (s.turns ms) ++ rest ∧
      ((s.after ms).isFailed = false → rest = (s.after ms).body.work) := by
  induction ms generalizing s with
  | nil => exact ⟨s.body.work, List.append_nil _, fun _ => rfl⟩
  | cons m ms ih =>
    obtain ⟨hc, _⟩ := (s.linked_tickTurns m).conserves (ready_isFixed hb m)
    have hc : s.body.work ++ queuedOf (s.tickTurns m) =
        takenOf (s.tickTurns m) ++ ((s.ready m).lastOf (s.tickTurns m)).body.work := hc
    rw [turns, takenOf_append, queuedOf_append, after]
    cases hf : (s.ticked m).1.1.isFailed with
    | true =>
      rw [turns_of_failed hf]
      refine ⟨_, by simpa [takenOf, queuedOf] using hc, fun hn => ?_⟩
      rw [after_of_failed hf, hf] at hn
      cases hn
    | false =>
      obtain ⟨rest, hr, hl⟩ := ih (ticked_isFixed hb hf)
      refine ⟨rest, ?_, hl⟩
      rw [← List.append_assoc, hc, ← ticked_work hf, List.append_assoc, hr, List.append_assoc]

theorem fresh_isFixed {r : Routine} (hr : IsFixed (r.effects ++ r.onComplete)) (id : SequenceId)
    (binding : Binding) (rate : Scalar) (depth : UInt8) :
    (SequenceBody.fresh id r binding rate depth).IsFixed := by
  obtain ⟨he, hc⟩ := isFixed_append.mp hr
  refine ⟨?_, he, hc⟩
  rw [fresh_work]
  exact he

/-- Over any run of ticks a routine without random choices is taken as it stands: its effects, then
its completion handlers, then its effects over and over. Nothing is lost or doubled on the way,
since what still waits is the rest of it. Only a sequence that loops starts over, after its
completion handlers and at most once in a tick. -/
theorem taken_in_order (id : SequenceId) {r : Routine}
    (hr : IsFixed (r.effects ++ r.onComplete)) (binding : Binding) (rate : Scalar) (depth : UInt8)
    (ms : List Moment) :
    let s := mk (SequenceBody.fresh id r binding rate depth) []
    let ts := s.turns ms
    takenOf ts <+: r.effects ++ r.onComplete ++ copies (refillsOf ts) r.effects ∧
      ((s.after ms).isFailed = false →
        takenOf ts ++ (s.after ms).body.work =
          r.effects ++ copies (completionsOf ts) r.onComplete ++
            copies (refillsOf ts) r.effects) ∧
      completionsOf ts ≤ 1 ∧ (0 < refillsOf ts → completionsOf ts = 1) ∧
      (∀ t ∈ ts, t.refills = true → t.before.body.looping = true) ∧
      ∀ m, refillsOf ((s.after ms).tickTurns m) ≤ 1 := by
  intro s ts
  have hw : s.body.work = r.effects := fresh_work id r binding rate depth
  obtain ⟨rest, hrest, hlast⟩ := turns_conserve (s := s) (fresh_isFixed hr id binding rate depth) ms
  have ht : TakesUp r false ts := s.takesUp_turns ms
  have hq : r.effects ++ (copies (completionsOf ts) r.onComplete ++
      copies (refillsOf ts) r.effects) = takenOf ts ++ rest := by
    rw [← hrest, hw, ← ht.queued]
  have honce : completionsOf ts ≤ 1 := by simpa using ht.once
  have hbefore : completionsOf ts = 0 → refillsOf ts = 0 := ht.before rfl
  refine ⟨?_, fun hf => ?_, honce, fun hpos => ?_, fun t hm hv => ?_, fun m => ?_⟩
  · have hp : takenOf ts <+: r.effects ++
        (copies (completionsOf ts) r.onComplete ++ copies (refillsOf ts) r.effects) :=
      ⟨rest, hq.symm⟩
    rcases Nat.le_one_iff_eq_zero_or_eq_one.mp honce with hz | hone
    · rw [hz, hbefore hz] at hp
      rw [List.append_assoc]
      exact hp.trans (by simp [copies])
    · rw [hone] at hp
      simpa [copies] using hp
  · rw [← hlast hf, ← hq, List.append_assoc]
  · rcases Nat.le_one_iff_eq_zero_or_eq_one.mp honce with hz | hone
    · rw [hbefore hz] at hpos
      cases hpos
    · exact hone
  · exact ((isStep_of_turns hm).of_refills hv).1
  · exact refillsOf_tickTurns_le _ m

def pulse : Routine :=
  ⟨ResourceId.none, ResourcePath.root, [⟨0, 0, .loopRoutine⟩, ⟨1, 0, .wait⟩],
    [⟨0, 0, .screenFlash Color.white⟩], [], false⟩

theorem pulse_taken_in_order :
    let ts := (mk (SequenceBody.fresh ⟨0⟩ pulse .weather 1 0) []).turns [.bare, .bare]
    IsFixed (pulse.effects ++ pulse.onComplete) ∧ refillsOf ts = 2 ∧
      takenOf ts <+: pulse.effects ++ pulse.onComplete ++ copies (refillsOf ts) pulse.effects ∧
      (takenOf ts).length = 6 := by
  have hr : IsFixed (pulse.effects ++ pulse.onComplete) := by simp [IsFixed, pulse]
  exact ⟨hr, by decide +kernel, (taken_in_order ⟨0⟩ hr .weather 1 0 [.bare, .bare]).1,
    by decide +kernel⟩

end Sequence
end EffectMachine
