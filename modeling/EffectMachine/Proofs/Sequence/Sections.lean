import EffectMachine.Proofs.Sequence.Turns

namespace EffectMachine

namespace SequenceBody

/-- What an effect never touches: the lists, and which of them were queued. -/
def marks (s : SequenceBody) : Routine × Bool × Bool × Bool :=
  (s.routine, s.stopped, s.completionRan, s.refilled)

theorem Does.marks_eq {s s' : SequenceBody} {e : Effect} {flow : Flow} (h : s.Does e s' flow) :
    s'.marks = s.marks := by
  cases h <;> rfl

@[simp] theorem charge_marks (s : SequenceBody) (head : Pending) (rest : List Pending) :
    (s.charge head rest).marks = s.marks := by
  unfold charge
  split <;> rfl

/-- A queue that ran dry takes up the completion handlers, or the main list, or stays empty. -/
inductive Requeues (s : SequenceBody) : SequenceBody → Prop where
  | completion (fresh : s.completionRan = false) (some : s.routine.onComplete ≠ []) :
      s.Requeues (({ s with completionRan := true }).enqueue s.routine.onComplete)
  | refill (emitters : List Emitter) (spent : s.completionRan = true ∨ s.routine.onComplete = [])
      (loops : s.looping = true) (runs : s.stopped = false) (first : s.refilled = false) :
      s.Requeues (({ s with
        completionRan := true
        refilled := true
        control := s.control.clear
        emitters }).enqueue s.routine.effects)
  | dry (spent : s.completionRan = true ∨ s.routine.onComplete = [])
      (ends : ¬(s.looping = true ∧ s.stopped = false ∧ s.refilled = false)) :
      s.Requeues { s with completionRan := true }

/-- What a dry queue takes up is one of these lists, or nothing. -/
theorem requeued_requeues (s : SequenceBody) : s.Requeues s.requeued.1 := by
  unfold requeued
  split
  next hc =>
    simp only [Bool.and_eq_true, Bool.not_eq_true', List.isEmpty_eq_false_iff] at hc
    exact .completion hc.1 hc.2
  next hc =>
    have hs : s.completionRan = true ∨ s.routine.onComplete = [] := by
      cases hr : s.completionRan with
      | true => exact .inl rfl
      | false => exact .inr (by simpa [hr] using hc)
    dsimp only
    split
    next hl =>
      simp only [Bool.and_eq_true, Bool.not_eq_true'] at hl
      exact .refill _ hs hl.1.1 hl.1.2 hl.2
    next hl =>
      refine .dry hs fun hg => hl ?_
      simp [hg]

def takenUp (s s' : SequenceBody) : List Effect :=
  (if !s.completionRan && s'.completionRan then s.routine.onComplete else []) ++
    if !s.refilled && s'.refilled then s.routine.effects else []

theorem takenUp_of_marks {s s' : SequenceBody} (h : s'.marks = s.marks) : s.takenUp s' = [] := by
  simp only [marks, Prod.mk.injEq] at h
  simp [takenUp, h.2.2.1, h.2.2.2]

namespace Requeues

variable {s s' : SequenceBody}

theorem routine_eq (h : s.Requeues s') : s'.routine = s.routine := by
  cases h <;> rfl

theorem completionRan (h : s.Requeues s') : s'.completionRan = true := by
  cases h <;> rfl

theorem refilled (h : s.Requeues s') (hr : s.refilled = true) : s'.refilled = true := by
  cases h with
  | refill => rfl
  | _ => exact hr

theorem work_eq (h : s.Requeues s') : s'.work = s.work ++ s.takenUp s' := by
  cases h with
  | completion fresh => simp [work, takenUp, enqueue, pendingOf, fresh, Function.comp_def]
  | refill emitters spent _ _ first =>
    rcases spent with spent | spent <;>
      simp [work, takenUp, enqueue, pendingOf, spent, first, Function.comp_def]
  | dry spent => rcases spent with spent | spent <;> simp [work, takenUp, spent]

/-- The main list is taken up again with an empty control stack, and only by a sequence that
loops. -/
theorem of_refill (h : s.Requeues s') (hr : s.refilled = false) (hr' : s'.refilled = true) :
    s.looping = true ∧ s.stopped = false ∧ s'.control = s.control.clear := by
  cases h with
  | refill emitters spent loops runs => exact ⟨loops, runs, rfl⟩
  | completion => simp_all [enqueue]
  | dry => simp_all

/-- The completion handlers find the control stack as the effects before them left it. -/
theorem control_eq (h : s.Requeues s') (hr : s'.refilled = s.refilled) :
    s'.control = s.control := by
  cases h with
  | refill emitters _ _ _ first => simp_all [enqueue]
  | _ => rfl

end Requeues

end SequenceBody

namespace Sequence

theorem execute_marks (run : StopHandlers Tick) (s : Sequence) (e : Effect) :
    (s.execute run e).Always fun x => x.1.body.marks = s.body.marks := by
  intro r h
  rw [(execute_body run s e r h).1]
  exact (s.body.perform_does e r h).marks_eq

/-- A turn that finds work takes up no list. -/
theorem Drains.marks_eq {run : StopHandlers Tick} {r : Surroundings} {h : Host} {s s' : Sequence}
    {event : DrainEvent} (hd : s.Drains run r h s' event) (hf : event.foundEmpty = false) :
    s'.body.marks = s.body.marks := by
  have ran {head rest} {x : Sequence × Next}
      (done : ((s.takeHead head rest).execute run head.effect r h).1 = x) :
      x.1.body.marks = s.body.marks := by
    have he := execute_marks run (s.takeHead head rest) head.effect r h
    rw [done] at he
    exact he.trans (s.body.charge_marks head rest)
  cases hd with
  | dry | requeued => cases hf
  | blocked | skipped => rw [body_mapBody]; rfl
  | waiting head rest => exact s.body.charge_marks head rest
  | ran _ _ _ _ _ _ _ done => exact ran done
  | halted _ _ _ _ _ _ _ _ done => exact ran done
  | spliced _ _ _ _ _ _ _ _ done =>
    rw [body_mapBody]
    exact ran done
  | held _ _ _ _ _ _ _ done =>
    rw [body_mapBody]
    exact ran done

/-- Only a turn that finds the queue empty takes up a list. -/
theorem Drains.requeues {run : StopHandlers Tick} {r : Surroundings} {h : Host} {s s' : Sequence}
    {event : DrainEvent} (hd : s.Drains run r h s' event) (hf : event.foundEmpty = true) :
    s.body.queue = [] ∧ s.body.Requeues s'.body := by
  cases hd with
  | dry _ empty => exact ⟨empty, s.body.requeued_requeues⟩
  | requeued _ empty => exact ⟨empty, s.body.requeued_requeues⟩
  | _ => cases hf

theorem Drains.routine_eq {run : StopHandlers Tick} {r : Surroundings} {h : Host}
    {s s' : Sequence} {event : DrainEvent} (hd : s.Drains run r h s' event) :
    s'.body.routine = s.body.routine := by
  cases hf : event.foundEmpty with
  | false => exact congrArg Prod.fst (hd.marks_eq hf)
  | true => exact (hd.requeues hf).2.routine_eq

namespace Turn

def completes (t : Turn) : Bool := !t.before.body.completionRan && t.after.body.completionRan

def refills (t : Turn) : Bool := !t.before.body.refilled && t.after.body.refilled

def queued (t : Turn) : List Effect := t.before.body.takenUp t.after.body

variable {t : Turn}

theorem IsStep.drains (h : t.IsStep) :
    t.before.Drains (runStopHandlers t.surroundings.fuel) t.surroundings t.host t.after
      t.event := by
  have hd := t.before.drainStep_drains (runStopHandlers t.surroundings.fuel) t.surroundings t.host
  rw [IsStep] at h
  rwa [h] at hd

theorem IsStep.marks_eq (h : t.IsStep) (hf : t.event.foundEmpty = false) :
    t.after.body.marks = t.before.body.marks :=
  h.drains.marks_eq hf

theorem IsStep.requeues (h : t.IsStep) (hf : t.event.foundEmpty = true) :
    t.before.body.queue = [] ∧ t.before.body.Requeues t.after.body :=
  h.drains.requeues hf

theorem IsStep.routine_eq (h : t.IsStep) : t.after.body.routine = t.before.body.routine :=
  h.drains.routine_eq

/-- What was taken up stays taken up. -/
theorem IsStep.completionRan (h : t.IsStep) (hc : t.before.body.completionRan = true) :
    t.after.body.completionRan = true := by
  cases hf : t.event.foundEmpty with
  | false => exact (congrArg (·.2.2.1) (h.marks_eq hf)).trans hc
  | true => exact (h.requeues hf).2.completionRan

theorem IsStep.refilled (h : t.IsStep) (hr : t.before.body.refilled = true) :
    t.after.body.refilled = true := by
  cases hf : t.event.foundEmpty with
  | false => exact (congrArg (·.2.2.2) (h.marks_eq hf)).trans hr
  | true => exact (h.requeues hf).2.refilled hr

/-- Only a queue that ran dry takes up a list. -/
theorem IsStep.foundEmpty (h : t.IsStep) (ht : t.completes = true ∨ t.refills = true) :
    t.event.foundEmpty = true := by
  cases hf : t.event.foundEmpty with
  | true => rfl
  | false =>
    have hm := h.marks_eq hf
    simp only [SequenceBody.marks, Prod.mk.injEq] at hm
    rcases ht with ht | ht
    · simp [completes, hm.2.2.1] at ht
    · simp [refills, hm.2.2.2] at ht

theorem IsStep.of_refills (h : t.IsStep) (hr : t.refills = true) :
    t.before.body.looping = true ∧ t.before.body.stopped = false ∧
      t.after.body.completionRan = true ∧
      t.after.body.control = t.before.body.control.clear := by
  obtain ⟨_, hq⟩ := h.requeues (h.foundEmpty (.inr hr))
  simp only [refills, Bool.and_eq_true, Bool.not_eq_true'] at hr
  obtain ⟨hl, hs, hc⟩ := hq.of_refill hr.1 hr.2
  exact ⟨hl, hs, hq.completionRan, hc⟩

theorem IsStep.completionRan_toNat (h : t.IsStep) :
    t.after.body.completionRan.toNat = t.completes.toNat + t.before.body.completionRan.toNat := by
  cases hb : t.before.body.completionRan with
  | true => simp [completes, hb, h.completionRan hb]
  | false => simp [completes, hb]

theorem IsStep.refilled_toNat (h : t.IsStep) :
    t.after.body.refilled.toNat = t.refills.toNat + t.before.body.refilled.toNat := by
  cases hb : t.before.body.refilled with
  | true => simp [refills, hb, h.refilled hb]
  | false => simp [refills, hb]

end Turn

def completionsOf (ts : List Turn) : Nat := ts.countP Turn.completes

def refillsOf (ts : List Turn) : Nat := ts.countP Turn.refills

def queuedOf (ts : List Turn) : List Effect := ts.flatMap Turn.queued

def copies (n : Nat) (es : List Effect) : List Effect := (List.replicate n es).flatten

/-- Turns that follow on one another with nothing in between. -/
def Linked : Sequence → List Turn → Prop
  | _, [] => True
  | s, t :: ts => t.before = s ∧ t.IsStep ∧ t.after.Linked ts

theorem linked_drainTurns (n : Nat) (s : Sequence) (r : Surroundings) (h : Host) :
    s.Linked (s.drainTurns (runStopHandlers r.fuel) n r h) := by
  induction n generalizing s h with
  | zero => trivial
  | succ n ih =>
    rw [drainTurns]
    split
    · exact ⟨rfl, rfl, ih _ _⟩
    · exact ⟨rfl, rfl, trivial⟩

/-- The turns of a tick follow on one another from where the tick begins to drain. -/
theorem linked_tickTurns (s : Sequence) (m : Moment) : (s.ready m).Linked (s.tickTurns m) := by
  unfold tickTurns
  split
  · trivial
  · exact linked_drainTurns ..

theorem Linked.isStep {s : Sequence} {ts : List Turn} (h : s.Linked ts) : ∀ t ∈ ts, t.IsStep := by
  induction ts generalizing s with
  | nil => simp
  | cons t ts ih =>
    obtain ⟨_, hs, hl⟩ := h
    exact List.forall_mem_cons.mpr ⟨hs, ih hl⟩

/-- Turns that take up the lists of a routine as they should: the completion handlers at most once,
and no copy of the main list before them. -/
structure TakesUp (r : Routine) (ran : Bool) (ts : List Turn) : Prop where
  queued : queuedOf ts = copies (completionsOf ts) r.onComplete ++ copies (refillsOf ts) r.effects
  once : completionsOf ts + ran.toNat ≤ 1
  before : ran = false → completionsOf ts = 0 → refillsOf ts = 0

theorem TakesUp.nil (r : Routine) (ran : Bool) : TakesUp r ran [] := by
  refine ⟨rfl, ?_, fun _ _ => rfl⟩
  cases ran <;> simp [completionsOf]

/-- What takes up the lists rightly in two parts does so as a whole. -/
theorem TakesUp.append {r : Routine} {ran ran' : Bool} {ts us : List Turn}
    (ht : TakesUp r ran ts) (hr : ran'.toNat = completionsOf ts + ran.toNat)
    (hu : TakesUp r ran' us) : TakesUp r ran (ts ++ us) := by
  have hc : completionsOf (ts ++ us) = completionsOf ts + completionsOf us := List.countP_append
  have hf : refillsOf (ts ++ us) = refillsOf ts + refillsOf us := List.countP_append
  have hq : queuedOf (ts ++ us) = queuedOf ts ++ queuedOf us := List.flatMap_append
  have hu₁ := hu.once
  have ht₁ := ht.once
  refine ⟨?_, by omega, fun hn hz => ?_⟩
  · rw [hc, hf, hq, ht.queued, hu.queued]
    by_cases hz : refillsOf ts = 0
    · rw [hz]
      simp [copies, ← List.replicate_append_replicate]
    · -- The main list was queued again, so the completion handlers were queued before that.
      have hcu : completionsOf us = 0 := by
        cases hn : ran with
        | true => simp [hn] at hr ht₁; omega
        | false =>
          have := ht.before hn
          omega
      simp [hcu, copies, ← List.replicate_append_replicate]
  · rw [hc] at hz
    have hts : completionsOf ts = 0 := by omega
    have hus : completionsOf us = 0 := by omega
    have hran : ran' = false := by
      cases ran' with
      | false => rfl
      | true => simp [hts, hn] at hr
    rw [hf, ht.before hn hts, hu.before hran hus]

/-- One turn takes up the lists as it should. -/
theorem Turn.IsStep.takesUp {t : Turn} (h : t.IsStep) :
    TakesUp t.before.body.routine t.before.body.completionRan [t] := by
  have hc : completionsOf [t] = t.completes.toNat := by
    cases hv : t.completes <;> simp [completionsOf, hv]
  have hf : refillsOf [t] = t.refills.toNat := by
    cases hv : t.refills <;> simp [refillsOf, hv]
  refine ⟨?_, ?_, fun hn hz => ?_⟩
  · rw [hc, hf]
    simp only [queuedOf, List.flatMap_cons, List.flatMap_nil, List.append_nil, queued,
      SequenceBody.takenUp]
    change (if t.completes then _ else _) ++ (if t.refills then _ else _) = _
    cases t.completes <;> cases t.refills <;> simp [copies]
  · rw [hc, ← h.completionRan_toNat]
    exact Bool.toNat_le _
  · rw [hf]
    cases hv : t.refills with
    | false => rfl
    | true =>
      have hcr := (h.of_refills hv).2.2.1
      rw [hc] at hz
      simp [Turn.completes, hn, hcr] at hz

/-- Over linked turns the marks of a sequence count the lists that were taken up. -/
theorem Linked.takesUp {s : Sequence} {ts : List Turn} (h : s.Linked ts) :
    TakesUp s.body.routine s.body.completionRan ts ∧
      (s.lastOf ts).body.routine = s.body.routine ∧
      (s.lastOf ts).body.completionRan.toNat =
        completionsOf ts + s.body.completionRan.toNat ∧
      (s.lastOf ts).body.refilled.toNat = refillsOf ts + s.body.refilled.toNat := by
  induction ts generalizing s with
  | nil => exact ⟨.nil _ _, rfl, by simp [lastOf, completionsOf], by simp [lastOf, refillsOf]⟩
  | cons t ts ih =>
    obtain ⟨rfl, hs, hl⟩ := h
    obtain ⟨ht, hr, hc, hf⟩ := ih hl
    have hc₁ := hs.completionRan_toNat
    have hf₁ := hs.refilled_toNat
    have hct : completionsOf (t :: ts) = completionsOf ts + t.completes.toNat := by
      cases hv : t.completes <;> simp [completionsOf, hv]
    have hft : refillsOf (t :: ts) = refillsOf ts + t.refills.toNat := by
      cases hv : t.refills <;> simp [refillsOf, hv]
    rw [lastOf]
    have ht₁ : completionsOf [t] = t.completes.toNat := by
      cases hv : t.completes <;> simp [completionsOf, hv]
    rw [hs.routine_eq] at ht hr
    exact ⟨hs.takesUp.append (by omega) ht, hr, by omega, by omega⟩

theorem settle_marks (s : Sequence) (halt : Option Halt) :
    (s.settle halt).Always fun x => x.1.body.marks = s.body.marks := by
  unfold settle
  split
  · exact fun _ _ => rfl
  · exact .pure rfl

/-- A tick leaves the lists as its last turn left them. -/
theorem ticked_marks {s : Sequence} (hf : s.isFailed = false) (m : Moment) :
    (s.ticked m).1.1.body.marks = ((s.ready m).lastOf (s.tickTurns m)).body.marks := by
  cases hc : (s.movedChildren m).1.2 with
  | some why =>
    have hn : s.tickTurns m = [] := by simp [tickTurns, hc]
    rw [ticked_of_children_halt hf hc, hn]
    rfl
  | none =>
    obtain ⟨es, h, ht⟩ := ticked_settles hf hc
    rw [ht, settle_marks _ _ _ _, drained_lastOf hf hc]
    rfl

theorem refillsOf_tickTurns_le (s : Sequence) (m : Moment) : refillsOf (s.tickTurns m) ≤ 1 := by
  obtain ⟨_, _, _, hr⟩ := (s.linked_tickTurns m).takesUp
  have hb : (s.ready m).body.refilled = false := rfl
  have hl := Bool.toNat_le ((s.ready m).lastOf (s.tickTurns m)).body.refilled
  rw [hb] at hr
  simp only [Bool.toNat_false] at hr
  omega

/-- Over any run of ticks the completion handlers are taken up at most once, and no copy of the main
list before them. -/
theorem takesUp_turns (s : Sequence) (ms : List Moment) :
    TakesUp s.body.routine s.body.completionRan (s.turns ms) := by
  induction ms generalizing s with
  | nil => exact .nil _ _
  | cons m ms ih =>
    cases hf : s.isFailed with
    | true =>
      rw [turns_of_failed hf]
      exact .nil _ _
    | false =>
      obtain ⟨ht, hr, hc, _⟩ := (s.linked_tickTurns m).takesUp
      have hm := ticked_marks hf m
      simp only [SequenceBody.marks, Prod.mk.injEq] at hm
      have hu := ih (s.ticked m).1.1
      rw [hm.1, hr] at hu
      refine TakesUp.append ht ?_ hu
      rw [hm.2.2.1]
      exact hc

theorem isStep_of_turns {s : Sequence} {ms : List Moment} {t : Turn} (ht : t ∈ s.turns ms) :
    t.IsStep := by
  induction ms generalizing s with
  | nil => cases ht
  | cons m ms ih =>
    rcases List.mem_append.mp ht with ht | ht
    · exact (s.linked_tickTurns m).isStep t ht
    · exact ih ht

end Sequence
end EffectMachine
