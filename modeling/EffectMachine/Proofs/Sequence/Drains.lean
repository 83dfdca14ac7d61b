import EffectMachine.Proofs.Sequence.Execute
import EffectMachine.Proofs.Sequence.Persistence

namespace EffectMachine

namespace SequenceBody

def work (s : SequenceBody) : List Effect := s.queue.map Pending.effect

theorem work_of_queue {s : SequenceBody} {head : Pending} {rest : List Pending}
    (hq : s.queue = head :: rest) : s.work = head.effect :: rest.map Pending.effect := by
  rw [work, hq]
  rfl

theorem work_enqueue (s : SequenceBody) (es : List Effect) :
    (s.enqueue es).work = s.work ++ es := by
  simp [work, enqueue, pendingOf, Function.comp_def]

theorem charge_work (s : SequenceBody) (head : Pending) (rest : List Pending)
    (hq : s.queue = head :: rest) : (s.charge head rest).work = s.work := by
  unfold charge
  split <;> simp [work, hq]

@[simp] theorem charge_control (s : SequenceBody) (head : Pending) (rest : List Pending) :
    (s.charge head rest).control = s.control := by
  unfold charge
  split <;> rfl

end SequenceBody

namespace Sequence

def takeHead (s : Sequence) (head : Pending) (rest : List Pending) : Sequence :=
  mk { s.body.charge head rest with queue := rest } s.children

/-- The turn that an effect makes, by what comes next. -/
def concluded (e : Effect) : Sequence × Next → Sequence × DrainEvent
  | (s, .proceed) => (s, .ran e)
  | (s, .splice effects) =>
    (s.mapBody fun body =>
      { body with queue := SequenceBody.pendingOf effects ++ body.queue }, .ran e)
  | (s, .hold) => (s.mapBody (·.capBudget), .held e)
  | (s, .halt why) => (s, .halted e why)

/-- What one turn of the draining loop comes upon, and what it leaves. -/
inductive Drains (run : StopHandlers Tick) (r : Surroundings) (h : Host) (s : Sequence) :
    Sequence → DrainEvent → Prop where
  | blocked (held : s.body.blockers ≠ []) : s.Drains run r h (s.mapBody (·.capBudget)) .blocked
  | dry (free : s.body.blockers = []) (empty : s.body.queue = [])
      (done : s.body.requeued.2 = false) :
      s.Drains run r h (mk s.body.requeued.1 s.children) .dry
  | requeued (free : s.body.blockers = []) (empty : s.body.queue = [])
      (again : s.body.requeued.2 = true) :
      s.Drains run r h (mk s.body.requeued.1 s.children) .requeued
  | skipped (head : Pending) (rest : List Pending) (free : s.body.blockers = [])
      (queue : s.body.queue = head :: rest) (skips : s.skips head.effect = true) :
      s.Drains run r h (s.mapBody fun body => { body with queue := rest }) (.skipped head.effect)
  | waiting (head : Pending) (rest : List Pending) (free : s.body.blockers = [])
      (queue : s.body.queue = head :: rest) (skips : s.skips head.effect = false)
      (unpaid : (s.body.charge head rest).budget < 0) :
      s.Drains run r h (mk (s.body.charge head rest) s.children) .waiting
  | ran (head : Pending) (rest : List Pending) (s' : Sequence) (free : s.body.blockers = [])
      (queue : s.body.queue = head :: rest) (skips : s.skips head.effect = false)
      (paid : ¬(s.body.charge head rest).budget < 0)
      (done : ((s.takeHead head rest).execute run head.effect r h).1 = (s', .proceed)) :
      s.Drains run r h s' (.ran head.effect)
  | spliced (head : Pending) (rest : List Pending) (s' : Sequence) (effects : List Effect)
      (free : s.body.blockers = []) (queue : s.body.queue = head :: rest)
      (skips : s.skips head.effect = false)
      (paid : ¬(s.body.charge head rest).budget < 0)
      (done : ((s.takeHead head rest).execute run head.effect r h).1 = (s', .splice effects)) :
      s.Drains run r h
        (s'.mapBody fun body =>
          { body with queue := SequenceBody.pendingOf effects ++ body.queue })
        (.ran head.effect)
  | held (head : Pending) (rest : List Pending) (s' : Sequence) (free : s.body.blockers = [])
      (queue : s.body.queue = head :: rest) (skips : s.skips head.effect = false)
      (paid : ¬(s.body.charge head rest).budget < 0)
      (done : ((s.takeHead head rest).execute run head.effect r h).1 = (s', .hold)) :
      s.Drains run r h (s'.mapBody (·.capBudget)) (.held head.effect)
  | halted (head : Pending) (rest : List Pending) (s' : Sequence) (why : Halt)
      (free : s.body.blockers = []) (queue : s.body.queue = head :: rest)
      (skips : s.skips head.effect = false)
      (paid : ¬(s.body.charge head rest).budget < 0)
      (done : ((s.takeHead head rest).execute run head.effect r h).1 = (s', .halt why)) :
      s.Drains run r h s' (.halted head.effect why)

section Steps

variable (run : StopHandlers Tick) (s : Sequence) {head : Pending} {rest : List Pending}

theorem drainStep_of_blocked (hb : s.body.blockers ≠ []) :
    s.drainStep run = pure (s.mapBody (·.capBudget), .blocked) := by
  simp [drainStep, hb]

theorem drainStep_of_empty (hb : s.body.blockers = []) (hq : s.body.queue = []) :
    s.drainStep run = pure (mk s.body.requeued.1 s.children,
      if s.body.requeued.2 then .requeued else .dry) := by
  simp [drainStep, hb, hq]

/-- An effect that is skipped leaves the queue, and nothing else happens. -/
theorem drainStep_of_skips (hb : s.body.blockers = []) (hq : s.body.queue = head :: rest)
    (hs : s.skips head.effect = true) :
    s.drainStep run =
      pure (s.mapBody fun body => { body with queue := rest }, .skipped head.effect) := by
  simp [drainStep, hb, hq, hs]

theorem drainStep_of_unpaid (hb : s.body.blockers = []) (hq : s.body.queue = head :: rest)
    (hs : s.skips head.effect = false) (hn : (s.body.charge head rest).budget < 0) :
    s.drainStep run = pure (mk (s.body.charge head rest) s.children, .waiting) := by
  simp [drainStep, hb, hq, hs, hn]

/-- A head that is paid for is executed. -/
theorem drainStep_of_paid (hb : s.body.blockers = []) (hq : s.body.queue = head :: rest)
    (hs : s.skips head.effect = false) (hn : ¬(s.body.charge head rest).budget < 0) :
    s.drainStep run =
      concluded head.effect <$> (s.takeHead head rest).execute run head.effect := by
  simp only [drainStep, hb, hq, hs, hn, takeHead, List.isEmpty_nil, Bool.not_true,
    Bool.false_eq_true, if_false, map_eq_pure_bind]
  refine bind_congr fun x => ?_
  obtain ⟨s', next⟩ := x
  cases next <;> rfl

end Steps

/-- Every turn of the draining loop is one of those listed. -/
theorem drainStep_drains (run : StopHandlers Tick) (s : Sequence) (r : Surroundings) (h : Host) :
    s.Drains run r h (s.drainStep run r h).1.1 (s.drainStep run r h).1.2 := by
  by_cases hb : s.body.blockers = []
  case neg =>
    rw [s.drainStep_of_blocked run hb]
    exact .blocked hb
  cases hq : s.body.queue with
  | nil =>
    rw [s.drainStep_of_empty run hb hq]
    cases hr : s.body.requeued.2 with
    | true => exact .requeued hb hq hr
    | false => exact .dry hb hq hr
  | cons head rest =>
    cases hs : s.skips head.effect with
    | true =>
      rw [s.drainStep_of_skips run hb hq hs]
      exact .skipped head rest hb hq hs
    | false =>
      by_cases hn : (s.body.charge head rest).budget < 0
      · rw [s.drainStep_of_unpaid run hb hq hs hn]
        exact .waiting head rest hb hq hs hn
      · rw [s.drainStep_of_paid run hb hq hs hn, Tick.run_map]
        cases hx : ((s.takeHead head rest).execute run head.effect r h).1 with
        | mk s' next =>
          cases next with
          | proceed => exact .ran head rest s' hb hq hs hn hx
          | splice effects => exact .spliced head rest s' effects hb hq hs hn hx
          | hold => exact .held head rest s' hb hq hs hn hx
          | halt why => exact .halted head rest s' why hb hq hs hn hx

theorem pathwise_takeHead {R : SequenceBody → SequenceBody → Prop} (hR : SequenceBody.Lasting R)
    (s : Sequence) (head : Pending) (rest : List Pending) : s.Pathwise R (s.takeHead head rest) :=
  pathwise_body hR.refl (hR.trans _ _ _ (hR.charge s.body head rest)
    (hR.waits _ rest _ _ _))

theorem later_takeHead (s : Sequence) (head : Pending) (rest : List Pending) :
    s.Later (s.takeHead head rest) :=
  pathwise_takeHead SequenceBody.lasting_later s head rest

/-- A relation that every change keeps up holds from before a turn to after it, at every place. -/
theorem Drains.pathwise {R : SequenceBody → SequenceBody → Prop} (hR : SequenceBody.Lasting R)
    {run : StopHandlers Tick} (hr : run.Preserve R) {r : Surroundings} {h : Host}
    {s s' : Sequence} {event : DrainEvent} (hd : s.Drains run r h s' event) :
    s.Pathwise R s' := by
  have ran {head rest} {x : Sequence × Next}
      (done : ((s.takeHead head rest).execute run head.effect r h).1 = x) : s.Pathwise R x.1 := by
    have he := execute_pathwise hR hr (s.takeHead head rest) head.effect r h
    rw [done] at he
    exact (s.pathwise_takeHead hR head rest).trans hR.trans he
  have capped (s : Sequence) : s.Pathwise R (s.mapBody (·.capBudget)) :=
    pathwise_mapBody hR.refl (fun b => hR.waits b b.queue b.blockers b.scheduledStart _) s
  cases hd with
  | blocked => exact capped s
  | dry | requeued => exact pathwise_body hR.refl (hR.requeued s.body)
  | skipped head rest =>
    exact pathwise_mapBody hR.refl (fun b => hR.waits b rest b.blockers b.scheduledStart b.budget) s
  | waiting head rest => exact pathwise_body hR.refl (hR.charge s.body head rest)
  | ran _ _ _ _ _ _ _ done => exact ran done
  | halted _ _ _ _ _ _ _ _ done => exact ran done
  | spliced _ _ s' _ _ _ _ _ done =>
    exact (ran done).trans hR.trans (pathwise_mapBody hR.refl
      (fun b => hR.waits b _ b.blockers b.scheduledStart b.budget) s')
  | held _ _ s' _ _ _ _ done => exact (ran done).trans hR.trans (capped s')

/-- What an effect of the draining loop faults with comes back; it is not yet the failure of the
sequence. -/
theorem Drains.failure_eq {run : StopHandlers Tick} {r : Surroundings} {h : Host}
    {s s' : Sequence} {event : DrainEvent} (hd : s.Drains run r h s' event) :
    s'.body.failure = s.body.failure := by
  have charged (head : Pending) (rest : List Pending) :
      (s.body.charge head rest).failure = s.body.failure := by
    unfold SequenceBody.charge
    split <;> rfl
  have ran {head rest} {x : Sequence × Next}
      (done : ((s.takeHead head rest).execute run head.effect r h).1 = x) :
      x.1.body.failure = s.body.failure := by
    have he := execute_failure run (s.takeHead head rest) head.effect r h
    rw [done] at he
    exact he.trans (charged head rest)
  cases hd with
  | blocked | skipped => simp [SequenceBody.capBudget]
  | dry | requeued =>
    rw [body_mk, SequenceBody.requeued]
    split
    · rfl
    · dsimp only
      split <;> rfl
  | waiting head rest => exact charged head rest
  | ran _ _ _ _ _ _ _ done => exact ran done
  | halted _ _ _ _ _ _ _ _ done => exact ran done
  | spliced _ _ _ _ _ _ _ _ done => simpa using ran done
  | held _ _ _ _ _ _ _ done => simpa [SequenceBody.capBudget] using ran done

end Sequence
end EffectMachine
