import EffectMachine.Proofs.Sequence.Budgets

namespace EffectMachine

namespace SequenceBody

variable {s s' : SequenceBody} {e : Effect} {flow : Flow} {start finish : UInt16}

theorem perform_gate (s : SequenceBody) (ha : e.action = .timeOfDayGate start finish) :
    s.perform e = s.passGate e start finish := by
  obtain ⟨delay, duration, action⟩ := e
  cases ha
  exact s.perform_steer fun _ _ => rfl

/-- Only a closed gate holds the queue. -/
theorem Does.of_hold (h : s.Does e s' .hold) : ∃ start finish,
    e.action = .timeOfDayGate start finish ∧ s' = { s with
      scheduledStart := some start
      queue := { effect := e, charged := true } :: s.queue } := by
  cases h with
  | gateClosed start finish action => exact ⟨start, finish, action, rfl⟩

/-- Nothing else is noted. -/
theorem Does.scheduledStart_none (h : s.Does e s' flow) (hf : flow ≠ .hold)
    (hs : s.scheduledStart = none) : s'.scheduledStart = none := by
  cases h with
  | gateClosed => exact absurd rfl hf
  | gateOpen => rfl
  | _ => exact hs

/-- No effect sets a rate below zero. -/
theorem Does.rate (h : s.Does e s' flow) (hs : ¬s.playbackRate < 0) : ¬s'.playbackRate < 0 := by
  cases h with
  | paced rate => exact rate.max_zero_not_neg
  | _ => exact hs

/-- An effect is at the head of the queue, paid for, and neither a block nor a child keeps the
sequence from it. -/
structure StandsAt (s : SequenceBody) (e : Effect) : Prop where
  queue : ∃ rest, s.queue = ⟨e, true⟩ :: rest
  unskipped : s.control.isSkipping = false
  free : s.blockers = []

/-- What is noted is when the gate opens that the sequence stands at. -/
def AwaitsGate (s : SequenceBody) : Prop :=
  ∀ start, s.scheduledStart = some start →
    ∃ e finish, e.action = .timeOfDayGate start finish ∧ s.StandsAt e

/-- It stands there with no frames left and without debt. -/
structure ShutOut (s : SequenceBody) (e : Effect) : Prop extends s.StandsAt e where
  spent : s.budget ≤ 0
  solvent : ¬s.budget < 0

/-- Only what does not count has changed. -/
theorem AwaitsGate.of_eq (h : s.AwaitsGate) (noted : s'.scheduledStart = s.scheduledStart)
    (queue : s'.queue = s.queue) (control : s'.control = s.control)
    (blockers : s'.blockers = s.blockers) : s'.AwaitsGate := by
  intro start hs
  obtain ⟨e, finish, ha, hst⟩ := h start (noted ▸ hs)
  exact ⟨e, finish, ha, queue ▸ hst.queue, control ▸ hst.unskipped, blockers ▸ hst.free⟩

theorem awaitsGate_of_none (h : s.scheduledStart = none) : s.AwaitsGate := by
  intro start hs
  cases h.symm.trans hs

theorem AwaitsGate.none_of_blockers (h : s.AwaitsGate) (hb : s.blockers ≠ []) :
    s.scheduledStart = none := by
  cases hs : s.scheduledStart with
  | none => rfl
  | some start =>
    obtain ⟨_, _, _, hst⟩ := h start hs
    exact absurd hst.free hb

theorem AwaitsGate.none_of_empty (h : s.AwaitsGate) (hq : s.queue = []) :
    s.scheduledStart = none := by
  cases hs : s.scheduledStart with
  | none => rfl
  | some start =>
    obtain ⟨_, _, _, hst⟩ := h start hs
    obtain ⟨rest, hr⟩ := hst.queue
    cases hq.symm.trans hr

/-- If something is noted, it is the head that is waited for. -/
theorem AwaitsGate.head (h : s.AwaitsGate) {head : Pending} {rest : List Pending}
    (hq : s.queue = head :: rest) (hs : s.scheduledStart = some start) :
    (∃ finish, head.effect.action = .timeOfDayGate start finish) ∧ s.StandsAt head.effect ∧
      head.charged = true := by
  obtain ⟨e, finish, ha, hst⟩ := h start hs
  obtain ⟨rest', hr⟩ := hst.queue
  obtain ⟨rfl, -⟩ := List.cons.inj (hq.symm.trans hr)
  exact ⟨⟨finish, ha⟩, hst, rfl⟩

theorem charge_of_charged (s : SequenceBody) {head : Pending} (hc : head.charged = true)
    (rest : List Pending) : s.charge head rest = s :=
  if_pos hc

@[simp] theorem charge_scheduledStart (s : SequenceBody) (head : Pending) (rest : List Pending) :
    (s.charge head rest).scheduledStart = s.scheduledStart := by
  unfold charge
  split <;> rfl

@[simp] theorem charge_playbackRate (s : SequenceBody) (head : Pending) (rest : List Pending) :
    (s.charge head rest).playbackRate = s.playbackRate := by
  unfold charge
  split <;> rfl

@[simp] theorem requeued_scheduledStart (s : SequenceBody) :
    s.requeued.1.scheduledStart = s.scheduledStart := by
  unfold requeued
  split
  · rfl
  · dsimp only
    split <;> rfl

@[simp] theorem requeued_playbackRate (s : SequenceBody) :
    s.requeued.1.playbackRate = s.playbackRate := by
  unfold requeued
  split
  · rfl
  · dsimp only
    split <;> rfl

end SequenceBody

namespace Sequence

variable {run : StopHandlers Tick} {r : Surroundings} {h : Host} {s s' : Sequence} {e : Effect}
  {event : DrainEvent} {start finish : UInt16}

theorem skips_gate (s : Sequence) (ha : e.action = .timeOfDayGate start finish) :
    s.skips e = s.body.control.isSkipping := by
  rw [skips, ha]
  exact Bool.and_true _

theorem execute_gate (run : StopHandlers Tick) (s : Sequence)
    (ha : e.action = .timeOfDayGate start finish) (r : Surroundings) (h : Host) :
    s.execute run e r h =
      if r.clock.inWindow start finish then
        ((mk { s.body with scheduledStart := none } s.children, .proceed), h)
      else
        ((mk { s.body with
            scheduledStart := some start
            queue := { effect := e, charged := true } :: s.body.queue } s.children, .hold), h) := by
  rw [execute, s.body.perform_gate ha, SequenceBody.passGate, Tick.run_bind, Tick.run_read_bind]
  split <;> rfl

/-- An effect that does not hold the queue leaves nothing noted that was not so before. -/
theorem execute_scheduledStart (run : StopHandlers Tick) (s : Sequence) (e : Effect)
    (hs : s.body.scheduledStart = none) :
    (s.execute run e).Always fun x => x.2 ≠ .hold → x.1.body.scheduledStart = none := by
  intro r h hx
  obtain ⟨hb, hh⟩ := execute_body run s e r h
  rw [hb]
  exact (s.body.perform_does e r h).scheduledStart_none (fun hf => hx (hh.mpr hf)) hs

/-- An effect that runs leaves nothing noted: it is the gate that opens, or nothing was. -/
theorem execute_leaves_unscheduled {head : Pending} {rest : List Pending} {next : Next}
    (hs : s.body.AwaitsGate) (hq : s.body.queue = head :: rest)
    (hx : ((s.takeHead head rest).execute run head.effect r h).1 = (s', next))
    (hn : next ≠ .hold) : s'.body.scheduledStart = none := by
  cases hm : s.body.scheduledStart with
  | none =>
    have he := execute_scheduledStart run (s.takeHead head rest) head.effect
      (by simpa [takeHead] using hm) r h
    rw [hx] at he
    exact he hn
  | some start =>
    obtain ⟨⟨finish, ha⟩, -, -⟩ := hs.head hq hm
    rw [execute_gate run _ ha] at hx
    split at hx
    · cases hx
      rfl
    · cases hx
      exact absurd rfl hn

/-- What a gate leaves that was just found closed. -/
theorem execute_holds {head : Pending} {rest : List Pending} (free : s.body.blockers = [])
    (skips : s.skips head.effect = false)
    (hx : ((s.takeHead head rest).execute run head.effect r h).1 = (s', .hold)) :
    ∃ start finish, head.effect.action = .timeOfDayGate start finish ∧
      s'.body.scheduledStart = some start ∧ s'.body.StandsAt head.effect ∧
      s'.body.budget = (s.body.charge head rest).budget := by
  obtain ⟨hb, hh⟩ := execute_body run (s.takeHead head rest) head.effect r h
  have hd := (s.takeHead head rest).body.perform_does head.effect r h
  rw [hx] at hb hh
  dsimp only at hb hd
  rw [hh.mp rfl] at hd
  obtain ⟨start, finish, ha, hp⟩ := hd.of_hold
  rw [hb, hp]
  refine ⟨start, finish, ha, rfl, ⟨⟨_, rfl⟩, ?_, ?_⟩, rfl⟩
  · rw [s.skips_gate ha] at skips
    simpa [takeHead] using skips
  · simpa [takeHead] using free

/-- After a turn nothing is noted, unless a gate was just found closed, or nothing was done because
of a debt. -/
theorem Drains.noted (hd : s.Drains run r h s' event) (hs : s.body.AwaitsGate) :
    s'.body.scheduledStart = none ∨ (∃ e, event = .held e) ∨
      (s'.body = s.body ∧ s.body.budget < 0) := by
  cases hd with
  | blocked held =>
    rw [body_mapBody]
    exact .inl (hs.none_of_blockers held)
  | dry free empty | requeued free empty => exact .inl (by simpa using hs.none_of_empty empty)
  | skipped head rest free queue skips =>
    rw [body_mapBody]
    cases hm : s.body.scheduledStart with
    | none => exact .inl rfl
    | some start =>
      -- A gate that was found closed is not passed over.
      obtain ⟨⟨finish, ha⟩, hst, -⟩ := hs.head queue hm
      rw [s.skips_gate ha, hst.unskipped] at skips
      cases skips
  | waiting head rest free queue skips unpaid =>
    cases hm : s.body.scheduledStart with
    | none => exact .inl (by simpa using hm)
    | some start =>
      rw [s.body.charge_of_charged (hs.head queue hm).2.2] at unpaid ⊢
      exact .inr (.inr ⟨rfl, unpaid⟩)
  | ran head rest s' free queue skips paid hx =>
    exact .inl (execute_leaves_unscheduled hs queue hx nofun)
  | spliced head rest s' effects free queue skips paid hx =>
    rw [body_mapBody]
    exact .inl (execute_leaves_unscheduled hs queue hx nofun)
  | held head rest s' free queue skips paid hx => exact .inr (.inl ⟨_, rfl⟩)
  | halted head rest s' why free queue skips paid hx =>
    exact .inl (execute_leaves_unscheduled hs queue hx nofun)

theorem Drains.awaitsGate (hd : s.Drains run r h s' event) (hs : s.body.AwaitsGate) :
    s'.body.AwaitsGate := by
  rcases hd.noted hs with hn | ⟨e, rfl⟩ | ⟨hb, -⟩
  · exact SequenceBody.awaitsGate_of_none hn
  · cases hd with
    | held head rest s' free queue skips paid hx =>
      obtain ⟨start, finish, ha, hm, hst, -⟩ := execute_holds free skips hx
      intro start' hs'
      rw [body_mapBody] at hs' ⊢
      obtain rfl := Option.some.inj (hm.symm.trans hs')
      exact ⟨_, finish, ha, hst.queue, hst.unskipped, hst.free⟩
  · rwa [hb]

/-- A rate that does not run backwards never comes to do so. -/
theorem Drains.rate (hd : s.Drains run r h s' event) (hs : ¬s.body.playbackRate < 0) :
    ¬s'.body.playbackRate < 0 := by
  have ran {head rest} {q : Sequence} {next : Next}
      (done : ((s.takeHead head rest).execute run head.effect r h).1 = (q, next)) :
      ¬q.body.playbackRate < 0 := by
    have hp := ((s.takeHead head rest).body.perform_does head.effect r h).rate
      (by simpa [takeHead] using hs)
    have hb := (execute_body run (s.takeHead head rest) head.effect r h).1
    rw [done] at hb
    rwa [hb]
  cases hd with
  | blocked | skipped => simpa [SequenceBody.capBudget] using hs
  | dry | requeued | waiting => simpa using hs
  | ran _ _ _ _ _ _ _ done => exact ran done
  | halted _ _ _ _ _ _ _ _ done => exact ran done
  | spliced _ _ _ _ _ _ _ _ done => simpa using ran done
  | held _ _ _ _ _ _ _ done => simpa [SequenceBody.capBudget] using ran done

/-- What becomes of a gate when it is executed is for the clock to say. -/
theorem Drains.gate (hd : s.Drains run r h s' event)
    (ha : e.action = .timeOfDayGate start finish) (he : event.executed? = some e) :
    event = if r.clock.inWindow start finish then .ran e else .held e := by
  have next {head rest} {x : Sequence × Next} (hh : head.effect = e)
      (done : ((s.takeHead head rest).execute run head.effect r h).1 = x) :
      x.2 = if r.clock.inWindow start finish then .proceed else .hold := by
    rw [hh, execute_gate run _ ha] at done
    rw [← done]
    split <;> rfl
  cases hd with
  | ran head rest s' free queue skips paid hx =>
    obtain rfl := Option.some.inj he
    have hn := next rfl hx
    split at hn
    next hw => rw [if_pos hw]
    next => cases hn
  | spliced head rest s' effects free queue skips paid hx =>
    have hn := next (Option.some.inj he) hx
    split at hn <;> cases hn
  | held head rest s' free queue skips paid hx =>
    obtain rfl := Option.some.inj he
    have hn := next rfl hx
    split at hn
    next => cases hn
    next hw => rw [if_neg hw]
  | halted head rest s' why free queue skips paid hx =>
    have hn := next (Option.some.inj he) hx
    split at hn <;> cases hn
  | blocked | dry | requeued | skipped | waiting => cases he

/-- What holds the queue is a gate; it is closed, and leaves the sequence shut out. -/
theorem Drains.shutOut (hd : s.Drains run r h s' (.held e)) :
    (∃ start finish, e.action = .timeOfDayGate start finish ∧
      r.clock.inWindow start finish = false) ∧ s'.body.ShutOut e := by
  have hg {start finish} (ha : e.action = .timeOfDayGate start finish) := hd.gate ha rfl
  cases hd with
  | held head rest s' free queue skips paid hx =>
    obtain ⟨start, finish, ha, -, hst, hb⟩ := execute_holds free skips hx
    refine ⟨⟨start, finish, ha, eq_false_of_ne_true fun hw => ?_⟩, ?_⟩
    · have he := hg ha
      rw [if_pos hw] at he
      cases he
    · rw [body_mapBody]
      refine ⟨⟨hst.queue, hst.unskipped, hst.free⟩, s'.body.capBudget_le, ?_⟩
      rw [← hb] at paid
      exact Scalar.min_zero_not_neg paid

/-- Who stands at a gate without debt executes it next. -/
theorem drainStep_of_standsAt (run : StopHandlers Tick) (hs : s.body.StandsAt e)
    (ha : e.action = .timeOfDayGate start finish) (hb : ¬s.body.budget < 0) (r : Surroundings)
    (h : Host) : (s.drainStep run r h).1.2 =
      if r.clock.inWindow start finish then .ran e else .held e := by
  obtain ⟨rest, hq⟩ := hs.queue
  have hskips : s.skips e = false := (s.skips_gate ha).trans hs.unskipped
  have hpaid : ¬(s.body.charge ⟨e, true⟩ rest).budget < 0 := by
    rwa [s.body.charge_of_charged rfl]
  rw [s.drainStep_of_paid run hs.free hq hskips hpaid, Tick.run_map, execute_gate run _ ha]
  split <;> rfl

/-- What one turn after the other keeps is kept by all of them. -/
theorem Linked.keeps {P : Sequence → Prop} {ts : List Turn} (hl : s.Linked ts)
    (hP : ∀ t : Turn, t.IsStep → P t.before → P t.after) (hs : P s) : P (s.lastOf ts) := by
  induction ts generalizing s with
  | nil => exact hs
  | cons t ts ih =>
    obtain ⟨rfl, ht, hl⟩ := hl
    exact ih hl (hP t ht hs)

/-- The end of a tick leaves the sequence itself as it is, or failed and with the same budget. -/
theorem settle_cases (s : Sequence) (halt : Option Halt) :
    (s.settle halt).Always fun x => x.1.body = s.body ∨
      x.1.isFailed = true ∧ x.1.body.budget = s.body.budget ∧
        x.1.body.playbackRate = s.body.playbackRate := by
  unfold settle
  split
  · exact fun _ _ => .inr ⟨rfl, rfl, rfl⟩
  · exact .pure (.inl rfl)

section Ticks

variable {m : Moment}

def GateKept (s : Sequence) : Prop := s.isFailed = false → s.body.AwaitsGate

theorem ready_awaitsGate (hs : s.body.AwaitsGate) (m : Moment) : (s.ready m).body.AwaitsGate := by
  intro start hm
  rw [ready, earn, body_mapBody] at hm ⊢
  obtain ⟨e, finish, ha, hst⟩ := hs start hm
  refine ⟨e, finish, ha, hst.queue, hst.unskipped, ?_⟩
  simp [dropEnded, hst.free]

/-- What a sequence has noted of its gate is still true after a tick. -/
theorem ticked_gateKept (hs : s.GateKept) (m : Moment) : (s.ticked m).1.1.GateKept := by
  have hk := s.ticks m
  generalize s.tickTurns m = ts at hk
  generalize (s.ticked m).1 = x at hk ⊢
  cases hk with
  | failed => exact hs
  | cut _ live => exact fun _ => (hs live).of_eq rfl rfl rfl rfl
  | settled es h live children =>
    have hl := (s.linked_tickTurns m).keeps (P := fun q => q.body.AwaitsGate)
      (fun t ht => ht.drains.awaitsGate) (ready_awaitsGate (hs live) m)
    rw [drained_lastOf live children] at hl
    intro hn
    rcases settle_cases _ (s.tickHalt m) m.surroundings h with hb | ⟨hf, -⟩
    · rw [hb]
      exact hl.of_eq rfl rfl rfl rfl
    · cases hf.symm.trans hn

theorem ticked_rate (hs : ¬s.body.playbackRate < 0) (m : Moment) :
    ¬(s.ticked m).1.1.body.playbackRate < 0 := by
  have hk := s.ticks m
  generalize s.tickTurns m = ts at hk
  generalize (s.ticked m).1 = x at hk ⊢
  cases hk with
  | failed | cut => exact hs
  | settled es h live children =>
    have hl := (s.linked_tickTurns m).keeps (P := fun q => ¬q.body.playbackRate < 0)
      (fun t ht => ht.drains.rate) (by simpa [ready, earn, dropEnded] using hs)
    rw [drained_lastOf live children] at hl
    rcases settle_cases _ (s.tickHalt m) m.surroundings h with hb | ⟨-, -, hq⟩
    · rwa [hb]
    · rwa [hq]

/-- A tick that finds a gate closed comes to nothing else, and leaves the sequence shut out. -/
theorem ticked_shutOut {t : Turn} (ht : t ∈ s.tickTurns m) (he : t.event = .held e) :
    (s.ticked m).1.1.body.budget ≤ 0 ∧
      ((s.ticked m).1.1.isFailed = false → (s.ticked m).1.1.body.ShutOut e) := by
  have hk := s.ticks m
  generalize s.tickTurns m = turns at hk ht
  generalize (s.ticked m).1 = x at hk ⊢
  cases hk with
  | failed | cut => cases ht
  | settled es h live children =>
    have hs := ((he ▸ ((s.linked_tickTurns m).isStep t ht).drains).shutOut).2
    obtain ⟨ts, us, hl⟩ := List.append_of_mem ht
    obtain rfl : us = [] := Classical.byContradiction fun hu => by
      have hg := (tickTurns_goesOn hl).2 hu
      rw [he] at hg
      cases hg
    have hd : t.after = (s.drained m).1.1 := by
      rw [← drained_lastOf live children, hl, lastOf_append_cons, lastOf]
    rw [hd] at hs
    rcases settle_cases _ (s.tickHalt m) m.surroundings h with hb | ⟨hf, hb, -⟩
    · rw [hb]
      exact ⟨hs.spent, fun _ => ⟨⟨hs.queue, hs.unskipped, hs.free⟩, hs.spent, hs.solvent⟩⟩
    · rw [hb]
      refine ⟨hs.spent, fun hn => ?_⟩
      cases hf.symm.trans hn

/-- Whoever stands at a gate without debt comes to it first in the next tick, and gets past it if the
clock is within its window. -/
theorem tickTurns_of_standsAt (hs : s.body.StandsAt e) (solvent : ¬s.body.budget < 0)
    (ha : e.action = .timeOfDayGate start finish) (hf : s.isFailed = false)
    (hr : (s.ticked m).1.2 ≠ some .outOfFuel) (he : ¬m.elapsed < 0)
    (hq : ¬s.body.playbackRate < 0) :
    if m.surroundings.clock.inWindow start finish then
      ∃ t us, s.tickTurns m = t :: us ∧ t.event = .ran e
    else ∃ t, s.tickTurns m = [t] ∧ t.event = .held e := by
  have hst : (s.ready m).body.StandsAt e := by
    rw [ready, earn, body_mapBody]
    exact ⟨hs.queue, hs.unskipped, by simp [dropEnded, hs.free]⟩
  have hb : ¬(s.ready m).body.budget < 0 := by
    rw [ready, earn, body_mapBody]
    exact Scalar.add_not_neg solvent (Scalar.mul_not_neg he hq)
  have hc := movedChildren_none hf hr
  have hd := drained_returns hf hr
  rw [tickTurns_of_children hf hc]
  rw [drained] at hd
  have hg := drainStep_of_standsAt (runStopHandlers m.surroundings.fuel) hst ha hb m.surroundings
    (s.movedChildren m).2
  generalize s.ready m = q at hd hg
  generalize (s.movedChildren m).2 = k at hd hg
  generalize runStopHandlers m.surroundings.fuel = run at hd hg
  generalize m.surroundings.fuel = n at hd
  cases n with
  | zero => exact absurd rfl hd
  | succ n =>
    rw [drainTurns]
    split
    next hw =>
      rw [if_pos hw] at hg
      rw [hg]
      exact ⟨_, _, rfl, rfl⟩
    next hw =>
      rw [if_neg hw] at hg
      rw [hg]
      exact ⟨_, rfl, rfl⟩

end Ticks

end Sequence
end EffectMachine
