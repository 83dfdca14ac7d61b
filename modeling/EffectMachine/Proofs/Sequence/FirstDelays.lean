import EffectMachine.Proofs.Number.Zeros
import EffectMachine.Proofs.Sequence.Charges
import EffectMachine.Proofs.Sequence.Gates

namespace EffectMachine

/-- The first effect is still to be executed: nothing has been earned for it, or its delay is
charged and not yet earned. -/
structure SequenceBody.Expects (s : SequenceBody) (e : Effect) (rate : Scalar) : Prop where
  head : ∃ charged rest, s.queue = ⟨e, charged⟩ :: rest ∧
    if charged then s.budget < 0 else s.budget = 0
  unskipped : s.control.isSkipping = false
  free : s.blockers = []
  rate : s.playbackRate = rate

namespace SequenceBody

variable {s s' : SequenceBody} {e : Effect} {rate : Scalar}

/-- Only what does not count has changed. -/
theorem Expects.of_eq (h : s.Expects e rate) (queue : s'.queue = s.queue)
    (budget : s'.budget = s.budget) (control : s'.control = s.control)
    (blockers : s'.blockers = s.blockers) (playbackRate : s'.playbackRate = s.playbackRate) :
    s'.Expects e rate where
  head := by rw [queue, budget]; exact h.head
  unskipped := control ▸ h.unskipped
  free := blockers.trans h.free
  rate := playbackRate.trans h.rate

theorem fresh_expects {id : SequenceId} {r : Routine} {binding : Binding} {depth : UInt8}
    {rest : List Effect} (hr : r.effects = e :: rest) :
    (fresh id r binding rate depth).Expects e rate where
  head := ⟨false, pendingOf rest, by rw [fresh, hr]; rfl, rfl⟩
  unskipped := rfl
  free := rfl
  rate := rfl

end SequenceBody

namespace Sequence

variable {s : Sequence} {m : Moment} {e : Effect} {rate : Scalar} {t : Turn} {ts us : List Turn}

/-- A tick that has fuel begins to drain the queue. -/
theorem exists_turn (hf : s.isFailed = false) (hc : (s.movedChildren m).1.2 = none)
    (hn : m.surroundings.fuel ≠ 0) : ∃ t us, s.tickTurns m = t :: us := by
  obtain ⟨n, hn⟩ := Nat.exists_eq_succ_of_ne_zero hn
  rw [tickTurns_of_children hf hc, hn, drainTurns]
  split <;> exact ⟨_, _, rfl⟩

/-- Without fuel a tick does not come to its end. -/
theorem fuel_of_returns (hf : s.isFailed = false) (hr : (s.ticked m).1.2 ≠ some .outOfFuel) :
    m.surroundings.fuel ≠ 0 := by
  intro hn
  have hd := drained_returns hf hr
  rw [drained, hn] at hd
  exact hd rfl

theorem ready_budget (s : Sequence) (m : Moment) : (s.ready m).body.budget = s.earned m := by
  simp [ready, earn, dropEnded, earned]

/-- What the first turn of a tick finds, and what it is left with once the delay is charged. -/
theorem first_faces (h : s.body.Expects e rate) (ht : s.tickTurns m = t :: us) :
    t.IsStep ∧ ∃ charged, t.before.faces? = some ⟨e, charged⟩ ∧
      if charged then s.body.budget < 0 ∧ t.running = s.earned m
      else s.body.budget = 0 ∧ t.running = (s.earned m).pay e := by
  have hl := s.linked_tickTurns m
  rw [ht] at hl
  obtain ⟨hb, hstep, -⟩ := hl
  obtain ⟨charged, rest, hq, hd⟩ := h.head
  have hbefore : t.before.body.budget = s.earned m := hb ▸ s.ready_budget m
  have hskips : (s.ready m).skips e = false := by
    have hu : (s.ready m).body.control.isSkipping = false := h.unskipped
    rw [skips, hu, Bool.false_and]
  have hfaces : t.before.faces? = some ⟨e, charged⟩ := by
    rw [hb]
    exact faces?_of_head (by simp [ready, earn, dropEnded, h.free]) hq hskips
  refine ⟨hstep, charged, hfaces, ?_⟩
  have hrunning := Turn.running_of_faces hfaces rest
  cases charged with
  | true => exact ⟨hd, hrunning.trans hbefore⟩
  | false => exact ⟨hd, hrunning.trans (congrArg (Scalar.pay · e) hbefore)⟩

/-- The first turn of a tick executes the effect, unless its delay is not earned yet. -/
theorem first_executes_iff (h : s.body.Expects e rate) (ht : s.tickTurns m = t :: us) :
    t.event.executed? = some e ↔ ¬t.running < 0 := by
  obtain ⟨hstep, charged, hf, -⟩ := first_faces h ht
  refine ⟨fun he hn => ?_, hstep.pays.runs _ hf⟩
  rw [hstep.pays.waits _ hf hn] at he
  cases he

/-- Without the frames for the effect the tick comes to nothing. -/
theorem first_waits (h : s.body.Expects e rate) (ht : s.tickTurns m = t :: us)
    (hn : t.running < 0) : t.event = .waiting ∧ us = [] := by
  obtain ⟨hstep, charged, hf, -⟩ := first_faces h ht
  have he := hstep.pays.waits _ hf hn
  refine ⟨he, Classical.byContradiction fun hu => ?_⟩
  have hg := (tickTurns_goesOn (show s.tickTurns m = [] ++ t :: us from ht)).2 hu
  rw [he] at hg
  cases hg

/-- No tick of no frames executes anything before its delay. -/
theorem zero_tick_waits (h : s.body.Expects e rate) (hrate : rate.isFinite = true)
    (hd : 0 < e.delay) (hm : m.elapsed.IsZero) :
    ∀ t ∈ s.tickTurns m, t.event.executed? = none := by
  cases hts : s.tickTurns m with
  | nil => simp
  | cons t us =>
    have hz : (m.elapsed * s.body.playbackRate).IsZero := hm.mul (h.rate ▸ hrate)
    obtain ⟨-, charged, -, hb⟩ := first_faces h hts
    have hn : t.running < 0 := by
      cases charged with
      | true =>
        obtain ⟨hb, hr⟩ := hb
        rw [hr]
        exact Scalar.add_zero_neg hb hz
      | false =>
        obtain ⟨hb, hr⟩ := hb
        have hzero : s.body.budget.IsZero := by rw [hb]; decide
        rw [hr]
        exact (hzero.add hz).sub_delay_neg hd
    obtain ⟨he, rfl⟩ := first_waits h hts hn
    simp [he, DrainEvent.executed?]

/-- At a rate that is not finite the first effect waits for nothing. -/
theorem zero_tick_executes (h : s.body.Expects e rate) (hrate : rate.isFinite = false)
    (hm : m.elapsed.IsZero) (ht : s.tickTurns m = t :: us) : t.event.executed? = some e := by
  refine (first_executes_iff h ht).mpr ?_
  have hearned : ¬(s.earned m).IsNumber := fun hn =>
    hm.mul_not_number (h.rate ▸ hrate) (Scalar.isNumber_of_add hn).2
  obtain ⟨-, charged, -, hb⟩ := first_faces h ht
  cases charged with
  | true =>
    rw [hb.2]
    exact Scalar.not_neg_of_not_number hearned
  | false =>
    rw [hb.2]
    exact Scalar.not_neg_of_not_number fun hn => hearned (Scalar.isNumber_of_sub hn).1

/-- A turn that waits leaves the delay charged. -/
theorem Drains.waits_expects {run : StopHandlers Tick} {r : Surroundings} {h : Host}
    {s' : Sequence} (hd : s.Drains run r h s' .waiting)
    (hq : ∃ charged rest, s.body.queue = ⟨e, charged⟩ :: rest) (hs : s.body.control.isSkipping = false)
    (hrate : s.body.playbackRate = rate) : s'.body.Expects e rate := by
  cases hd with
  | waiting head rest' free queue skips unpaid =>
    obtain ⟨charged, rest, hq⟩ := hq
    obtain ⟨rfl, rfl⟩ := List.cons.inj (hq.symm.trans queue)
    exact ⟨⟨true, rest, charge_queue queue, unpaid⟩, by simpa using hs, by simpa using free,
      by simpa using hrate⟩

/-- As long as a tick does not execute it, the first effect remains the first. -/
theorem ticked_expects (h : s.body.Expects e rate) (hr : (s.ticked m).1.2 ≠ some .outOfFuel)
    (hnone : ∀ t ∈ s.tickTurns m, t.event.executed? = none) :
    (s.ticked m).1.1.isFailed = true ∨ (s.ticked m).1.1.body.Expects e rate := by
  have hk := s.ticks m
  have hfuel (hf : s.isFailed = false) := fuel_of_returns hf hr
  generalize hts : s.tickTurns m = ts at hk hnone
  generalize (s.ticked m).1 = x at hk ⊢
  cases hk with
  | failed f failed => exact .inl failed
  | cut => exact .inr (h.of_eq rfl rfl rfl rfl rfl)
  | settled es k live children =>
    -- The first turn does not execute the effect, so it waits; and then no other turn follows.
    obtain ⟨t, us, ht⟩ := exists_turn live children (hfuel live)
    have hn : t.running < 0 := Classical.byContradiction fun hn => by
      have he := (first_executes_iff h ht).mpr hn
      rw [hnone t (ht ▸ List.mem_cons_self)] at he
      cases he
    obtain ⟨he, rfl⟩ := first_waits h ht hn
    have hl := s.linked_tickTurns m
    have hlast := drained_lastOf live children
    rw [ht] at hl hlast
    obtain ⟨hb, hstep, -⟩ := hl
    obtain ⟨charged, rest, hq, -⟩ := h.head
    have hafter : t.after.body.Expects e rate :=
      (he ▸ hstep.drains).waits_expects (hb ▸ ⟨charged, rest, hq⟩) (hb ▸ h.unskipped) (hb ▸ h.rate)
    rcases settle_cases _ (s.tickHalt m) m.surroundings k with hs | ⟨hf, -⟩
    · rw [hs, ← hlast]
      exact .inr (hafter.of_eq rfl rfl rfl rfl rfl)
    · exact .inl hf

/-- What has ended stays so in a tick. -/
theorem ticked_ended (hs : s.body.isEnded = true) (m : Moment) :
    (s.ticked m).1.1.body.isEnded = true := by
  have hk := s.ticks m
  generalize s.tickTurns m = ts at hk
  generalize (s.ticked m).1 = x at hk ⊢
  cases hk with
  | failed | cut => exact hs
  | settled es k =>
    have hd := (drain_later (persist_runStopHandlers m.surroundings.fuel) m.surroundings.fuel
      (s.ready m) m.surroundings (s.movedChildren m).2).body.ended hs
    exact (settle_later _ _ m.surroundings k).body.ended hd

/-- A stop leaves a sequence ended. -/
theorem stop_ended (s : Sequence) : s.stop.Always fun x => x.1.body.isEnded = true := by
  cases s with
  | mk body children =>
    refine .after _ fun r => ?_
    unfold stopWith
    split
    next h => exact .pure h
    next =>
      refine .after _ fun x => ?_
      dsimp only
      split
      · exact .pure rfl
      · exact fun _ _ => (persist_runStopHandlers r.fuel _ _ _).body.ended rfl

def AwaitsFirst (s : Sequence) (e : Effect) (rate : Scalar) : Prop :=
  s.body.isEnded = true ∨ s.body.Expects e rate

theorem ticked_awaitsFirst (h : s.AwaitsFirst e rate) (hr : (s.ticked m).1.2 ≠ some .outOfFuel)
    (hnone : ∀ t ∈ s.tickTurns m, t.event.executed? = none) :
    (s.ticked m).1.1.AwaitsFirst e rate := by
  rcases h with hs | h
  · exact .inl (ticked_ended hs m)
  · refine (ticked_expects h hr hnone).imp_left fun hf => ?_
    exact Bool.or_eq_true_iff.mpr (.inr hf)

/-- Unless it was stopped, a sequence executes nothing in a tick of no frames. -/
theorem AwaitsFirst.zero_tick (h : s.AwaitsFirst e rate) (hlive : s.body.stopped = false)
    (hrate : rate.isFinite = true) (hd : 0 < e.delay) (hm : m.elapsed.IsZero) :
    ∀ t ∈ s.tickTurns m, t.event.executed? = none := by
  rcases h with hs | h
  · have hf : s.isFailed = true := by
      rw [SequenceBody.isEnded, hlive] at hs
      exact hs
    simp [tickTurns, hf]
  · exact zero_tick_waits h hrate hd hm

end Sequence
end EffectMachine
