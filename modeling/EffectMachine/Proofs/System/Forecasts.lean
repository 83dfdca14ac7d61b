import EffectMachine.Proofs.System.Gates
import EffectMachine.Proofs.World.Forecast

namespace EffectMachine

namespace SequenceBody

/-- What is noted is when the gate opens that the sequence stands at, and only the clock keeps it
from there. -/
structure WaitsAtGate (s : SequenceBody) : Prop where
  awaits : s.AwaitsGate
  solvent : s.scheduledStart ≠ none → ¬s.budget < 0

theorem waitsAtGate_of_none {s : SequenceBody} (h : s.scheduledStart = none) : s.WaitsAtGate :=
  ⟨awaitsGate_of_none h, fun hn => absurd h hn⟩

end SequenceBody

namespace Sequence

variable {run : StopHandlers Tick} {r : Surroundings} {h : Host} {s s' : Sequence} {m : Moment}
  {event : DrainEvent}

theorem Drains.waitsAtGate (hd : s.Drains run r h s' event) (hs : s.body.WaitsAtGate) :
    s'.body.WaitsAtGate := by
  refine ⟨hd.awaitsGate hs.awaits, fun hn => ?_⟩
  rcases hd.noted hs.awaits with hnone | ⟨e, rfl⟩ | ⟨hb, debt⟩
  · exact absurd hnone hn
  · exact hd.shutOut.2.solvent
  · rw [hb] at hn
    exact absurd debt (hs.solvent hn)

/-- A sequence that has not failed, and whose rate does not run backwards, waits so. -/
structure GoesByGates (s : Sequence) : Prop where
  rate : ¬s.body.playbackRate < 0
  waits : s.isFailed = false → s.body.WaitsAtGate

theorem ready_waitsAtGate (hs : s.body.WaitsAtGate) (hq : ¬s.body.playbackRate < 0)
    (he : ¬m.elapsed < 0) : (s.ready m).body.WaitsAtGate := by
  refine ⟨ready_awaitsGate hs.awaits m, fun hn => ?_⟩
  rw [ready, earn, body_mapBody] at hn ⊢
  exact Scalar.add_not_neg (hs.solvent hn) (Scalar.mul_not_neg he hq)

/-- A tick forwards keeps a sequence to its gates. -/
theorem ticked_goesByGates (hs : s.GoesByGates) (he : ¬m.elapsed < 0) :
    (s.ticked m).1.1.GoesByGates := by
  refine ⟨ticked_rate hs.rate m, ?_⟩
  have hk := s.ticks m
  generalize s.tickTurns m = ts at hk
  generalize (s.ticked m).1 = x at hk ⊢
  cases hk with
  | failed => exact hs.waits
  | cut _ live =>
    have hw := hs.waits live
    exact fun _ => ⟨hw.awaits.of_eq rfl rfl rfl rfl, hw.solvent⟩
  | settled es h live children =>
    have hl := (s.linked_tickTurns m).keeps (P := fun q => q.body.WaitsAtGate)
      (fun t ht => ht.drains.waitsAtGate) (ready_waitsAtGate (hs.waits live) hs.rate he)
    rw [drained_lastOf live children] at hl
    intro hn
    rcases settle_cases _ (s.tickHalt m) m.surroundings h with hb | ⟨hf, -⟩
    · rw [hb]
      exact ⟨hl.awaits.of_eq rfl rfl rfl rfl, hl.solvent⟩
    · cases hf.symm.trans hn

/-- No effect sets a rate below zero. -/
theorem execute_rate (run : StopHandlers Tick) (s : Sequence) (e : Effect)
    (hs : ¬s.body.playbackRate < 0) :
    (s.execute run e).Always fun x => ¬x.1.body.playbackRate < 0 := by
  intro r h
  rw [(execute_body run s e r h).1]
  exact (s.body.perform_does e r h).rate hs

/-- Handlers never turn the rate backwards. -/
theorem runHandlers_rate (run : StopHandlers Tick) (n : Nat) (es : List Effect)
    (hs : ¬s.body.playbackRate < 0) :
    (runHandlers run n es s).Always fun x => ¬x.1.body.playbackRate < 0 := by
  induction n generalizing es s with
  | zero => exact .pure hs
  | succ n ih =>
    cases es with
    | nil => exact .pure (by simpa using hs)
    | cons e es =>
      unfold runHandlers
      split
      · exact ih es hs
      · refine .bind (execute_rate run s e hs) fun x hx => ?_
        obtain ⟨s', next⟩ := x
        cases next with
        | hold => exact .pure (by simpa using hx)
        | proceed => exact ih es hx
        | splice effects => exact ih (effects ++ es) hx
        | halt why => exact .pure hx

/-- Nor does a stop, on any level. -/
theorem stop_rate (hs : ¬s.body.playbackRate < 0) :
    s.stop.Always fun x => ¬x.1.body.playbackRate < 0 := by
  cases s with
  | mk body children =>
    refine .after _ fun r => ?_
    unfold stopWith
    split
    · exact .pure hs
    · refine .after _ fun x => ?_
      dsimp only
      split
      · exact .pure hs
      · cases r.fuel with
        | zero => exact .pure hs
        | succ depth =>
          refine .after _ fun r' => .bind (runHandlers_rate _ _ _ hs) fun y hy => ?_
          refine (y.1.settle_cases y.2).mono fun x hx => ?_
          rcases hx with hb | ⟨-, -, hq⟩
          · rwa [hb]
          · rwa [hq]

/-- A call keeps a sequence to its gates if its ticks go forwards. -/
theorem visited_goesByGates {v : Visit} (hs : s.GoesByGates)
    (he : ∀ m, v.moment? = some m → ¬m.elapsed < 0) : (s.visited v).1.1.GoesByGates := by
  obtain ⟨call, r, h⟩ := v
  cases call with
  | advance elapsed => exact ticked_goesByGates (m := ⟨elapsed, r, h⟩) hs (he _ rfl)
  | stop =>
    refine ⟨stop_rate hs.rate r h, ?_⟩
    rcases s.stop_leaves r h with hx | hf | hn
    · have hx : ((s.visited ⟨.stop, r, h⟩).1).1 = s := hx
      rw [hx]
      exact hs.waits
    · intro hlive
      cases hf.symm.trans hlive
    · exact fun _ => SequenceBody.waitsAtGate_of_none hn
  | stopRoutine routine =>
    have hb := visited_body (s := s) (v := ⟨.stopRoutine routine, r, h⟩) rfl rfl
    refine ⟨by rw [hb]; exact hs.rate, fun hlive => ?_⟩
    rw [isFailed, hb] at hlive
    rw [hb]
    exact hs.waits hlive

/-- By induction on the calls. -/
theorem afterVisits_goesByGates (vs : List Visit) (hs : s.GoesByGates)
    (he : ∀ v ∈ vs, ∀ m, v.moment? = some m → ¬m.elapsed < 0) :
    (s.afterVisits vs).GoesByGates := by
  induction vs generalizing s with
  | nil => exact hs
  | cons v vs ih =>
    obtain ⟨hv, hvs⟩ := List.forall_mem_cons.mp he
    exact ih (visited_goesByGates hs hv) hvs

/-- A gate stands at the head, and the frames that the sequence reports are those to its start. A
tick on a clock that shows the time after them comes to the gate first, and gets past it if the gate
is open at its start. -/
def MeetsGate (s : Sequence) (c : Clock) (n : Scalar) : Prop :=
  ∃ e start finish rest, e.action = .timeOfDayGate start finish ∧ s.body.queue = ⟨e, true⟩ :: rest ∧
    n = c.framesUntil start ∧
    ∀ m : Moment, 0 ≤ m.elapsed → (s.ticked m).1.2 ≠ some .outOfFuel →
      m.surroundings.clock.Shows (c.exactLater (c.exactFrames start)) →
      if Clock.OpensAtStart start finish then ∃ t us, s.tickTurns m = t :: us ∧ t.event = .ran e
      else ∃ t, s.tickTurns m = [t] ∧ t.event = .held e

theorem GoesByGates.meetsGate (hs : s.GoesByGates) {c : Clock} (hc : c.GoesOn)
    (hf : s.isFailed = false) {n : Scalar} (hn : s.body.framesUntilStart c = some n) :
    s.MeetsGate c n := by
  obtain ⟨start, hm, rfl⟩ := Option.map_eq_some_iff.mp hn
  obtain ⟨awaits, solvent⟩ := hs.waits hf
  obtain ⟨e, finish, ha, hst⟩ := awaits start hm
  obtain ⟨rest, hq⟩ := hst.queue
  refine ⟨e, start, finish, rest, ha, hq, rfl, fun m he hr hshows => ?_⟩
  have htick := tickTurns_of_standsAt hst (solvent (by simp [hm])) ha hf hr
    (Scalar.not_neg_of_nonneg he) hs.rate
  rw [(hc.forecasts start finish).reaches] at hshows
  simpa only [hshows.inWindow finish] using htick

/-- On a clock that goes on, the frames until a gate starts are exactly those after which it is that
minute, modulo a day; and there the gate is open unless both of its ends are alike, or it starts past
the last minute of the day and is not open so late at night. The frames are a number as long as there
are fewer of them than scalars go. This is what a sequence reports of the gate that it waits for: if
neither its ticks nor its rate run backwards and it has not failed, it finds the gate so. -/
theorem gates_are_forecast (c : Clock) (hc : c.GoesOn) :
    (∀ start finish, c.Forecasts start finish) ∧
      ∀ (id : SequenceId) (routine : Routine) (binding : Binding) (rate : Scalar) (depth : UInt8)
        (vs : List Visit), 0 ≤ rate →
        (∀ v ∈ vs, ∀ m, v.moment? = some m → 0 ≤ m.elapsed) →
        let s := (mk (.fresh id routine binding rate depth) []).afterVisits vs
        s.isFailed = false → ∀ n, s.body.framesUntilStart c = some n → s.MeetsGate c n := by
  refine ⟨hc.forecasts, fun id routine binding rate depth vs hrate he => ?_⟩
  intro s hf n hn
  have hs : s.GoesByGates := afterVisits_goesByGates vs
    ⟨Scalar.not_neg_of_nonneg hrate, fun _ => SequenceBody.waitsAtGate_of_none rfl⟩
    fun v hv m hm => Scalar.not_neg_of_nonneg (he v hv m hm)
  exact hs.meetsGate hc hf hn

def noon : Clock := { minutesPerFrame := 1 }

def gated (start finish : UInt16) : Routine :=
  ⟨ResourceId.none, ResourcePath.root, [⟨0, 0, .timeOfDayGate start finish⟩], [], [], false⟩

def tickAt (c : Clock) : Visit := ⟨.advance 1, { Surroundings.bare with clock := c }, .fresh⟩

theorem noon_goesOn : noon.GoesOn :=
  ⟨by decide +kernel, by decide +kernel, by decide +kernel, by decide +kernel⟩

/-- In the evening the gate is open. -/
theorem evening_is_forecast :
    let s := (mk (.fresh ⟨0⟩ (gated 1080 1200) .weather 1 0) []).afterVisits [tickAt noon]
    noon.GoesOn ∧ s.isFailed = false ∧ s.body.framesUntilStart noon = some 360 ∧
      noon.Forecasts 1080 1200 ∧ s.MeetsGate noon 360 ∧
      (s.afterVisits [tickAt (noon.tickFrames 360).1]).state = .complete := by
  intro s
  have hlen : ∀ v ∈ [tickAt noon], ∀ m, v.moment? = some m → 0 ≤ m.elapsed := by
    simp only [List.forall_mem_cons, List.not_mem_nil, false_implies, implies_true, and_true]
    rintro m ⟨⟩
    decide +kernel
  have hf : s.isFailed = false := by decide +kernel
  have hn : s.body.framesUntilStart noon = some 360 := by decide +kernel
  obtain ⟨forecast, meets⟩ := gates_are_forecast noon noon_goesOn
  exact ⟨noon_goesOn, hf, hn, forecast 1080 1200,
    meets ⟨0⟩ (gated 1080 1200) .weather 1 0 [tickAt noon] (by decide +kernel) hlen hf 360 hn,
    by decide +kernel⟩

/-- A gate is forecast, and is shut when its time has come. -/
def ForecastInVain (c : Clock) (start finish : UInt16) : Prop :=
  let s := (mk (.fresh ⟨0⟩ (gated start finish) .weather 1 0) []).afterVisits [tickAt c]
  ∃ n, s.isFailed = false ∧ s.body.framesUntilStart c = some n ∧ n.isFinite = true ∧
    DayArithmetic.inWindow (c.exactLater (c.exactFrames start)) start finish = false ∧
    (s.afterVisits [tickAt (c.tickFrames n).1]).state = .scheduled

/-- So it is with a gate that has both ends alike, and with one that is open past the last minute of
the day only. -/
theorem gates_stay_shut :
    noon.GoesOn ∧ ForecastInVain noon 600 600 ∧ ForecastInVain noon 1500 1600 := by
  have shut (start finish : UInt16) (h : ¬Clock.OpensAtStart start finish) :
      DayArithmetic.inWindow (noon.exactLater (noon.exactFrames start)) start finish = false :=
    eq_false_of_ne_true (mt (noon_goesOn.forecasts start finish).opens.mp h)
  exact ⟨noon_goesOn,
    ⟨1320, by decide +kernel, by decide +kernel, by decide +kernel, shut 600 600 (by decide),
      by decide +kernel⟩,
    ⟨780, by decide +kernel, by decide +kernel, by decide +kernel, shut 1500 1600 (by decide),
      by decide +kernel⟩⟩

end Sequence
end EffectMachine
