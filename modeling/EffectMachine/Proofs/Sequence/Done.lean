import EffectMachine.Proofs.Sequence.Turns

namespace EffectMachine.Sequence

namespace DrainEvent

/-- Did the loop neither run an effect nor wait for one? -/
def isIdle : DrainEvent → Bool
  | dry => true
  | requeued => true
  | skipped _ => true
  | _ => false

end DrainEvent

/-- A tick that does nothing of the sequence's own: no effect runs or waits, the draining asks
nothing of the world and starts nothing, and the sequence is done afterwards. -/
structure Quiet (s : Sequence) (m : Moment) : Prop where
  idle : ∀ t ∈ s.tickTurns m, t.event.isIdle = true
  host : (s.drained m).2 = (s.movedChildren m).2
  children : (s.drained m).1.1.children = (s.ready m).children
  emitters : (s.drained m).1.1.body.emitters = s.body.emitters
  done : (s.ticked m).1.1.isDoneExecuting = true
  state : (s.ticked m).1.1.state ∈ [.finishing, .complete, .failed]

def QuietRun : Sequence → List Moment → Prop
  | _, [] => True
  | s, m :: ms => s.Quiet m ∧ (s.ticked m).1.1.QuietRun ms

def CompletionIdle (s : Sequence) : Prop :=
  s.body.completionRan = true ∨ ∀ e ∈ s.body.routine.onComplete, s.skips e = true

/-- Nothing is left but to pass over what is queued. -/
structure Winding (s : Sequence) : Prop where
  free : s.body.blockers = []
  unscheduled : s.body.scheduledStart = none
  ends : s.body.looping = false ∨ s.body.stopped = true
  queue : ∀ p ∈ s.body.queue, s.skips p.effect = true
  completion : s.CompletionIdle

theorem isDoneExecuting_iff {s : Sequence} : s.isDoneExecuting = true ↔
    s.body.queue = [] ∧ s.body.blockers = [] ∧ s.body.scheduledStart = none ∧
      (s.body.completionRan = true ∨ s.body.routine.onComplete = [] ∨ s.body.stopped = true) ∧
      (s.body.looping = false ∨ s.body.stopped = true) := by
  simp [isDoneExecuting, SequenceBody.isDoneExecuting, and_assoc, or_assoc]

theorem state_of_done {s : Sequence} (h : s.isDoneExecuting = true) :
    s.state ∈ [.finishing, .complete, .failed] := by
  unfold state
  simp only [h, if_true]
  split
  · simp
  · split <;> simp

variable {s : Sequence} {m : Moment}

theorem winding_of_done (hd : s.isDoneExecuting = true) (hc : s.CompletionIdle) : s.Winding := by
  obtain ⟨hq, hb, hs, _, hl⟩ := isDoneExecuting_iff.mp hd
  exact ⟨hb, hs, hl, by simp [hq], hc⟩

/-- The completion handlers are queued, unless they were or there are none. -/
theorem requeued_of_ends {b : SequenceBody} (hl : b.looping = false ∨ b.stopped = true) :
    b.requeued =
      if !b.completionRan && !b.routine.onComplete.isEmpty then
        (({ b with completionRan := true }).enqueue b.routine.onComplete, true)
      else ({ b with completionRan := true }, false) := by
  unfold SequenceBody.requeued
  split
  · rfl
  · rcases hl with hl | hl <;> simp [hl]

/-- Winding down takes only idle turns, which touch nothing but the queue. -/
theorem drainStep_of_winding (hw : s.Winding) (run : StopHandlers Tick) (r : Surroundings)
    (h : Host) : ∃ body event, s.drainStep run r h = ((mk body s.children, event), h) ∧
      (mk body s.children).Winding ∧ event.isIdle = true ∧ body.emitters = s.body.emitters ∧
      (event.goesOn = false → body.queue = [] ∧ body.completionRan = true) := by
  obtain ⟨body, children⟩ := s
  cases hq : body.queue with
  | nil =>
    have hr : body.requeued = _ := requeued_of_ends hw.ends
    rw [drainStep_of_empty run _ hw.free hq, Tick.run_pure, body_mk, hr]
    split
    next hc =>
      simp only [Bool.and_eq_true, Bool.not_eq_true', List.isEmpty_eq_false_iff] at hc
      refine ⟨_, _, rfl, ⟨hw.free, hw.unscheduled, hw.ends, fun p hp => ?_, .inl rfl⟩, rfl, rfl,
        by simp [DrainEvent.goesOn]⟩
      have hp : p ∈ body.queue ++ SequenceBody.pendingOf body.routine.onComplete := hp
      rw [hq, List.nil_append] at hp
      obtain ⟨e, he, rfl⟩ := List.mem_map.mp hp
      exact hw.completion.resolve_left (by simp [hc.1]) e he
    next =>
      refine ⟨_, _, rfl, ⟨hw.free, hw.unscheduled, hw.ends, fun p hp => ?_, .inl rfl⟩, rfl, rfl,
        fun _ => ⟨hq, rfl⟩⟩
      have hp : p ∈ body.queue := hp
      rw [hq] at hp
      cases hp
  | cons head rest =>
    rw [drainStep_of_skips run _ hw.free hq (hw.queue head (by simp [hq])), Tick.run_pure]
    refine ⟨{ body with queue := rest }, _, rfl,
      ⟨hw.free, hw.unscheduled, hw.ends, fun p hp => ?_, hw.completion⟩, rfl, rfl,
      by simp [DrainEvent.goesOn]⟩
    exact hw.queue p (by rw [body_mk, hq]; exact List.mem_cons_of_mem _ hp)

/-- A drain that winds down and does not run out of fuel leaves the sequence done. -/
theorem drain_of_winding (hw : s.Winding) (run : StopHandlers Tick) (n : Nat) (r : Surroundings)
    (h : Host) : ∃ body halt, s.drain run n r h = ((mk body s.children, halt), h) ∧
      (mk body s.children).Winding ∧ body.emitters = s.body.emitters ∧
      (∀ t ∈ s.drainTurns run n r h, t.event.isIdle = true) ∧
      (halt = some .outOfFuel ∨ halt = none ∧ body.queue = [] ∧ body.completionRan = true) := by
  induction n generalizing s with
  | zero =>
    exact ⟨s.body, _, by rw [mk_eta]; rfl, by rwa [mk_eta], rfl, by simp [drainTurns], .inl rfl⟩
  | succ n ih =>
    obtain ⟨body, event, hs, hw', hi, he, hg⟩ := drainStep_of_winding hw run r h
    rw [drain_succ, drainTurns, hs]
    dsimp only
    cases hgo : event.goesOn with
    | true =>
      obtain ⟨body', halt, hd, hw'', he', hi', hh⟩ := ih hw'
      simp only [children_mk, body_mk] at hd hw'' he'
      refine ⟨body', halt, hd, hw'', he'.trans he, ?_, hh⟩
      simp only [if_true, List.forall_mem_cons]
      exact ⟨hi, hi'⟩
    | false =>
      refine ⟨body, event.halt?, rfl, hw', he, ?_, .inr ⟨?_, hg hgo⟩⟩
      · simpa using hi
      · cases event <;> first | rfl | cases hi

theorem ready_winding (hw : s.Winding) (m : Moment) : (s.ready m).Winding :=
  ⟨by simp [ready, dropEnded, earn, hw.free], hw.unscheduled, hw.ends, hw.queue, hw.completion⟩

theorem done_of_winding {body : SequenceBody} {cs : List Sequence} (hw : (mk body cs).Winding)
    (hq : body.queue = []) (hc : body.completionRan = true) :
    (mk body cs).isDoneExecuting = true :=
  isDoneExecuting_iff.mpr ⟨hq, hw.free, hw.unscheduled, .inl hc, hw.ends⟩

/-- Neither its emitters nor a fault of theirs makes a sequence less done. -/
theorem done_of_settled {body : SequenceBody} {cs : List Sequence}
    (hd : (mk body cs).isDoneExecuting = true) (es : List Emitter) (halt : Option Halt) :
    ((mk { body with emitters := es } cs).settle halt).Always fun x =>
      x.1.isDoneExecuting = true ∧ x.1.body.completionRan = body.completionRan := by
  obtain ⟨hq, hb, hs, hc, hl⟩ := isDoneExecuting_iff.mp hd
  unfold settle
  split
  · exact fun r h => ⟨isDoneExecuting_iff.mpr ⟨rfl, rfl, hs, hc, hl⟩, rfl⟩
  · exact .pure ⟨isDoneExecuting_iff.mpr ⟨hq, hb, hs, hc, hl⟩, rfl⟩

/-- A tick of a sequence that is done and has no completion handlers left to run is quiet, and
leaves such a sequence. -/
theorem quiet_of_done (hd : s.isDoneExecuting = true) (hc : s.CompletionIdle)
    (hr : (s.ticked m).1.2 ≠ some .outOfFuel) :
    s.Quiet m ∧ (s.ticked m).1.1.CompletionIdle := by
  have hw := ready_winding (winding_of_done hd hc) m
  obtain ⟨body, halt, hx, hw', he, hi, hh⟩ := drain_of_winding hw
    (runStopHandlers m.surroundings.fuel) m.surroundings.fuel m.surroundings (s.movedChildren m).2
  have hx : s.drained m = ((mk body (s.ready m).children, halt), (s.movedChildren m).2) := hx
  have ht : ∀ t ∈ s.tickTurns m, t.event.isIdle = true := by
    unfold tickTurns
    split
    · simp
    · exact hi
  suffices hl : (s.ticked m).1.1.isDoneExecuting = true ∧ (s.ticked m).1.1.CompletionIdle from
    ⟨⟨ht, by rw [hx], by rw [hx]; rfl, by rw [hx]; exact he, hl.1, state_of_done hl.1⟩, hl.2⟩
  cases hf : s.isFailed with
  | true =>
    obtain ⟨f, hf⟩ := isFailed_eq_true.mp hf
    rw [ticked_of_failed hf]
    exact ⟨hd, hc⟩
  | false =>
    have hm := movedChildren_none hf hr
    have hn := drained_returns hf hr
    rw [hx] at hn
    obtain ⟨rfl, hq, hk⟩ := hh.resolve_left hn
    obtain ⟨es, host, ht⟩ := ticked_settles hf hm
    rw [ht, hx]
    obtain ⟨hdone, hcr⟩ :=
      done_of_settled (done_of_winding hw' hq hk) es (s.tickHalt m) m.surroundings host
    exact ⟨hdone, .inl (hcr.trans hk)⟩

/-- With an effect in the queue that is not passed over, draining comes to run it or to wait. -/
theorem drain_not_idle (run : StopHandlers Tick) (n : Nat) (r : Surroundings) (h : Host)
    (hb : s.body.blockers = []) (hq : ∃ p ∈ s.body.queue, s.skips p.effect = false) :
    (s.drain run n r h).1.2 = some .outOfFuel ∨
      ∃ t ∈ s.drainTurns run n r h, t.event.isIdle = false := by
  induction n generalizing s with
  | zero => exact .inl rfl
  | succ n ih =>
    obtain ⟨p, hp, hs⟩ := hq
    cases hl : s.body.queue with
    | nil => rw [hl] at hp; cases hp
    | cons head rest =>
      rw [drain_succ, drainTurns]
      cases hk : s.skips head.effect with
      | true =>
        rw [s.drainStep_of_skips run hb hl hk, Tick.run_pure]
        have hm : p ∈ rest := by
          rw [hl] at hp
          rcases List.mem_cons.mp hp with rfl | hp
          · rw [hk] at hs; cases hs
          · exact hp
        obtain ⟨body, children⟩ := s
        have ih := ih (s := mk { body with queue := rest } children) hb ⟨p, hm, hs⟩
        rcases ih with ho | ⟨t, ht, he⟩
        · exact .inl ho
        · exact .inr ⟨t, List.mem_cons_of_mem _ ht, he⟩
      | false =>
        have hi : (s.drainStep run r h).1.2.isIdle = false := by
          have hd := s.drainStep_drains run r h
          generalize s.drainStep run r h = x at hd
          obtain ⟨⟨s', event⟩, _⟩ := x
          cases hd <;> first | rfl | simp_all
        refine .inr ?_
        split
        · exact ⟨_, List.mem_cons_self, hi⟩
        · exact ⟨_, List.mem_cons_self, hi⟩

theorem ready_done (hd : s.isDoneExecuting = true) (m : Moment) :
    (s.ready m).isDoneExecuting = true := by
  obtain ⟨hq, hb, hs, hc, hl⟩ := isDoneExecuting_iff.mp hd
  exact isDoneExecuting_iff.mpr ⟨hq, by simp [ready, dropEnded, earn, hb], hs, hc, hl⟩

/-- What is done, but not with its completion handlers, queues them as soon as it drains. -/
theorem drainStep_of_done (hd : s.isDoneExecuting = true) (hc : ¬s.CompletionIdle)
    (run : StopHandlers Tick) (r : Surroundings) (h : Host) :
    ∃ body, s.drainStep run r h = ((mk body s.children, .requeued), h) ∧ body.blockers = [] ∧
      ∃ p ∈ body.queue, (mk body s.children).skips p.effect = false := by
  obtain ⟨hq, hb, _, _, hl⟩ := isDoneExecuting_iff.mp hd
  obtain ⟨hcr, hall⟩ := not_or.mp hc
  obtain ⟨e, he⟩ := Classical.not_forall.mp hall
  obtain ⟨he, hk⟩ := Classical.not_imp.mp he
  have hr := requeued_of_ends hl
  have hwork : (!s.body.completionRan && !s.body.routine.onComplete.isEmpty) = true := by
    have hcr : s.body.completionRan = false := eq_false_of_ne_true hcr
    have hne : s.body.routine.onComplete ≠ [] := List.ne_nil_of_mem he
    simp [hcr, hne]
  rw [if_pos hwork] at hr
  rw [drainStep_of_empty run s hb hq, Tick.run_pure, hr]
  exact ⟨_, rfl, hb, { effect := e }, List.mem_append_right _ (List.mem_map_of_mem he),
    eq_false_of_ne_true hk⟩

/-- A sequence that is done, but not with its completion handlers, takes them up at its next
tick. -/
theorem not_quiet_of_done (hd : s.isDoneExecuting = true) (hf : s.isFailed = false)
    (hc : ¬s.CompletionIdle) (hr : (s.ticked m).1.2 ≠ some .outOfFuel) : ¬s.Quiet m := by
  intro hq
  have hidle := hq.idle
  have hn : ((s.ready m).drain (runStopHandlers m.surroundings.fuel) m.surroundings.fuel
      m.surroundings (s.movedChildren m).2).1.2 ≠ some .outOfFuel := drained_returns hf hr
  rw [tickTurns_of_children hf (movedChildren_none hf hr)] at hidle
  cases hfuel : m.surroundings.fuel with
  | zero =>
    rw [hfuel] at hn
    exact hn rfl
  | succ n =>
    obtain ⟨body, hstep, hb, hwork⟩ := drainStep_of_done (s := s.ready m) (ready_done hd m) hc
      (runStopHandlers (n + 1)) m.surroundings (s.movedChildren m).2
    rw [hfuel, drainTurns, hstep] at hidle
    rw [hfuel, drain_succ, hstep] at hn
    rcases drain_not_idle (s := mk body (s.ready m).children) (runStopHandlers (n + 1)) n
      m.surroundings (s.movedChildren m).2 hb hwork with ho | ⟨t, ht, hi⟩
    · exact hn ho
    · rw [hidle t (List.mem_cons_of_mem _ ht)] at hi
      cases hi

/-- Once done, a sequence stays done and does nothing more, tick after tick, exactly when its
completion handlers were queued or would be passed over. A stop comes before that: what it stops
may have handlers left, and they run at the next tick. -/
theorem quietRun_iff (hd : s.isDoneExecuting = true) (hf : s.isFailed = false) {ms : List Moment}
    (hm : ms ≠ []) (hr : s.Returns ms) : s.QuietRun ms ↔ s.CompletionIdle := by
  constructor
  · intro hq
    cases ms with
    | nil => exact absurd rfl hm
    | cons m ms => exact Classical.byContradiction fun hc => not_quiet_of_done hd hf hc hr.1 hq.1
  · intro hc
    clear hf hm
    induction ms generalizing s with
    | nil => trivial
    | cons m ms ih =>
      obtain ⟨hq, hc'⟩ := quiet_of_done hd hc hr.1
      exact ⟨hq, ih hq.done hr.2 hc'⟩

def completed : Sequence := (ofLists 0 [] [⟨0, 0, .wait⟩] [] []).after [.bare]

theorem completed_quiet : completed.isDoneExecuting = true ∧ completed.isFailed = false ∧
    completed.Returns [.bare] ∧ completed.QuietRun [.bare] := by
  have hd : completed.isDoneExecuting = true := by decide +kernel
  have hf : completed.isFailed = false := by decide +kernel
  have hr : completed.Returns [.bare] := ⟨by decide +kernel, trivial⟩
  exact ⟨hd, hf, hr, (quietRun_iff hd hf (by simp) hr).mpr (.inl (by decide +kernel))⟩

/-- A sequence stopped in its main list, which has completion handlers. -/
def stoppedEarly : Sequence :=
  ((ofLists 0 [⟨100, 0, .wait⟩] [⟨0, 0, .screenFlash Color.white⟩, ⟨100, 0, .wait⟩] [] []).stop
    .bare .fresh).1.1

/-- It is done, and goes back to running when its completion handlers begin. -/
theorem stoppedEarly_runs_completion :
    stoppedEarly.isDoneExecuting = true ∧ stoppedEarly.isFailed = false ∧
      (stoppedEarly.turns [.bare]).map (·.event.taken?) =
        [none, some ⟨0, 0, .screenFlash Color.white⟩, none] ∧
      (stoppedEarly.after [.bare]).isDoneExecuting = false ∧
      (stoppedEarly.after [.bare]).state = .running := by
  decide +kernel

end EffectMachine.Sequence
