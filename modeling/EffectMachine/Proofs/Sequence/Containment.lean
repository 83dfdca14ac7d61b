import EffectMachine.Proofs.Sequence.Stopping
import EffectMachine.Proofs.Sequence.Turns

namespace EffectMachine

def Action.stopsOthers : Action → Bool
  | stopRoutine _ => true
  | _ => false

namespace Sequence

namespace DrainEvent

/-- The fault of an effect's own, if that ended the loop. -/
def raised? : DrainEvent → Option Fault
  | halted e (.fault f) => if e.action.stopsOthers then none else some f
  | _ => none

/-- Did the fault of a sequence that an effect stopped end the loop? -/
def handsUp : DrainEvent → Bool
  | halted e (.fault _) => e.action.stopsOthers
  | _ => false

variable {event : DrainEvent} {f : Fault}

theorem raised_or_handsUp {e : Effect} (h : event = .halted e (.fault f)) :
    event.raised? = some f ∨ event.handsUp = true := by
  subst event
  cases ha : e.action.stopsOthers <;> simp [raised?, handsUp, ha]

theorem halted_of_raised (h : event.raised? = some f) :
    event.handsUp = false ∧ ∃ e, event = .halted e (.fault f) := by
  cases event with
  | halted e why =>
    cases why with
    | fault g =>
      cases ha : e.action.stopsOthers <;> simp_all [raised?, handsUp]
    | outOfFuel => cases h
  | _ => cases h

theorem halted_of_handsUp (h : event.handsUp = true) : ∃ e f, event = .halted e (.fault f) := by
  cases event with
  | halted e why =>
    cases why with
    | fault f => exact ⟨e, f, rfl⟩
    | outOfFuel => cases h
  | _ => cases h

end DrainEvent

section Loops

variable {run : StopHandlers Tick} {f : Fault}

theorem drainTurns_goOn (run : StopHandlers Tick) (n : Nat) (s : Sequence) (r : Surroundings)
    (h : Host) : (s.drainTurns run n r h).Pairwise fun t _ => t.event.goesOn = true := by
  induction n generalizing s h with
  | zero => exact .nil
  | succ n ih =>
    rw [drainTurns]
    split
    next hg => exact .cons (fun _ _ => hg) (ih _ _)
    next => exact List.pairwise_singleton _ _

/-- Handlers go on after every turn but the last. -/
theorem handlerTurns_goOn (run : StopHandlers Tick) (n : Nat) (es : List Effect) (s : Sequence)
    (r : Surroundings) (h : Host) :
    (handlerTurns run n es s r h).Pairwise fun t _ => t.event.goesOn = true := by
  induction n generalizing es s h with
  | zero => exact .nil
  | succ n ih =>
    cases es with
    | nil => exact .nil
    | cons e es =>
      rw [handlerTurns]
      split
      · exact .cons (fun _ _ => rfl) (ih _ _ _)
      · dsimp only
        split
        · exact .cons (fun _ _ => rfl) (ih _ _ _)
        · exact .cons (fun _ _ => rfl) (ih _ _ _)
        · exact List.pairwise_singleton _ _
        · exact List.pairwise_singleton _ _

theorem turn_eq_of_ends {ts : List Turn} {t u : Turn}
    (hp : ts.Pairwise fun t _ => t.event.goesOn = true) (ht : t ∈ ts) (hu : u ∈ ts)
    (hte : t.event.goesOn = false) (hue : u.event.goesOn = false) : t = u := by
  induction ts with
  | nil => cases ht
  | cons v ts ih =>
    obtain ⟨hv, hp⟩ := List.pairwise_cons.mp hp
    rcases List.mem_cons.mp ht with rfl | htm <;> rcases List.mem_cons.mp hu with rfl | hum
    · rfl
    · rw [hv u hum] at hte
      cases hte
    · rw [hv t htm] at hue
      cases hue
    · exact ih hp htm hum

/-- What ends a loop is raised in it, unless an effect handed it up. -/
theorem raised_iff_of_turns {ts : List Turn} {halt : Option Halt}
    (hp : ts.Pairwise fun t _ => t.event.goesOn = true)
    (hh : ∀ f, halt = some (.fault f) ↔ ∃ t ∈ ts, ∃ e, t.event = .halted e (.fault f)) :
    (∀ f, halt = some (.fault f) → ∃ t ∈ ts, t.event.raised? = some f) ↔
      ∀ t ∈ ts, t.event.handsUp = false := by
  constructor
  · intro hown t ht
    refine eq_false_of_ne_true fun hup => ?_
    obtain ⟨e, f, he⟩ := DrainEvent.halted_of_handsUp hup
    obtain ⟨u, hu, hr⟩ := hown f ((hh f).mpr ⟨t, ht, e, he⟩)
    obtain ⟨hn, e', he'⟩ := DrainEvent.halted_of_raised hr
    -- Either turn ends the loop, so there is but one.
    have heq : t = u := turn_eq_of_ends hp ht hu (by rw [he]; rfl) (by rw [he']; rfl)
    rw [heq, hn] at hup
    cases hup
  · intro hn f hf
    obtain ⟨t, ht, e, he⟩ := (hh f).mp hf
    rcases DrainEvent.raised_or_handsUp he with hr | hup
    · exact ⟨t, ht, hr⟩
    · rw [hn t ht] at hup
      cases hup

/-- Handlers come back with a fault exactly if one of their turns has it. -/
theorem runHandlers_fault_iff {n : Nat} {es : List Effect} {s : Sequence} {r : Surroundings}
    {h : Host} : (runHandlers run n es s r h).1.2 = some (.fault f) ↔
      ∃ t ∈ handlerTurns run n es s r h, ∃ e, t.event = .halted e (.fault f) := by
  induction n generalizing es s h with
  | zero => simp [runHandlers, handlerTurns]
  | succ n ih =>
    cases es with
    | nil => simp [runHandlers, handlerTurns]
    | cons e es =>
      rw [runHandlers, handlerTurns]
      cases hk : s.skips e with
      | true => simp [ih]
      | false =>
        rw [if_neg Bool.false_ne_true, if_neg Bool.false_ne_true, Tick.run_bind]
        generalize s.execute run e r h = x
        obtain ⟨⟨s', next⟩, h'⟩ := x
        cases next <;> simp [ih, eq_comm]

/-- Handlers leave nothing that waits. -/
theorem runHandlers_queue (run : StopHandlers Tick) (n : Nat) (es : List Effect) (s : Sequence)
    (hq : s.body.queue = []) : (runHandlers run n es s).Always fun x => x.1.body.queue = [] := by
  induction n generalizing es s with
  | zero => exact .pure hq
  | succ n ih =>
    cases es with
    | nil => exact .pure (by simpa using hq)
    | cons e es =>
      unfold runHandlers
      split
      · exact ih es s hq
      · have he : (s.execute run e).Always fun x => x.2 = .hold ∨ x.1.body.queue = [] := by
          intro r h
          cases hx : (s.execute run e r h).1 with
          | mk s' next =>
            cases next with
            | hold => exact .inl rfl
            | _ => exact .inr ((execute_queue hx).trans hq)
        refine .bind he fun x hx => ?_
        obtain ⟨s', next⟩ := x
        cases next with
        | hold => exact .pure (by simp)
        | proceed => exact ih es s' (hx.resolve_left (by simp))
        | splice effects => exact ih (effects ++ es) s' (hx.resolve_left (by simp))
        | halt why => exact .pure (hx.resolve_left (by simp))

/-- Handlers do not record a failure, however they end. -/
theorem runHandlers_failure (run : StopHandlers Tick) (n : Nat) (es : List Effect)
    (s : Sequence) :
    (runHandlers run n es s).Always fun x => x.1.body.failure = s.body.failure := by
  induction n generalizing es s with
  | zero => exact .pure rfl
  | succ n ih =>
    cases es with
    | nil => exact .pure (by simp)
    | cons e es =>
      unfold runHandlers
      split
      · exact ih es s
      · refine .bind (execute_failure run s e) fun x hx => ?_
        obtain ⟨s', next⟩ := x
        cases next with
        | proceed => exact .mono (ih es s') fun _ hy => hy.trans hx
        | splice effects => exact .mono (ih _ s') fun _ hy => hy.trans hx
        | hold => exact .pure (by simpa using hx)
        | halt why => exact .pure hx

/-- A fault that comes back is the failure that a sequence is left with. -/
theorem settle_outcome {s : Sequence} (hf : s.isFailed = false) (halt : Option Halt) :
    (s.settle halt).Always fun x => x.2 = halt ∧ x.1.children = s.children ∧
      ∀ f, x.1.body.failure = some f ↔ halt = some (.fault f) := by
  unfold settle
  split
  next f => exact fun r h => ⟨rfl, rfl, by simp [SequenceBody.fail]⟩
  next hn =>
    refine .pure ⟨rfl, rfl, fun f => ⟨fun hs => ?_, fun hs => absurd hs (hn f)⟩⟩
    rw [isFailed_eq_false.mp hf] at hs
    cases hs

end Loops

section Ticks

def EmittersFail (s : Sequence) (m : Moment) (f : Fault) : Prop :=
  (s.drained m).1.2 = none ∧
    ((s.drained m).1.1.advanceOwned m.elapsed m.surroundings (s.drained m).2).1.2 =
      some (.fault f)

/-- Does the sequence raise a fault itself in a tick, by one of its effects or emitters? -/
def Raises (s : Sequence) (m : Moment) (f : Fault) : Prop :=
  (∃ t ∈ s.tickTurns m, t.event.raised? = some f) ∨ s.EmittersFail m f

/-- A tick that keeps the faults of children from their parent: it comes back with none that the
parent did not raise and leaves the parent with no other failure, and of its children it keeps
those that go on, before any of its own effects run. -/
structure Contained (s : Sequence) (m : Moment) : Prop where
  own : ∀ f, (s.ticked m).1.2 = some (.fault f) → s.Raises m f
  alive : ∀ f, (s.ticked m).1.1.body.failure = some f → s.Raises m f
  dropped : ∀ c, c ∈ (s.ready m).children ↔
    c ∈ (s.movedChildren m).1.1 ∧ c.isFailed = false ∧ c.isComplete = false
  kept : Extends Later (s.ready m).children (s.ticked m).1.1.children

def ContainedRun : Sequence → List Moment → Prop
  | _, [] => True
  | s, m :: ms => s.isFailed = false → s.Contained m ∧ (s.ticked m).1.1.ContainedRun ms

variable {s : Sequence} {m : Moment}

theorem tickHalt_fault_iff (s : Sequence) (m : Moment) (f : Fault) :
    s.tickHalt m = some (.fault f) ↔
      (s.drained m).1.2 = some (.fault f) ∨ s.EmittersFail m f := by
  unfold tickHalt EmittersFail
  cases (s.drained m).1.2 <;> simp

/-- The fault that a tick comes back with is the failure that it leaves. -/
theorem ticked_outcome (hf : s.isFailed = false) (hr : (s.ticked m).1.2 ≠ some .outOfFuel) :
    (s.ticked m).1.1.children = (s.drained m).1.1.children ∧
      ∀ f, ((s.ticked m).1.1.body.failure = some f ↔ (s.ticked m).1.2 = some (.fault f)) ∧
        ((s.ticked m).1.2 = some (.fault f) ↔
          (s.drained m).1.2 = some (.fault f) ∨ s.EmittersFail m f) := by
  have hm := movedChildren_none hf hr
  have hd : (s.drained m).1.1.isFailed = false := by
    have hb : (s.drained m).1.1.body.failure = s.body.failure := drain_failure _ _ (s.ready m) _ _
    rw [isFailed_eq_false, hb]
    exact isFailed_eq_false.mp hf
  obtain ⟨es, h, ht⟩ := ticked_settles hf hm
  rw [ht]
  obtain ⟨hs, hc, ho⟩ := settle_outcome
    (s := mk { (s.drained m).1.1.body with emitters := es } (s.drained m).1.1.children) hd
    (s.tickHalt m) m.surroundings h
  exact ⟨hc, fun f => ⟨by rw [ho, hs], by rw [hs, tickHalt_fault_iff]⟩⟩

theorem drained_fault_iff (hf : s.isFailed = false) (hr : (s.ticked m).1.2 ≠ some .outOfFuel)
    (f : Fault) : (s.drained m).1.2 = some (.fault f) ↔
      ∃ t ∈ s.tickTurns m, ∃ e, t.event = .halted e (.fault f) := by
  rw [tickTurns_of_children hf (movedChildren_none hf hr)]
  constructor
  · exact fault_of_drain
  · rintro ⟨t, ht, e, he⟩
    exact drain_of_fault ht he

theorem tickTurns_goOn (s : Sequence) (m : Moment) :
    (s.tickTurns m).Pairwise fun t _ => t.event.goesOn = true := by
  unfold tickTurns
  split
  · exact .nil
  · exact drainTurns_goOn ..

/-- The children that a tick drops do not come back in it. -/
theorem ready_later_ticked (hf : s.isFailed = false)
    (hr : (s.ticked m).1.2 ≠ some .outOfFuel) :
    Extends Later (s.ready m).children (s.ticked m).1.1.children := by
  rw [(ticked_outcome hf hr).1]
  exact (drain_later (persist_runStopHandlers _) _ (s.ready m) _ _).children

/-- A tick contains the faults of children unless one of its effects hands one up. -/
theorem contained_iff (hf : s.isFailed = false) (hr : (s.ticked m).1.2 ≠ some .outOfFuel) :
    s.Contained m ↔ ∀ t ∈ s.tickTurns m, t.event.handsUp = false := by
  rw [← raised_iff_of_turns (s.tickTurns_goOn m) (drained_fault_iff hf hr)]
  obtain ⟨_, ho⟩ := ticked_outcome hf hr
  constructor
  · intro hc f hd
    rcases hc.own f ((ho f).2.mpr (.inl hd)) with hown | hemit
    · exact hown
    · rw [hemit.1] at hd
      cases hd
  · intro hown
    have hraises : ∀ f, (s.ticked m).1.2 = some (.fault f) → s.Raises m f :=
      fun f ht => ((ho f).2.mp ht).imp (hown f) id
    refine ⟨hraises, fun f hs => hraises f ((ho f).1.mp hs), fun c => ?_,
      ready_later_ticked hf hr⟩
    simp [ready, dropEnded, earn]

theorem containedRun_iff (hf : s.isFailed = false) {ms : List Moment} (hr : s.Returns ms) :
    s.ContainedRun ms ↔ ∀ t ∈ s.turns ms, t.event.handsUp = false := by
  induction ms generalizing s with
  | nil => simp [ContainedRun, turns]
  | cons m ms ih =>
    simp only [ContainedRun, hf, true_implies, contained_iff hf hr.1, turns, List.mem_append,
      or_imp, forall_and]
    refine and_congr_right fun _ => ?_
    cases hs : (s.ticked m).1.1.isFailed with
    | false => exact ih hs hr.2
    | true =>
      rw [turns_of_failed hs]
      cases ms <;> simp [ContainedRun, hs]

end Ticks

section Stops

/-- The turns of a sequence's own stop handlers. A fault below leaves them out. -/
def stopTurns : Nat → Sequence → Surroundings → Host → List Turn
  | 0, _, _, _ => []
  | depth + 1, s, r, h =>
    let x := stopAllWith (runStopHandlers (depth + 1)) s.children r h
    if x.1.2.isSome then []
    else
      handlerTurns (runStopHandlers depth) r.fuel s.body.routine.onStop
        (mk s.body.halted x.1.1) r x.2

/-- A stop that keeps the faults of children from their parent. -/
structure StopContained (depth : Nat) (s : Sequence) (r : Surroundings) (h : Host) : Prop where
  own : ∀ f, (s.stopWith (runStopHandlers depth) r h).1.2 = some (.fault f) →
    ∃ t ∈ s.stopTurns depth r h, t.event.raised? = some f
  alive : ∀ f, (s.stopWith (runStopHandlers depth) r h).1.1.body.failure = some f →
    ∃ t ∈ s.stopTurns depth r h, t.event.raised? = some f

variable {s : Sequence} {r : Surroundings} {h : Host}

theorem failure_of_live (hs : s.body.isEnded = false) : s.body.failure = none := by
  simp only [SequenceBody.isEnded, Bool.or_eq_false_iff] at hs
  exact isFailed_eq_false.mp hs.2

theorem stopTurns_of_cut {depth : Nat} {why : Halt}
    (hc : (stopAllWith (runStopHandlers depth) s.children r h).1.2 = some why) :
    s.stopTurns depth r h = [] := by
  cases depth with
  | zero => rfl
  | succ depth => simp only [stopTurns, hc, Option.isSome_some, if_true]

theorem stopTurns_goOn (depth : Nat) (s : Sequence) (r : Surroundings) (h : Host) :
    (s.stopTurns depth r h).Pairwise fun t _ => t.event.goesOn = true := by
  cases depth with
  | zero => exact .nil
  | succ depth =>
    rw [stopTurns]
    split
    · exact .nil
    · exact handlerTurns_goOn ..

/-- Stop handlers end with the fault that their last turn has, and leave it as the failure. -/
theorem runStopHandlers_outcome (hf : s.isFailed = false) (depth : Nat) (f : Fault) :
    let x := runStopHandlers (depth + 1) s r h
    (x.1.1.body.failure = some f ↔ x.1.2 = some (.fault f)) ∧
      (x.1.2 = some (.fault f) ↔
        ∃ t ∈ handlerTurns (runStopHandlers depth) r.fuel s.body.routine.onStop s r h,
          ∃ e, t.event = .halted e (.fault f)) := by
  have hb := runHandlers_failure (runStopHandlers depth) r.fuel s.body.routine.onStop s r h
  rw [← runHandlers_fault_iff, runStopHandlers, Tick.run_read_bind, Tick.run_bind]
  generalize runHandlers (runStopHandlers depth) r.fuel s.body.routine.onStop s r h = x at hb
  obtain ⟨⟨s', halt⟩, h'⟩ := x
  have hs : s'.isFailed = false := isFailed_eq_false.mpr (hb.trans (isFailed_eq_false.mp hf))
  obtain ⟨hh, _, ho⟩ := settle_outcome hs halt r h'
  dsimp only
  exact ⟨by rw [ho, hh], by rw [hh]⟩

/-- A fault below comes back as it is, and leaves the sequence stopped. -/
theorem stopContained_of_cut {depth : Nat} (hs : s.body.isEnded = false) {why : Halt}
    (hc : (stopAllWith (runStopHandlers depth) s.children r h).1.2 = some why) :
    s.StopContained depth r h ↔ ∀ f, why ≠ .fault f := by
  have hx : (s.stopWith (runStopHandlers depth) r h).1 =
      (mk s.body.halted (stopAllWith (runStopHandlers depth) s.children r h).1.1, some why) := by
    simp only [stopWith_of_live _ hs, Tick.run_bind, hc, Option.isSome_some, if_true,
      Tick.run_pure]
  constructor
  · intro hown f hw
    obtain ⟨t, hm, _⟩ := hown.own f (by rw [hx, hw])
    rw [stopTurns_of_cut hc] at hm
    cases hm
  · intro hw
    refine ⟨fun f he => ?_, fun f he => ?_⟩
    · rw [hx] at he
      exact absurd (Option.some.inj he) (hw f)
    · rw [hx] at he
      have he : s.body.failure = some f := he
      rw [failure_of_live hs] at he
      cases he

/-- If its children stop without a fault, a stop contains them unless its own handlers hand one up.
-/
theorem stopContained_of_children {depth : Nat} (hs : s.body.isEnded = false)
    (hc : (stopAllWith (runStopHandlers depth) s.children r h).1.2 = none) :
    s.StopContained depth r h ↔ ∀ t ∈ s.stopTurns depth r h, t.event.handsUp = false := by
  have hx : s.stopWith (runStopHandlers depth) r h = runStopHandlers depth
      (mk s.body.halted (stopAllWith (runStopHandlers depth) s.children r h).1.1) r
      (stopAllWith (runStopHandlers depth) s.children r h).2 := by
    simp only [stopWith_of_live _ hs, Tick.run_bind, hc, Option.isSome_none, Bool.false_eq_true,
      if_false]
  cases depth with
  | zero =>
    -- The handlers do not even begin.
    refine iff_of_true ⟨fun f he => ?_, fun f he => ?_⟩ (by simp [stopTurns])
    · rw [hx] at he
      cases he
    · rw [hx] at he
      have he : s.body.failure = some f := he
      rw [failure_of_live hs] at he
      cases he
  | succ depth =>
    have hf (cs : List Sequence) : (mk s.body.halted cs).isFailed = false :=
      isFailed_eq_false.mpr (show s.body.failure = none from failure_of_live hs)
    have ho := runStopHandlers_outcome (r := r)
      (h := (stopAllWith (runStopHandlers (depth + 1)) s.children r h).2)
      (hf (stopAllWith (runStopHandlers (depth + 1)) s.children r h).1.1) depth
    have ht : s.stopTurns (depth + 1) r h = handlerTurns (runStopHandlers depth) r.fuel
        s.body.routine.onStop
        (mk s.body.halted (stopAllWith (runStopHandlers (depth + 1)) s.children r h).1.1) r
        (stopAllWith (runStopHandlers (depth + 1)) s.children r h).2 := by
      simp only [stopTurns, hc, Option.isSome_none, Bool.false_eq_true, if_false]
    rw [← hx] at ho
    rw [← raised_iff_of_turns (s.stopTurns_goOn (depth + 1) r h)
      fun f => by rw [ht]; exact (ho f).2]
    exact ⟨StopContained.own, fun hown => ⟨hown, fun f he => hown f ((ho f).1.mp he)⟩⟩

theorem stopContained_iff (depth : Nat) (hs : s.body.isEnded = false) :
    s.StopContained depth r h ↔
      (∀ f, (stopAllWith (runStopHandlers depth) s.children r h).1.2 ≠ some (.fault f)) ∧
        ∀ t ∈ s.stopTurns depth r h, t.event.handsUp = false := by
  cases hc : (stopAllWith (runStopHandlers depth) s.children r h).1.2 with
  | none => simp [stopContained_of_children hs hc]
  | some why => simp [stopContained_of_cut hs hc, stopTurns_of_cut hc]

end Stops

/-- The faults of children stay with them, in every tick of every run and in every stop, exactly
when no effect hands one up and, for a stop, no child does. -/
theorem faults_contained_iff {s : Sequence} (hf : s.isFailed = false) :
    (∀ ms, s.Returns ms →
      (s.ContainedRun ms ↔ ∀ t ∈ s.turns ms, t.event.handsUp = false)) ∧
      ∀ depth r h, s.body.stopped = false →
        (s.StopContained depth r h ↔
          (∀ f, (stopAllWith (runStopHandlers depth) s.children r h).1.2 ≠ some (.fault f)) ∧
            ∀ t ∈ s.stopTurns depth r h, t.event.handsUp = false) := by
  refine ⟨fun ms hr => containedRun_iff hf hr, fun depth r h hs => stopContained_iff depth ?_⟩
  simp only [SequenceBody.isEnded, Bool.or_eq_false_iff]
  exact ⟨hs, hf⟩

def parentOf (effects inner innerStop : List Effect) : Sequence :=
  ofLists 0 effects [] [] [ofLists 1 inner [] innerStop []]

/-- A child that fails as it moves is dropped, and its parent goes on. -/
theorem parentOf_fault_contained :
    let s := parentOf [⟨100, 0, .wait⟩] [⟨0, 0, .endBlock⟩] []
    s.isFailed = false ∧ s.body.stopped = false ∧ s.Returns [.bare, .bare] ∧
      s.ContainedRun [.bare, .bare] ∧ s.StopContained 100 .bare .fresh ∧
      (s.ticked .bare).1.1.children.length = 0 := by
  intro s
  have hf : s.isFailed = false := by decide +kernel
  have hr : s.Returns [.bare, .bare] := ⟨by decide +kernel, by decide +kernel, trivial⟩
  have hc := faults_contained_iff hf
  refine ⟨hf, rfl, hr, (hc.1 _ hr).mpr (by decide +kernel),
    (hc.2 100 .bare .fresh rfl).mpr ⟨fun f he => ?_, by decide +kernel⟩, by decide +kernel⟩
  have hn : (stopAllWith (runStopHandlers 100) s.children .bare .fresh).1.2 = none := by
    decide +kernel
  rw [hn] at he
  cases he

/-- The stop handlers of a child end its parent: by an effect of the parent that stops the child,
and by a stop of the parent. -/
theorem parentOf_fault_handed_up :
    let handlers := [⟨0, 0, .endBlock⟩]
    let s := parentOf [⟨0, 0, .stopRoutine ResourceId.none⟩] [⟨100, 0, .wait⟩] handlers
    s.isFailed = false ∧ s.body.stopped = false ∧
      (s.ticked .bare).1.1.isFailed = true ∧
      (s.tickTurns .bare).map (·.event.raised?) = [none] ∧
      (s.tickTurns .bare).map (·.event.handsUp) = [true] ∧
      (s.stop .bare .fresh).1.2 = some (.fault s.body.control.underflow) ∧
      (s.stopTurns 100 .bare .fresh).isEmpty = true := by
  decide +kernel

end Sequence
end EffectMachine
