import EffectMachine.Proofs.Sequence.Gates
import EffectMachine.Proofs.Sequence.Nesting

namespace EffectMachine

def Effect.undelayed (e : Effect) : Effect := { e with delay := 0 }

def Pending.undelayed (p : Pending) : Pending := { p with effect := p.effect.undelayed }

/-- Does no choice take in an effect that has a delay? -/
def Directory.SplicesFreely (d : Directory) : Prop :=
  ∀ origin e new, d.Splices origin e new → ∀ e' ∈ new, e'.delay = 0

theorem Effect.undelayed_of_zero {e : Effect} (h : e.delay = 0) : e.undelayed = e := by
  cases e
  cases h
  rfl

theorem pendingOf_undelayed (es : List Effect) :
    (SequenceBody.pendingOf es).map Pending.undelayed =
      SequenceBody.pendingOf (es.map Effect.undelayed) := by
  simp [SequenceBody.pendingOf, Pending.undelayed, Function.comp_def]

namespace SequenceBody

variable {s : SequenceBody} {e : Effect}

def holding (s : SequenceBody) (queue : List Pending) (budget : Scalar) : SequenceBody :=
  { s with queue, budget }

/-- A delay is for the loop that runs the effect; but a gate goes back as it came. -/
theorem perform_undelayed (s : SequenceBody)
    (hg : ∀ start finish, e.action ≠ .timeOfDayGate start finish) :
    s.perform e.undelayed = s.perform e := by
  unfold perform
  refine bind_congr fun r => ?_
  rw [show SideEffect.of? r.scene s.binding e.undelayed = SideEffect.of? r.scene s.binding e
    from rfl]
  cases SideEffect.of? r.scene s.binding e with
  | some sideEffect => rfl
  | none =>
    obtain ⟨delay, duration, action⟩ := e
    cases action with
    | timeOfDayGate start finish => exact absurd rfl (hg start finish)
    | _ => rfl

/-- With other work and other frames, and without its delay, an effect does the same, unless it is a
gate that goes back. -/
theorem perform_holding (s : SequenceBody) (e : Effect) (queue : List Pending) (budget : Scalar)
    (r : Surroundings) (h : Host) (hn : (s.perform e r h).1.2 ≠ .hold) :
    (s.holding queue budget).perform e.undelayed r h =
      (((s.perform e r h).1.1.holding queue budget, (s.perform e r h).1.2),
        (s.perform e r h).2) := by
  cases hc : e.action.isControl with
  | true =>
    have hc' : e.undelayed.action.isControl = true := hc
    have hl : (s.holding queue budget).loads e.undelayed.action = s.loads e.action := by
      rw [show e.undelayed.action = e.action from rfl]
      cases e.action <;> rfl
    rw [perform_control _ hc', perform_control _ hc, hl]
    simp only [Tick.run_bind]
    rw [show (s.holding queue budget).control = s.control from rfl,
      show e.undelayed.action = e.action from rfl]
    cases s.control.apply (s.loads e.action r h).1 e.action <;> rfl
  | false =>
    by_cases hg : ∃ start finish, e.action = .timeOfDayGate start finish
    · obtain ⟨start, finish, ha⟩ := hg
      rw [s.perform_gate ha, passGate, Tick.run_read_bind] at hn ⊢
      rw [perform_gate _ (show e.undelayed.action = _ from ha), passGate, Tick.run_read_bind]
      split
      · rfl
      next hw =>
        rw [if_neg hw] at hn
        exact absurd rfl hn
    · have hg : ∀ start finish, e.action ≠ .timeOfDayGate start finish :=
        fun start finish ha => hg ⟨start, finish, ha⟩
      have hq := s.perform_retuned (fun c => c) (fun q => q) (fun _ => queue) (fun _ => budget) e hc
        (fun _ _ => rfl) fun start finish ha => absurd ha (hg start finish)
      rw [perform_undelayed _ hg]
      exact congrFun (congrFun hq r) h

end SequenceBody

namespace Sequence

variable {run : StopHandlers Tick} {s s' : Sequence} {e : Effect} {r : Surroundings} {h : Host}
  {queue rest : List Pending} {budget : Scalar} {next : Next}

def holding (s : Sequence) (queue : List Pending) (budget : Scalar) : Sequence :=
  s.mapBody (·.holding queue budget)

def undelayed (s : Sequence) : Sequence :=
  s.mapBody fun body => { body with queue := body.queue.map Pending.undelayed }

/-- Drains what waits, and what is put in its place, without delays, until nothing waits. -/
def drainFreely (run : StopHandlers Tick) : Nat → Sequence → Tick (Sequence × Option Halt)
  | 0, s => return (s, some .outOfFuel)
  | n + 1, s => do
    if s.body.queue.isEmpty then return (s, none)
    let (s, event) ← s.undelayed.drainStep run
    if event.goesOn then drainFreely run n s else return (s, event.halt?)

@[simp] theorem holding_body (s : Sequence) (queue : List Pending) (budget : Scalar) :
    (s.holding queue budget).body = s.body.holding queue budget := by
  rw [holding, body_mapBody]

theorem undelayed_holding (s : Sequence) (queue : List Pending) (budget : Scalar) :
    (s.holding queue budget).undelayed = s.holding (queue.map Pending.undelayed) budget := by
  cases s
  rfl

theorem skips_holding (s : Sequence) (e : Effect) (queue : List Pending) (budget : Scalar) :
    (s.holding queue budget).skips e.undelayed = s.skips e := by
  cases s
  rfl

theorem execute_holding (run : StopHandlers Tick) (s : Sequence) (e : Effect)
    (queue : List Pending) (budget : Scalar) (r : Surroundings) (h : Host)
    (hn : (s.execute run e r h).1.2 ≠ .hold) :
    (s.holding queue budget).execute run e.undelayed r h =
      (((s.execute run e r h).1.1.holding queue budget, (s.execute run e r h).1.2),
        (s.execute run e r h).2) := by
  have hp := s.body.perform_holding e queue budget r h fun hf =>
    hn ((execute_body run s e r h).2.mpr hf)
  cases s with
  | mk body children =>
    simp only [execute, holding, mapBody, body_mk, children_mk, Tick.run_bind, hp] at hp ⊢
    generalize body.perform e r h = x
    obtain ⟨⟨body', flow⟩, h'⟩ := x
    cases flow <;> rfl

/-- A turn that starts no child to wait for leaves the blockers as they were. -/
theorem blockers_of_not_starts (hx : (s.execute run e r h).1 = (s', next))
    (hs : ∀ c, ¬Turn.Starts ⟨r, h, s, .ran e, s'⟩ c) : s'.body.blockers = s.body.blockers := by
  have ha := s.body.perform_awaits e r h
  rw [execute, Tick.run_bind] at hx
  generalize s.body.perform e r h = x at ha hx
  obtain ⟨⟨body, flow⟩, h'⟩ := x
  cases flow with
  | spawned child =>
    cases hx
    have hblockers : body.blockers = _ := ha.2
    rw [body_mk, hblockers, if_neg fun hb => hs child ⟨⟨e, rfl, hb⟩, rfl⟩]
  | stopRoutine id =>
    cases hx
    exact ha
  | proceed | splice | hold | fault =>
    cases hx
    exact ha

section Loops

variable {es : List Effect}

theorem drainStep_holding_skips (run : StopHandlers Tick) (hb : s.body.blockers = [])
    (hs : s.skips e = true) :
    (s.holding (⟨e.undelayed, false⟩ :: rest) budget).drainStep run =
      pure (s.holding rest budget, .skipped e.undelayed) := by
  have hs' := (s.skips_holding e (⟨e.undelayed, false⟩ :: rest) budget).trans hs
  rw [drainStep_of_skips run _ (by simpa [SequenceBody.holding] using hb) (by simp; rfl) hs']
  cases s
  rfl

/-- An entry without delay costs nothing, so it runs. -/
theorem drainStep_holding (run : StopHandlers Tick) (hb : s.body.blockers = [])
    (hs : s.skips e = false) (hp : ¬budget < 0) (hn : (s.execute run e r h).1.2 ≠ .hold) :
    (s.holding (⟨e.undelayed, false⟩ :: rest) budget).drainStep run r h =
      (concluded e.undelayed ((s.execute run e r h).1.1.holding rest (budget - 0),
        (s.execute run e r h).1.2), (s.execute run e r h).2) := by
  have hs' := (s.skips_holding e (⟨e.undelayed, false⟩ :: rest) budget).trans hs
  have ht : (s.holding (⟨e.undelayed, false⟩ :: rest) budget).takeHead ⟨e.undelayed, false⟩ rest =
      s.holding rest (budget - 0) := by
    cases s
    rfl
  have hpaid : ¬((s.holding (⟨e.undelayed, false⟩ :: rest) budget).body.charge
      ⟨e.undelayed, false⟩ rest).budget < 0 := by
    rw [holding_body]
    exact Scalar.sub_zero_not_neg hp
  rw [drainStep_of_paid run _ (by simpa [SequenceBody.holding] using hb) (by simp; rfl) hs' hpaid,
    Tick.run_map, ht, execute_holding run s e _ _ r h hn]

theorem drainStep_holding_proceeds {h' : Host} (hb : s.body.blockers = [])
    (hs : s.skips e = false) (hp : ¬budget < 0)
    (hx : s.execute run e r h = ((s', .proceed), h')) :
    (s.holding (⟨e.undelayed, false⟩ :: rest) budget).drainStep run r h =
      ((s'.holding rest (budget - 0), .ran e.undelayed), h') := by
  rw [drainStep_holding run hb hs hp (by rw [hx]; nofun), hx]
  rfl

theorem drainStep_holding_splices {h' : Host} {new : List Effect} (hb : s.body.blockers = [])
    (hs : s.skips e = false) (hp : ¬budget < 0)
    (hx : s.execute run e r h = ((s', .splice new), h')) :
    (s.holding (⟨e.undelayed, false⟩ :: rest) budget).drainStep run r h =
      ((s'.holding (SequenceBody.pendingOf new ++ rest) (budget - 0), .ran e.undelayed), h') := by
  rw [drainStep_holding run hb hs hp (by rw [hx]; nofun), hx]
  cases s'
  rfl

def Undelayed (queue : List Pending) : Prop := ∀ p ∈ queue, p.effect.delay = 0

theorem Undelayed.eq (h : Undelayed queue) : queue.map Pending.undelayed = queue := by
  refine List.map_congr_left (fun p hp => ?_) |>.trans (List.map_id queue)
  rw [Pending.undelayed, Effect.undelayed_of_zero (h p hp)]
  rfl

theorem undelayed_pendingOf {new : List Effect} (h : ∀ e ∈ new, e.delay = 0) :
    Undelayed (SequenceBody.pendingOf new) := by
  intro p hp
  obtain ⟨e, he, rfl⟩ := List.mem_map.mp hp
  exact h e he

/-- A queue that leads to where handlers lead: both draining loops come there, the one that drops
the delays, and where there are none the real one, in as many turns as the handlers take. -/
def LeadsTo (run : StopHandlers Tick) (r : Surroundings) (h : Host) (n turns : Nat) (s : Sequence)
    (queue : List Pending) (budget : Scalar) (x : (Sequence × Option Halt) × Host) : Prop :=
  ∃ b, (s.holding queue budget).drainFreely run n r h = ((x.1.1.holding [] b, none), x.2) ∧
    (r.directory.SplicesFreely → Undelayed queue → ∀ m,
      (s.holding queue budget).drain run (turns + m) r h =
        (x.1.1.holding [] b).drain run m r x.2)

theorem LeadsTo.done (n : Nat) (hb : s.body.blockers = []) :
    LeadsTo run r h (n + 1) 0 s [] budget
      ((s.mapBody fun body => { body with blockers := [] }, none), h) := by
  have hs : s.mapBody (fun body => { body with blockers := [] }) = s := by
    cases s with
    | mk body children =>
      cases body
      cases hb
      rfl
  rw [hs]
  refine ⟨budget, ?_, fun _ _ m => ?_⟩
  · rw [drainFreely, if_pos (by simp [SequenceBody.holding])]
    rfl
  · rw [Nat.zero_add]

/-- One turn of the draining loops, and then the others. -/
theorem LeadsTo.step {n turns : Nat} {queue' : List Pending} {budget' : Scalar} {event : DrainEvent}
    {h' : Host} {x : (Sequence × Option Halt) × Host} (hq : queue ≠ [])
    (hs : (s.holding (queue.map Pending.undelayed) budget).drainStep run r h =
      ((s'.holding queue' budget', event), h')) (hg : event.goesOn = true)
    (hu : r.directory.SplicesFreely → Undelayed queue')
    (hrest : LeadsTo run r h' n turns s' queue' budget' x) :
    LeadsTo run r h (n + 1) (turns + 1) s queue budget x := by
  obtain ⟨b, hfreely, hdrain⟩ := hrest
  refine ⟨b, ?_, fun hfree hzero m => ?_⟩
  · have hne : ¬(s.holding queue budget).body.queue.isEmpty = true := by
      simpa [SequenceBody.holding] using hq
    rw [drainFreely, if_neg hne, Tick.run_bind, undelayed_holding, hs]
    dsimp only
    rw [if_pos hg]
    exact hfreely
  · rw [hzero.eq] at hs
    rw [Nat.add_right_comm, drain_succ, hs]
    dsimp only
    rw [if_pos hg]
    exact hdrain hfree (hu hfree) m

/-- By induction on the fuel of the handlers. -/
theorem leadsTo_of_handlers (n : Nat) (hq : queue.map Pending.undelayed =
      SequenceBody.pendingOf (es.map Effect.undelayed))
    (hb : s.body.blockers = []) (hp : ¬budget < 0)
    (hx : (runHandlers run n es s r h).1.2 = none)
    (ht : ∀ t ∈ handlerTurns run n es s r h, (∀ e, t.event ≠ .held e) ∧ ∀ c, ¬t.Starts c) :
    LeadsTo run r h n (handlerTurns run n es s r h).length s queue budget
      (runHandlers run n es s r h) := by
  induction n generalizing es s h queue budget with
  | zero => cases hx
  | succ n ih =>
    cases es with
    | nil =>
      obtain rfl : queue = [] := List.map_eq_nil_iff.mp hq
      exact .done n hb
    | cons e es =>
      have hne : queue ≠ [] := by
        rintro rfl
        cases hq
      -- What waits behind the head, as both loops find it.
      generalize hw : SequenceBody.pendingOf (es.map Effect.undelayed) = rest at *
      have hrest : rest.map Pending.undelayed =
          SequenceBody.pendingOf (es.map Effect.undelayed) := by
        rw [← hw, pendingOf_undelayed, List.map_map]
        rfl
      have hzero : Undelayed rest := hw ▸ undelayed_pendingOf (by simp [Effect.undelayed])
      have hfirst : queue.map Pending.undelayed = ⟨e.undelayed, false⟩ :: rest := hw ▸ hq
      rw [runHandlers] at hx ⊢
      rw [handlerTurns] at ht ⊢
      cases hk : s.skips e with
      | true =>
        simp only [hk, if_true] at hx ht ⊢
        have hs : (s.holding (queue.map Pending.undelayed) budget).drainStep run r h =
            ((s.holding rest budget, .skipped e.undelayed), h) := by
          rw [hfirst, drainStep_holding_skips run hb hk]
          rfl
        exact .step hne hs rfl (fun _ => hzero)
          (ih hrest hb hp hx (List.forall_mem_cons.mp ht).2)
      | false =>
        simp only [hk, Bool.false_eq_true, if_false, Tick.run_bind] at hx ht ⊢
        obtain ⟨⟨⟨s', next⟩, h'⟩, he⟩ : ∃ x, s.execute run e r h = x := ⟨_, rfl⟩
        rw [he] at hx ht ⊢
        have hp' : ¬budget - 0 < 0 := Scalar.sub_zero_not_neg hp
        have hb' (hc : ∀ c, ¬Turn.Starts ⟨r, h, s, .ran e, s'⟩ c) : s'.body.blockers = [] :=
          (blockers_of_not_starts (congrArg Prod.fst he) hc).trans hb
        cases next with
        | proceed =>
          obtain ⟨ht', ht⟩ := List.forall_mem_cons.mp ht
          exact .step hne (hfirst ▸ drainStep_holding_proceeds hb hk hp he) rfl (fun _ => hzero)
            (ih hrest (hb' ht'.2) hp' hx ht)
        | splice new =>
          obtain ⟨ht', ht⟩ := List.forall_mem_cons.mp ht
          have hw' : (SequenceBody.pendingOf new ++ rest).map Pending.undelayed =
              SequenceBody.pendingOf ((new ++ es).map Effect.undelayed) := by
            rw [List.map_append, hrest, pendingOf_undelayed, List.map_append]
            exact List.map_append.symm
          have hzero' (hfree : r.directory.SplicesFreely) :
              Undelayed (SequenceBody.pendingOf new ++ rest) :=
            List.forall_mem_append.mpr ⟨undelayed_pendingOf
              (hfree _ _ _ (execute_splices (congrArg (·.1.2) he))), hzero⟩
          exact .step hne (hfirst ▸ drainStep_holding_splices hb hk hp he) rfl hzero'
            (ih hw' (hb' ht'.2) hp' hx ht)
        | hold => exact absurd rfl ((ht _ List.mem_cons_self).1 e)
        | halt why => cases hx

end Loops

def withBudget (s : Sequence) (budget : Scalar) : Sequence :=
  s.mapBody fun body => { body with budget }

def enqueued (s : Sequence) (es : List Effect) : Sequence := s.mapBody (·.enqueue es)

theorem holding_eq_enqueued (hq : s.body.queue = []) (es : List Effect) :
    s.holding (SequenceBody.pendingOf es) s.body.budget = s.enqueued es := by
  obtain ⟨body, children⟩ := s
  have hq : body.queue = [] := hq
  simp [holding, enqueued, mapBody, SequenceBody.holding, SequenceBody.enqueue, hq]

theorem holding_eq_withBudget (hq : s.body.queue = []) (budget : Scalar) :
    s.holding [] budget = s.withBudget budget := by
  obtain ⟨body, children⟩ := s
  have hq : body.queue = [] := hq
  simp [holding, withBudget, mapBody, SequenceBody.holding, hq]

/-- Handlers that start no child to wait for, and come to no closed gate and to no bad end, do what
the draining loop does with the same effects, all delays dropped, until nothing waits: they leave
the same sequence, but for the frames it has, and the same world. Where no choice takes in a delay,
the loop is the real one, and takes one turn for each of theirs. -/
theorem handlers_drain_alike (run : StopHandlers Tick) (n : Nat) (es : List Effect) (s : Sequence)
    (r : Surroundings) (h : Host) (hq : s.body.queue = []) (hb : s.body.blockers = [])
    (hp : ¬s.body.budget < 0) (hx : (runHandlers run n es s r h).1.2 = none)
    (ht : ∀ t ∈ handlerTurns run n es s r h, (∀ e, t.event ≠ .held e) ∧ ∀ c, ¬t.Starts c) :
    let x := runHandlers run n es s r h
    x.1.1.body.queue = [] ∧
      (∃ b, (s.enqueued es).drainFreely run n r h = ((x.1.1.withBudget b, none), x.2)) ∧
      (r.directory.SplicesFreely → ∃ b, ∀ m,
        (s.enqueued (es.map Effect.undelayed)).drain run
          ((handlerTurns run n es s r h).length + m) r h =
            (x.1.1.withBudget b).drain run m r x.2) := by
  intro x
  have hqx : x.1.1.body.queue = [] := runHandlers_queue run n es s hq r h
  have hzero : Undelayed (SequenceBody.pendingOf (es.map Effect.undelayed)) :=
    undelayed_pendingOf (by simp [Effect.undelayed])
  obtain ⟨b, hfreely, -⟩ := leadsTo_of_handlers n (pendingOf_undelayed es) hb hp hx ht
  obtain ⟨b', -, hdrain⟩ := leadsTo_of_handlers n hzero.eq hb hp hx ht
  rw [holding_eq_enqueued hq, holding_eq_withBudget hqx] at hfreely
  refine ⟨hqx, ⟨b, hfreely⟩, fun hfree => ⟨b', fun m => ?_⟩⟩
  rw [← holding_eq_enqueued hq, ← holding_eq_withBudget hqx]
  exact hdrain hfree hzero m

/-- Where the only routine there is flashes, after so many frames. -/
def refrain (delay : UInt16) : Surroundings :=
  let routine : Routine := ⟨⟨1, 0, 0, 0⟩, ResourcePath.root,
    [⟨delay, 0, .screenFlash Color.white⟩], [], [], false⟩
  let directory := ({} : Directory).insert ResourcePath.root routine.id (.routine routine)
  { Surroundings.bare with directory }

def coda : List Effect :=
  [⟨5, 0, .randomRoutine [⟨1, 0, 0, 0⟩]⟩, ⟨0, 0, .beginBlock⟩, ⟨2, 0, .condition 0 (.constant 1)⟩,
    ⟨0, 0, .branch true⟩, ⟨9, 0, .screenFlash Color.white⟩, ⟨0, 0, .endBlock⟩,
    ⟨3, 0, .screenFlash Color.white⟩]

theorem refrain_splicesFreely : (refrain 0).directory.SplicesFreely := by
  rintro origin e _ ⟨choices, id, routine, -, -, found⟩ e' he
  obtain ⟨path, hentry⟩ := Directory.exists_entry_of_routine? found
  obtain ⟨-, hr⟩ := Prod.mk.inj (List.mem_singleton.mp hentry)
  obtain rfl := Resource.routine.inj hr
  rw [List.mem_singleton.mp he]

theorem coda_drains_alike :
    let s := ofLists 0 [] [] [] []
    let x (delay : UInt16) :=
      runHandlers (runStopHandlers 9) 9 coda s (refrain delay) .fresh
    (∃ b, (s.enqueued coda).drainFreely (runStopHandlers 9) 9 (refrain 7) .fresh =
        (((x 7).1.1.withBudget b, none), (x 7).2)) ∧
      (∃ b, ∀ m, (s.enqueued (coda.map Effect.undelayed)).drain (runStopHandlers 9) (8 + m)
        (refrain 0) .fresh = ((x 0).1.1.withBudget b).drain (runStopHandlers 9) m (refrain 0)
          (x 0).2) ∧
      (x 7).2.stage.commands.length = 2 := by
  intro s x
  have meets (delay : UInt16) (hkey : ∀ t ∈ handlerTurns (runStopHandlers 9) 9 coda s
      (refrain delay) .fresh, t.event.isHeldUp = false ∧
        t.after.children.length = t.before.children.length) :
      ∀ t ∈ handlerTurns (runStopHandlers 9) 9 coda s (refrain delay) .fresh,
        (∀ e, t.event ≠ .held e) ∧ ∀ c, ¬t.Starts c := by
    refine fun t hm => ⟨fun e he => ?_, fun c hc => ?_⟩
    · have hheld := (hkey t hm).1
      rw [he] at hheld
      cases hheld
    · have hlength := (hkey t hm).2
      rw [hc.child, List.length_append, List.length_singleton] at hlength
      omega
  have hall := handlers_drain_alike (runStopHandlers 9) 9 coda s (refrain 7) .fresh rfl rfl
    (by decide +kernel) (by decide +kernel) (meets 7 (by decide +kernel))
  have hreal := handlers_drain_alike (runStopHandlers 9) 9 coda s (refrain 0) .fresh rfl rfl
    (by decide +kernel) (by decide +kernel) (meets 0 (by decide +kernel))
  have hlength : (handlerTurns (runStopHandlers 9) 9 coda s (refrain 0) .fresh).length = 8 := by
    decide +kernel
  refine ⟨hall.2.1, ?_, by decide +kernel⟩
  rw [← hlength]
  exact hreal.2.2 refrain_splicesFreely

end Sequence
end EffectMachine
