import EffectMachine.Proofs.Sequence.BlockHandlers

namespace EffectMachine

namespace Sequence

def Turn.loads (t : Turn) (e : Effect) : Int32 :=
  (t.before.body.loads e.action t.surroundings t.host).1

def worldsOf (ts : List Turn) : List Turn := ts.filter fun t => !t.event.leaf.isEmpty

def takenOf (ts : List Turn) : List Effect := ts.filterMap (·.event.taken?)

theorem loads_takeHead (s : Sequence) (head : Pending) (rest : List Pending) (a : Action) :
    (s.takeHead head rest).body.loads a = s.body.loads a := by
  have hc : (s.body.charge head rest).loads a = s.body.loads a := by
    unfold SequenceBody.charge
    split <;> cases a <;> rfl
  rw [← hc]
  cases a <;> rfl

/-- What a turn does to the effects that wait: nothing, or it takes the first of them. -/
inductive Turn.Progress (run : StopHandlers Tick) (t : Turn) : Prop where
  | idle (leaf : t.event.leaf = []) (taken : t.event.taken? = none)
      (work : t.after.body.work = t.before.body.work)
      (control : t.after.body.control = t.before.body.control)
  | foundEmpty (found : t.event.foundEmpty = true) (work : t.before.body.work = [])
  | skipped (e : Effect) (rest : List Effect) (event : t.event = .skipped e)
      (skips : t.before.skips e = true) (work : t.before.body.work = e :: rest)
      (left : t.after.body.work = rest) (control : t.after.body.control = t.before.body.control)
  | ran (e : Effect) (rest : List Effect) (s : Sequence) (next : Next)
      (control : s.body.control = t.before.body.control)
      (loads : s.body.loads e.action = t.before.body.loads e.action) (skips : s.skips e = false)
      (done : (s.execute run e t.surroundings t.host).1 = (t.after, next))
      (leaf : t.event.leaf = Live.record e .proceed) (taken : t.event.taken? = some e)
      (work : t.before.body.work = e :: rest) (left : t.after.body.work = rest)
      (fault : (∃ f, next = .halt (.fault f)) → t.event.isFault = true)
  | spliced (e : Effect) (rest : List Effect) (choices : List ResourceId)
      (action : e.action = .randomRoutine choices) (taken : t.event.taken? = some e)
      (work : t.before.body.work = e :: rest)

/-- Every turn of the draining loop leaves the queue alone or takes its head. -/
theorem Turn.IsStep.progress {t : Turn} (h : t.IsStep) :
    t.Progress (runStopHandlers t.surroundings.fuel) := by
  have hd := t.before.drainStep_drains (runStopHandlers t.surroundings.fuel) t.surroundings t.host
  rw [IsStep] at h
  rw [h] at hd
  obtain ⟨r, host, s, event, s'⟩ := t
  dsimp only at hd
  have waits {head : Pending} {queue : List Pending} (hq : s.body.queue = head :: queue) :
      s.body.work = head.effect :: queue.map Pending.effect := by
    rw [SequenceBody.work, hq]
    rfl
  have ran {head : Pending} {queue : List Pending} {next : Next} {event : DrainEvent}
      (hq : s.body.queue = head :: queue) (hs : s.skips head.effect = false)
      (done : ((s.takeHead head queue).execute (runStopHandlers r.fuel) head.effect r host).1 =
        (s', next)) (hn : next ≠ .hold) (hl : event.leaf = Live.record head.effect .proceed)
      (ht : event.taken? = some head.effect)
      (hf : (∃ f, next = .halt (.fault f)) → event.isFault = true) :
      Turn.Progress (runStopHandlers r.fuel) ⟨r, host, s, event, s'⟩ := by
    have hc : (s.takeHead head queue).body.control = s.body.control :=
      s.body.charge_control head queue
    refine .ran head.effect (queue.map Pending.effect) (s.takeHead head queue) next hc
      (s.loads_takeHead head queue _) (by rw [skips, hc]; exact hs) done hl ht (waits hq) ?_ hf
    rw [SequenceBody.work, execute_queue done]
    cases next with
    | hold => exact absurd rfl hn
    | _ => rfl
  cases hd with
  | blocked => exact .idle rfl rfl (by cases s; rfl) (by cases s; rfl)
  | dry _ hq => exact .foundEmpty rfl (by rw [SequenceBody.work, hq]; rfl)
  | requeued _ hq => exact .foundEmpty rfl (by rw [SequenceBody.work, hq]; rfl)
  | waiting head queue _ hq =>
    exact .idle rfl rfl (s.body.charge_work head queue hq) (s.body.charge_control head queue)
  | skipped head queue _ hq hs =>
    exact .skipped head.effect _ rfl hs (waits hq) (by cases s; rfl) (by cases s; rfl)
  | ran head queue _ _ hq hs _ done => exact ran hq hs done (by simp) rfl rfl (by simp)
  | spliced head queue _ _ _ hq _ _ done =>
    obtain ⟨choices, ha⟩ := action_of_execute_splice (congrArg Prod.snd done)
    exact .spliced head.effect _ choices ha rfl (waits hq)
  | held head queue s' _ hq _ _ done =>
    have hc := execute_control_eq (runStopHandlers r.fuel) (s.takeHead head queue)
      (control_of_execute_hold (by rw [done])) r host
    rw [done] at hc
    refine .idle rfl rfl ?_ ?_
    · rw [waits hq, SequenceBody.work, body_mapBody, SequenceBody.capBudget, execute_queue done]
      rfl
    · rw [body_mapBody]
      exact hc.trans (s.body.charge_control head queue)
  | halted head queue _ why _ hq hs _ done =>
    refine ran hq hs done (by simp) rfl rfl ?_
    rintro ⟨f, hf⟩
    cases hf
    rfl

end Sequence

/-- Code that runs in worlds that were kept, one for each leaf. Without a world it ends. -/
abbrev Replay := ExceptT Unit (StateM (List Sequence.Turn × List Effect))

namespace Replay

open Sequence

variable {α β : Type}

def leaves : Leaves Replay where
  run e := ExceptT.mk fun (ts, ran) =>
    match ts with
    | [] => (.error (), [], ran)
    | t :: ts => (.ok (t.loads e), ts, ran ++ [e])
  tell _ := pure ()
  fault _ := ExceptT.mk fun x => (.error (), x)

/-- Runs code in the worlds of some turns, with the leaves that ran before. -/
def exec (x : Replay α) (ts : List Turn) (ran : List Effect) :
    Except Unit α × List Turn × List Effect :=
  x.run.run (ts, ran)

/-- Code in sequence runs on in the worlds that the first part has left. -/
theorem exec_bind (x : Replay α) (f : α → Replay β) (ts : List Turn) (ran : List Effect) :
    (x >>= f).exec ts ran =
      match (x.exec ts ran).1 with
      | .ok a => (f a).exec (x.exec ts ran).2.1 (x.exec ts ran).2.2
      | .error i => (.error i, (x.exec ts ran).2) := by
  simp only [exec, ExceptT.run_bind, StateT.run_bind]
  generalize x.run.run (ts, ran) = y
  obtain ⟨(i | a), ts, ran⟩ := y <;> rfl

theorem exec_map (g : α → β) (x : Replay α) (ts : List Turn) (ran : List Effect) :
    (g <$> x).exec ts ran = ((x.exec ts ran).1.map g, (x.exec ts ran).2) := by
  rw [map_eq_pure_bind, exec_bind]
  cases (x.exec ts ran).1 <;> rfl

theorem exec_run_nil (e : Effect) (ran : List Effect) :
    (leaves.run e).exec [] ran = (.error (), [], ran) := rfl

theorem exec_run_cons (e : Effect) (t : Turn) (ts : List Turn) (ran : List Effect) :
    (leaves.run e).exec (t :: ts) ran = (.ok (t.loads e), ts, ran ++ [e]) := rfl

theorem exec_flatStep_nil (c : ControlStack) (e : Effect) (ran : List Effect) :
    ((leaves.flatStep c e).exec [] ran).2 = ([], ran) := by
  cases hb : e.action.isBlockBoundary with
  | true =>
    rw [leaves.flatStep_boundary c hb]
    cases c.apply 0 e.action <;> rfl
  | false =>
    cases hs : c.isSkipping with
    | true => rw [leaves.flatStep_skip hs hb]; rfl
    | false => rw [leaves.flatStep_leaf hs hb, exec_bind, exec_run_nil]

/-- Without a world no leaf runs. -/
theorem exec_flat_nil (es : List Effect) (c : ControlStack) (ran : List Effect) :
    ((leaves.flat es c).exec [] ran).2.2 = ran := by
  induction es generalizing c with
  | nil => rfl
  | cons e es ih =>
    have he := exec_flatStep_nil c e ran
    rw [Leaves.flat_cons, exec_bind]
    generalize (leaves.flatStep c e).exec [] ran = x at he
    obtain ⟨(i | c), y⟩ := x
    · exact congrArg Prod.snd he
    · simp only at he
      subst he
      exact ih c

/-- In the world of its turn a step of the flat machine does what the turn did to the stack. -/
theorem exec_flatStep {run : StopHandlers Tick} {s s' : Sequence} {e : Effect} {next : Next}
    (t : Turn) (hl : s.body.loads e.action = t.before.body.loads e.action)
    (hs : s.skips e = false) (hx : (s.execute run e t.surroundings t.host).1 = (s', next))
    (ts : List Turn) (ran : List Effect) :
    ∃ res, (leaves.flatStep s.body.control e).exec
        (if e.action.isBlockBoundary then ts else t :: ts) ran =
          (res, ts, ran ++ Live.record e .proceed) ∧
      (res = .ok s'.body.control ∨ res = .error () ∧ ∃ f, next = .halt (.fault f)) := by
  have hv : t.loads e = (s.body.loads e.action t.surroundings t.host).1 := by
    rw [hl]
    rfl
  cases hb : e.action.isBlockBoundary with
  | true =>
    have hz : (s.body.loads e.action t.surroundings t.host).1 = 0 := by
      rw [s.body.loads_boundary hb]
      rfl
    simp only [leaves.flatStep_boundary _ hb, if_true, Live.record, hb, List.append_nil]
    rcases execute_control_cases (Action.isControl_of_isBlockBoundary hb) hx with
      ⟨x, ha, hs'⟩ | ⟨f, ha, hf⟩
    · rw [hz] at ha
      rw [ha]
      exact ⟨_, rfl, .inl (by rw [hs'])⟩
    · rw [hz] at ha
      rw [ha]
      exact ⟨_, rfl, .inr ⟨rfl, f, hf⟩⟩
  | false =>
    have hk : s.body.control.isSkipping = false := by simpa [skips, hb] using hs
    rw [leaves.flatStep_leaf hk hb, exec_bind]
    simp only [Bool.false_eq_true, if_false, exec_run_cons, Live.record, hb]
    cases hc : e.action.isControl with
    | true =>
      rw [hv]
      rcases execute_control_cases hc hx with ⟨x, ha, hs'⟩ | ⟨f, ha, hf⟩
      · rw [ha]
        exact ⟨_, rfl, .inl (by rw [hs'])⟩
      · rw [ha]
        exact ⟨_, rfl, .inr ⟨rfl, f, hf⟩⟩
    | false =>
      have he := execute_control_eq run s hc t.surroundings t.host
      rw [hx] at he
      rw [ControlStack.apply_of_not_control _ _ hc]
      exact ⟨_, rfl, .inl (by rw [he])⟩

/-- What the flat machine does in the worlds of some turns is what the turns did. -/
structure Agrees (es : List Effect) (s : Sequence) (ts : List Turn) (ran : List Effect) : Prop where
  runs : ((leaves.flat es s.body.control).exec (worldsOf ts) ran).2.2 = ran ++ leavesOf ts
  order : takenOf ts <+: es
  stack : takenOf ts = es → (∀ t ∈ ts, t.event.foundEmpty = false ∧ t.event.isFault = false) →
    ((leaves.flat es s.body.control).exec (worldsOf ts) ran).1 = .ok (s.lastOf ts).body.control

variable {es : List Effect} {s : Sequence} {t : Turn} {ts : List Turn} {ran : List Effect}

theorem agrees_of_idle (h : Agrees es t.after ts ran) (hl : t.event.leaf = [])
    (ht : t.event.taken? = none) (hc : t.after.body.control = s.body.control) :
    Agrees es s (t :: ts) ran := by
  have hw : worldsOf (t :: ts) = worldsOf ts := by simp [worldsOf, hl]
  have hk : takenOf (t :: ts) = takenOf ts := by simp [takenOf, ht]
  refine ⟨?_, ?_, fun he hf => ?_⟩
  · rw [hw, ← hc, h.runs, leavesOf_cons, hl, List.nil_append]
  · rw [hk]
    exact h.order
  · rw [hw, ← hc, lastOf]
    exact h.stack (hk ▸ he) fun u hu => hf u (List.mem_cons_of_mem _ hu)

/-- A queue found empty ends the code. -/
theorem agrees_of_foundEmpty (h : Agrees [] t.after ts ran) (he : t.event.foundEmpty = true) :
    Agrees [] s (t :: ts) ran := by
  have hl : t.event.leaf = [] := by
    cases hv : t.event <;> first | rfl | simp [hv, DrainEvent.foundEmpty] at he
  have ht : t.event.taken? = none := by
    cases hv : t.event <;> first | rfl | simp [hv, DrainEvent.foundEmpty] at he
  have hr : ran = ran ++ leavesOf ts := h.runs
  refine ⟨?_, ?_, fun _ hf => ?_⟩
  · rw [leavesOf_cons, hl, List.nil_append]
    exact hr
  · simpa [takenOf, ht] using h.order
  · rw [(hf t List.mem_cons_self).1] at he
    cases he

/-- What the flat machine passes over needs no world. -/
theorem agrees_of_skipped {e : Effect} (h : Agrees es t.after ts ran)
    (he : t.event = .skipped e) (hs : s.skips e = true)
    (hc : t.after.body.control = s.body.control) : Agrees (e :: es) s (t :: ts) ran := by
  have hw : worldsOf (t :: ts) = worldsOf ts := by simp [worldsOf, he, DrainEvent.leaf]
  have hk : takenOf (t :: ts) = e :: takenOf ts := by simp [takenOf, he, DrainEvent.taken?]
  simp only [skips, Bool.and_eq_true, Bool.not_eq_true'] at hs
  have hf : leaves.flat (e :: es) s.body.control = leaves.flat es t.after.body.control := by
    rw [Leaves.flat_cons, leaves.flatStep_skip hs.1 hs.2, pure_bind, hc]
  refine ⟨?_, ?_, fun ht hq => ?_⟩
  · rw [hf, hw, h.runs, leavesOf_cons, he]
    rfl
  · rw [hk]
    exact List.cons_prefix_cons.mpr ⟨rfl, h.order⟩
  · rw [hf, hw, lastOf]
    rw [hk] at ht
    exact h.stack (List.cons.inj ht).2 fun u hu => hq u (List.mem_cons_of_mem _ hu)

/-- A turn in which an effect ran is one step of the flat machine. -/
theorem agrees_of_ran {e : Effect} {c : ControlStack}
    (h : Agrees es t.after ts (ran ++ Live.record e .proceed))
    (hl : t.event.leaf = Live.record e .proceed) (ht : t.event.taken? = some e)
    (hf : t.event.isFault = true → ts = []) (hc : s.body.control = c)
    (hstep : ∃ res, (leaves.flatStep c e).exec
        (if e.action.isBlockBoundary then worldsOf ts else t :: worldsOf ts) ran =
          (res, worldsOf ts, ran ++ Live.record e .proceed) ∧
      (res = .ok t.after.body.control ∨ res = .error () ∧ t.event.isFault = true)) :
    Agrees (e :: es) s (t :: ts) ran := by
  have hw : worldsOf (t :: ts) =
      if e.action.isBlockBoundary then worldsOf ts else t :: worldsOf ts := by
    cases hb : e.action.isBlockBoundary <;> simp [worldsOf, hl, Live.record, hb]
  have hk : takenOf (t :: ts) = e :: takenOf ts := by simp [takenOf, ht]
  obtain ⟨res, hx, hres⟩ := hstep
  rw [← hw] at hx
  subst hc
  rcases hres with rfl | ⟨rfl, he⟩
  · have hr : (leaves.flat (e :: es) s.body.control).exec (worldsOf (t :: ts)) ran =
        (leaves.flat es t.after.body.control).exec (worldsOf ts)
          (ran ++ Live.record e .proceed) := by
      rw [Leaves.flat_cons, exec_bind, hx]
    refine ⟨?_, ?_, fun ht hq => ?_⟩
    · rw [hr, h.runs, leavesOf_cons, hl, List.append_assoc]
    · rw [hk]
      exact List.cons_prefix_cons.mpr ⟨rfl, h.order⟩
    · rw [hr, lastOf]
      rw [hk] at ht
      exact h.stack (List.cons.inj ht).2 fun u hu => hq u (List.mem_cons_of_mem _ hu)
  · refine ⟨?_, ?_, fun _ hq => ?_⟩
    · rw [Leaves.flat_cons, exec_bind, hx, leavesOf_cons, hl, hf he, leavesOf_nil, List.append_nil]
    · rw [hk]
      exact List.cons_prefix_cons.mpr ⟨rfl, h.order⟩
    · rw [(hq t List.mem_cons_self).2] at he
      cases he

/-- The next of the effects that wait is the next of the code, as long as any of it is left. -/
theorem uncons_of_taken {e : Effect} {tail rest : List Effect} (ht : t.event.taken? = some e)
    (hw : e :: tail = es ++ rest) (hl : (takenOf (t :: ts)).length ≤ es.length) :
    ∃ es', es = e :: es' ∧ tail = es' ++ rest ∧ (takenOf ts).length ≤ es'.length := by
  have hlen : (takenOf ts).length + 1 ≤ es.length := by simpa [takenOf, ht] using hl
  cases es with
  | nil => simp at hlen
  | cons e' es' =>
    obtain ⟨rfl, hm⟩ := List.cons.inj hw
    exact ⟨es', rfl, hm, by simpa using hlen⟩

/-- Draining is the flat machine, with anything in between. -/
theorem agrees_of_chained {rest : List Effect}
    (hs : s.Chained ts) (hw : s.body.work = es ++ rest)
    (hes : ∀ e ∈ es, ∀ choices, e.action ≠ .randomRoutine choices)
    (ht : (takenOf ts).length ≤ es.length) (ran : List Effect) : Agrees es s ts ran := by
  -- An idle turn leaves the code as it is; any other takes the first of it, while some is left.
  induction ts generalizing s es rest ran with
  | nil =>
    refine ⟨?_, List.nil_prefix, fun he _ => ?_⟩
    · rw [show worldsOf [] = [] from rfl, exec_flat_nil, leavesOf_nil, List.append_nil]
    · rw [← he]
      rfl
  | cons t ts ih =>
    obtain ⟨⟨hq, hc⟩, hstep, hfault, hchain⟩ := hs
    have hb : t.before.body.work = es ++ rest := by
      rw [SequenceBody.work, hq]
      exact hw
    cases hstep.progress with
    | idle leaf taken work control =>
      refine agrees_of_idle (ih hchain (work.trans hb) hes ?_ ran) leaf taken (control.trans hc)
      simpa [takenOf, taken] using ht
    | foundEmpty found work =>
      have he : es = [] := (List.append_eq_nil_iff.mp (hb.symm.trans work)).1
      have hn : t.event.taken? = none := by
        cases hv : t.event <;> first | rfl | simp [hv, DrainEvent.foundEmpty] at found
      have hwork : t.after.body.work = [] ++ t.after.body.work := rfl
      subst he
      refine agrees_of_foundEmpty (ih hchain hwork (by simp) ?_ ran) found
      simpa [takenOf, hn] using ht
    | skipped e tail event skips work left control =>
      have hk : t.event.taken? = some e := by rw [event]; rfl
      obtain ⟨es', rfl, rfl, hl⟩ := uncons_of_taken hk (work.symm.trans hb) ht
      have hsk : s.skips e = true := by rw [Sequence.skips, ← hc]; exact skips
      exact agrees_of_skipped
        (ih hchain left (fun f hf => hes f (List.mem_cons_of_mem _ hf)) hl ran) event hsk
        (control.trans hc)
    | ran e tail s₀ next control loads skips done leaf taken work left fault =>
      obtain ⟨es', rfl, rfl, hl⟩ := uncons_of_taken taken (work.symm.trans hb) ht
      obtain ⟨res, hx, hres⟩ := exec_flatStep t loads skips done (worldsOf ts) ran
      exact agrees_of_ran
        (ih hchain left (fun f hf => hes f (List.mem_cons_of_mem _ hf)) hl _) leaf taken hfault
        (control.trans hc).symm ⟨res, hx, hres.imp id fun hx => ⟨hx.1, fault hx.2⟩⟩
    | spliced e tail choices action taken work =>
      obtain ⟨es', rfl, _⟩ := uncons_of_taken taken (work.symm.trans hb) ht
      exact absurd action (hes e List.mem_cons_self choices)

/-- Draining runs block-structured code as it means, as far as the turns go. Once it is through
without a fault, the control stack is as it was. -/
theorem turns_interpret (b : Blocks false) {rest : List Effect}
    (hs : s.body.control.isSkipping = false) (hw : s.body.work = b.flatten ++ rest)
    (hc : s.Chained ts) (ht : (takenOf ts).length ≤ b.flatten.length) :
    let x := (leaves.interpret s.body.control.routine b {}).exec (worldsOf ts) []
    leavesOf ts = x.2.2 ∧ takenOf ts <+: b.flatten ∧
      (takenOf ts = b.flatten →
        (∀ t ∈ ts, t.event.foundEmpty = false ∧ t.event.isFault = false) →
        (∃ f, x.1 = .ok f) ∧ (s.lastOf ts).body.control = s.body.control) := by
  have ha := agrees_of_chained hc hw b.flatten_stays ht []
  have hf := leaves.flat_flatten b s.body.control (f := {}) rfl fun _ => ⟨hs, rfl⟩
  rw [ControlStack.inside_top] at hf
  have hr := ha.runs
  have hk := ha.stack
  simp only [hf, exec_map, List.nil_append] at hr hk
  refine ⟨hr.symm, ha.order, fun ht hq => ?_⟩
  have hx := hk ht hq
  cases hv : ((leaves.interpret s.body.control.routine b {}).exec (worldsOf ts) []).1 with
  | error i => rw [hv] at hx; cases hx
  | ok f =>
    rw [hv] at hx
    exact ⟨⟨f, rfl⟩, (Except.ok.inj hx).symm⟩

end Replay

section

open Sequence

/-- Block-structured code runs as it means, wherever it begins in code that is not passed over. In
the handlers this holds of the whole tick; in the draining, of any part of a run of ticks that does
not go beyond the code. Code that came to its end leaves the control stack as it was. -/
theorem blocks_run_as_interpreted {es : List Effect} (he : isBlockStructured 0 es = true)
    (s : Sequence) (hs : s.body.control.isSkipping = false) :
    (∃ b : Blocks false, b.flatten = es) ∧ ∀ b : Blocks false, b.flatten = es →
      (∀ (run : StopHandlers Tick) (n : Nat) (r : Surroundings) (h : Host), es.length < n →
        let x := ((Live.leaves run).interpret s.body.control.routine b {}).exec [] s r h
        let end' := Live.finished x.1.1 x.1.2.2
        ∃ control, runHandlers run n es s r h = ((end'.1.withControl control, end'.2), x.2) ∧
          leavesOf (handlerTurns run n es s r h) = x.1.2.1 ∧
          ((∃ f, x.1.1 = .ok f) → control = s.body.control)) ∧
      (∀ (rest : List Effect) (ms : List Moment) (ts : List Turn),
        s.body.work = es ++ rest → ts <+: s.turns ms → (takenOf ts).length ≤ es.length →
        let x := (Replay.leaves.interpret s.body.control.routine b {}).exec (worldsOf ts) []
        leavesOf ts = x.2.2 ∧ takenOf ts <+: es ∧
          (takenOf ts = es →
            (∀ t ∈ ts, t.event.foundEmpty = false ∧ t.event.isFault = false) →
            (∃ f, x.1 = .ok f) ∧ (s.lastOf ts).body.control = s.body.control)) := by
  refine ⟨exists_blocks he, fun b hb => ?_⟩
  subst hb
  refine ⟨fun run n r h hn => Live.handlers_interpret run b hs hn r h, ?_⟩
  intro rest ms ts hw hp hl
  exact Replay.turns_interpret b hs hw ((s.chained_turns ms).of_initial hp) hl

/-- A condition whose branch goes the other way: the leaf after it and the next block are passed
over, and the last leaf runs. -/
def skippedBlock : Blocks false :=
  .block ⟨0, 0⟩ ⟨0, 0⟩
    (.leaf ⟨0, 0, .condition 0 (.constant 1)⟩ rfl <|
      .leaf ⟨0, 0, .branch true⟩ rfl <|
      .leaf ⟨1, 0, .wait⟩ rfl <|
      .block ⟨0, 0⟩ ⟨0, 0⟩ (.leaf ⟨2, 0, .wait⟩ rfl .done) <|
      .leaf ⟨3, 0, .wait⟩ rfl .done)
    .done

theorem skippedBlock_leaves :
    isBlockStructured 0 skippedBlock.flatten = true ∧
      (ofLists 0 [] [] skippedBlock.flatten []).body.control.isSkipping = false ∧
      leavesOf (handlerTurns (runStopHandlers 0) 20 skippedBlock.flatten
        (ofLists 0 [] [] skippedBlock.flatten []) .bare .fresh) =
        [⟨0, 0, .condition 0 (.constant 1)⟩, ⟨0, 0, .branch true⟩, ⟨3, 0, .wait⟩] := by
  have hb : isBlockStructured 0 skippedBlock.flatten = true := by decide
  refine ⟨hb, rfl, ?_⟩
  obtain ⟨control, _, hl, _⟩ := ((blocks_run_as_interpreted hb
    (ofLists 0 [] [] skippedBlock.flatten []) rfl).2 skippedBlock rfl).1 (runStopHandlers 0) 20
    .bare .fresh (by decide)
  exact hl.trans (by decide +kernel)

end

end EffectMachine
