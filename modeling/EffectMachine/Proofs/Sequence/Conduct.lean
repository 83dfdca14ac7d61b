import EffectMachine.Proofs.Hosts
import EffectMachine.Proofs.Sequence.QueueOrder
import EffectMachine.Proofs.Sequence.Nesting

namespace EffectMachine

namespace SequenceBody

def failedWith (s : SequenceBody) (f : Fault) : SequenceBody :=
  { s with queue := [], blockers := [], emitters := stopEmitters s.emitters, failure := some f }

theorem fail_keeps {r : Surroundings} {O : HostOrder} (s : SequenceBody) (f : Fault)
    (hn : ∀ h, O.rel h { h with log := .sequenceFailed s.routine.id f :: h.log }) :
    (s.fail f).Keeps r O (· = s.failedWith f) :=
  .after hn fun _ => .pure rfl

end SequenceBody

namespace Sequence

def Throughout (P : SequenceBody → Prop) (s : Sequence) : Prop :=
  ∀ path q, s.at? path = some q → P q.body

/-- What its level says holds of a sequence and of all below it, from some level on. -/
def Graded (P : Nat → SequenceBody → Prop) (n : Nat) (s : Sequence) : Prop :=
  ∀ path q, s.at? path = some q → P (n + path.length) q.body

/-- A level holds of a sequence and its children exactly if it does of each of them, one further
down. -/
theorem graded_mk {P : Nat → SequenceBody → Prop} {n : Nat} {b : SequenceBody}
    {cs : List Sequence} :
    (mk b cs).Graded P n ↔ P n b ∧ ∀ c ∈ cs, c.Graded P (n + 1) := by
  constructor
  · intro h
    refine ⟨h [] _ rfl, fun c hc path q hq => ?_⟩
    obtain ⟨i, hi⟩ := List.getElem?_of_mem hc
    have hp := h (i :: path) q (by simp [hi, hq])
    rwa [List.length_cons, Nat.add_comm path.length, ← Nat.add_assoc] at hp
  · intro ⟨hb, hc⟩ path q hq
    cases path with
    | nil => exact Option.some.inj hq ▸ hb
    | cons i path =>
      obtain ⟨c, hi, hq⟩ := Option.bind_eq_some_iff.mp hq
      have hp := hc c (List.mem_of_getElem? hi) path q hq
      rwa [Nat.add_assoc, Nat.add_comm 1, ← List.length_cons] at hp

/-- At a place below it the levels go on from the depth of that place. -/
theorem Graded.at? {P : Nat → SequenceBody → Prop} {n : Nat} {s q : Sequence} {path : List Nat}
    (h : s.Graded P n) (hq : s.at? path = some q) : q.Graded P (n + path.length) := by
  induction path generalizing s n with
  | nil => exact Option.some.inj hq ▸ h
  | cons i path ih =>
    obtain ⟨body, children⟩ := s
    obtain ⟨c, hi, hq⟩ := Option.bind_eq_some_iff.mp hq
    have hc := ih ((graded_mk.mp h).2 c (List.mem_of_getElem? hi)) hq
    rwa [Nat.add_assoc, Nat.add_comm 1, ← List.length_cons] at hc

end Sequence

/-- What holds of a sequence so many levels down before it runs some effects, and the faults that it
may fail with. -/
structure Conduct where
  holds : Nat → SequenceBody → List Effect → Prop
  allows : Fault → Prop

namespace Conduct

variable (C : Conduct)

/-- A sequence of which the conduct holds, before it runs what waits in it. -/
structure Sound (n : Nat) (s : SequenceBody) : Prop where
  holds : C.holds n s s.work
  failure : ∀ f, s.failure = some f → C.allows f

/-- What holds once an effect has run, with the effects behind it. -/
def Follows (n : Nat) (s : SequenceBody) (e : Effect) (es : List Effect) : Flow → Prop
  | .spawned c => C.holds n s es ∧ c.Graded C.Sound (n + 1)
  | .splice new => C.holds n s (new ++ es)
  | .hold => C.holds n s (e :: es)
  | .fault f => C.holds n s es ∧ C.allows f
  | _ => C.holds n s es

def AllowsHalt (halt : Option Halt) : Prop := ∀ f, halt = some (.fault f) → C.allows f

def Permits (n : Notice) : Prop := ∀ f, n.failure? = some f → C.allows f

structure KeptIn (r : Surroundings) (O : HostOrder) : Prop where
  noted : ∀ {notice}, C.Permits notice → ∀ h, O.rel h { h with log := notice :: h.log }
  /-- Neither the queue nor what the sequence waits for counts. -/
  frame : ∀ {n s es}, C.holds n s es → ∀ queue budget blockers scheduledStart refilled,
    C.holds n { s with queue, budget, blockers, scheduledStart, refilled } es
  dropped : ∀ {n s es}, C.holds n s es → C.holds n s []
  passed : ∀ {n s e es}, C.holds n s (e :: es) → s.control.isSkipping = true →
    e.action.isBlockBoundary = false → C.holds n s es
  performed : ∀ {n s e es}, C.holds n s (e :: es) →
    (s.control.isSkipping && !e.action.isBlockBoundary) = false →
    (s.perform e).Keeps r O fun x => C.Follows n x.1 e es x.2
  stopped : ∀ {n s es}, C.holds n s es → C.holds n s.halted s.routine.onStop
  failed : ∀ {n s es f}, C.holds n s es → C.allows f → C.holds n (s.failedWith f) []
  requeued : ∀ {n} {s : SequenceBody}, C.holds n s [] → s.queue = [] →
    C.holds n s.requeued.1 s.requeued.1.work
  moved : ∀ {n s es}, C.holds n s es → ∀ elapsed,
    (advanceEmitters none elapsed s.emitters).Keeps r O fun x => C.AllowsHalt x.2 ∧
      C.holds n { s with emitters := x.1 } es ∧
      C.holds n { s with emitters := x.1.filter fun e => !e.isExpired } es

end Conduct

namespace Sequence

/-- The conduct holds of a sequence before it runs some effects, and of all below it before they run
what waits in them. -/
structure Stands (C : Conduct) (n : Nat) (s : Sequence) (es : List Effect) : Prop where
  holds : C.holds n s.body es
  failure : ∀ f, s.body.failure = some f → C.allows f
  children : ∀ c ∈ s.children, c.Graded C.Sound (n + 1)

/-- The conduct holds of what comes back, and no other fault does than those allowed. -/
structure Held (C : Conduct) (n : Nat) (x : Sequence × Option Halt) : Prop where
  sound : x.1.Graded C.Sound n
  allows : C.AllowsHalt x.2

section Conduct

variable {C : Conduct} {r : Surroundings} {O : HostOrder} {n : Nat} {s : Sequence} {e : Effect}
  {es : List Effect}

/-- Between two calls a sequence is before all that waits in it. -/
theorem Graded.stands (h : s.Graded C.Sound n) : s.Stands C n s.body.work := by
  cases s with
  | mk body children =>
    obtain ⟨hb, hc⟩ := graded_mk.mp h
    exact ⟨hb.holds, hb.failure, hc⟩

theorem Stands.graded (h : s.Stands C n s.body.work) : s.Graded C.Sound n := by
  cases s with
  | mk body children => exact graded_mk.mpr ⟨⟨h.holds, h.failure⟩, h.children⟩

/-- The sequence itself has changed, with the effects that come next. -/
theorem Stands.changed (h : s.Stands C n es) {b : SequenceBody} {fs : List Effect}
    (hb : C.holds n b fs) (hf : b.failure = s.body.failure) :
    (Sequence.mk b s.children).Stands C n fs :=
  ⟨hb, by rw [body_mk, hf]; exact h.failure, h.children⟩

theorem allowsHalt_none : C.AllowsHalt none := by
  intro f hf
  cases hf

theorem allowsHalt_outOfFuel : C.AllowsHalt (some .outOfFuel) := by
  intro f hf
  cases hf

section Stopping

variable {run : StopHandlers Tick}

/-- Stop handlers that keep the conduct of the sequence that they run in. -/
def KeptBy (C : Conduct) (run : StopHandlers Tick) (r : Surroundings) (O : HostOrder) : Prop :=
  ∀ n (s : Sequence), s.body.queue = [] → s.Stands C n s.body.routine.onStop →
    (run s).Keeps r O (Held C n)

mutual

/-- A stop keeps the conduct if the stop handlers do: by induction on the tree. -/
theorem stopWith_held (hk : C.KeptIn r O) (hrun : KeptBy C run r O) : ∀ {n} (s : Sequence),
    s.Graded C.Sound n → (s.stopWith run).Keeps r O (Held C n)
  | n, .mk body children, h => by
    unfold Sequence.stopWith
    split
    · exact .pure ⟨h, allowsHalt_none⟩
    · obtain ⟨hb, hc⟩ := graded_mk.mp h
      refine .bind (stopAllWith_held hk hrun children hc) fun x hx => ?_
      have hs : (mk body.halted x.1).Stands C n body.routine.onStop :=
        ⟨hk.stopped hb.holds, hb.failure, hx.1⟩
      dsimp only
      split
      · refine .pure ⟨?_, hx.2⟩
        exact Stands.graded ⟨hk.dropped hs.holds, hs.failure, hs.children⟩
      · exact hrun n _ rfl hs

/-- Children keep their conduct when they are stopped, up to the first that fails. -/
theorem stopAllWith_held (hk : C.KeptIn r O) (hrun : KeptBy C run r O) :
    ∀ {n} (cs : List Sequence), (∀ c ∈ cs, c.Graded C.Sound n) →
      (stopAllWith run cs).Keeps r O fun x =>
        (∀ c ∈ x.1, c.Graded C.Sound n) ∧ C.AllowsHalt x.2
  | _, [], _ => .pure ⟨by simp, allowsHalt_none⟩
  | n, c :: cs, h => by
    obtain ⟨hc, hcs⟩ := List.forall_mem_cons.mp h
    unfold stopAllWith
    refine .bind (stopWith_held hk hrun c hc) fun x hx => ?_
    dsimp only
    split
    · exact .pure ⟨List.forall_mem_cons.mpr ⟨hx.sound, hcs⟩, hx.allows⟩
    · refine .bind (stopAllWith_held hk hrun cs hcs) fun y hy => .pure ?_
      exact ⟨List.forall_mem_cons.mpr ⟨hx.sound, hy.1⟩, hy.2⟩

end

mutual

theorem stopRoutineWith_held (hk : C.KeptIn r O) (hrun : KeptBy C run r O) (id : ResourceId) :
    ∀ {n} (s : Sequence), s.Graded C.Sound n →
      (s.stopRoutineWith run id).Keeps r O fun x => Held C n (x.1, x.2.2)
  | n, .mk body children, h => by
    obtain ⟨hb, hc⟩ := graded_mk.mp h
    unfold Sequence.stopRoutineWith
    exact .bind (stopRoutineIn_held hk hrun id children hc) fun x hx =>
      .pure ⟨graded_mk.mpr ⟨hb, hx.1⟩, hx.2⟩

theorem stopRoutineIn_held (hk : C.KeptIn r O) (hrun : KeptBy C run r O) (id : ResourceId) :
    ∀ {n} (cs : List Sequence), (∀ c ∈ cs, c.Graded C.Sound n) →
      (stopRoutineIn run id cs).Keeps r O fun x =>
        (∀ c ∈ x.1, c.Graded C.Sound n) ∧ C.AllowsHalt x.2.2
  | _, [], _ => .pure ⟨by simp, allowsHalt_none⟩
  | n, c :: cs, h => by
    obtain ⟨hc, hcs⟩ := List.forall_mem_cons.mp h
    have rest (c' : Sequence) (count : Nat) (halt : Option Halt) (hx : Held C n (c', halt)) :
        Tick.Keeps (if halt.isSome then pure (c' :: cs, count, halt) else do
          let (cs, more, halt) ← stopRoutineIn run id cs
          return (c' :: cs, count + more, halt)) r O fun x =>
            (∀ c ∈ x.1, c.Graded C.Sound n) ∧ C.AllowsHalt x.2.2 := by
      split
      · exact .pure ⟨List.forall_mem_cons.mpr ⟨hx.sound, hcs⟩, hx.allows⟩
      · refine .bind (stopRoutineIn_held hk hrun id cs hcs) fun y hy => .pure ?_
        exact ⟨List.forall_mem_cons.mpr ⟨hx.sound, hy.1⟩, hy.2⟩
    unfold stopRoutineIn
    dsimp only
    split
    · exact .bind (stopWith_held hk hrun c hc) fun x hx => rest x.1 1 x.2 hx
    · exact .bind (stopRoutineWith_held hk hrun id c hc) fun x hx => rest x.1 x.2.1 x.2.2 hx

end

end Stopping

section Effects

variable {run : StopHandlers Tick}

def Next.Follows (C : Conduct) (n : Nat) (e : Effect) (es : List Effect) (s : Sequence) :
    Next → Prop
  | .proceed => s.Stands C n es
  | .splice new => s.Stands C n (new ++ es)
  | .hold => s.Stands C n (e :: es)
  | .halt why => s.Stands C n es ∧ C.AllowsHalt (some why)

/-- What an effect leaves in the queue. -/
theorem execute_leaves_queue (run : StopHandlers Tick) (s : Sequence) (e : Effect) :
    (s.execute run e).At r fun x => x.1.body.queue = match x.2 with
      | .hold => { effect := e, charged := true } :: s.body.queue
      | _ => s.body.queue := by
  intro h
  cases hx : (s.execute run e r h).1 with
  | mk s' next =>
    have hq := execute_queue hx
    cases next with
    | hold => exact hq
    | _ => exact hq

/-- One effect keeps the conduct for whatever comes next. -/
theorem execute_follows (hk : C.KeptIn r O) (hrun : KeptBy C run r O) (h : s.Stands C n (e :: es))
    (hs : s.skips e = false) :
    (s.execute run e).Keeps r O fun x => Next.Follows C n e es x.1 x.2 := by
  refine .bind ((hk.performed h.holds hs).and (s.body.perform_does e).at) fun x hx => ?_
  obtain ⟨body, flow⟩ := x
  obtain ⟨hh, hd⟩ := hx
  have hb {fs : List Effect} (hb : C.holds n body fs) : (mk body s.children).Stands C n fs :=
    h.changed hb hd.failure_eq
  cases flow with
  | proceed => exact .pure (hb hh)
  | splice new => exact .pure (hb hh)
  | hold => exact .pure (hb hh)
  | fault f =>
    refine .pure ⟨hb hh.1, fun f' hf' => ?_⟩
    cases hf'
    exact hh.2
  | spawned child =>
    refine .pure ⟨hh.1, (hb hh.1).failure, List.forall_mem_append.mpr ⟨h.children, ?_⟩⟩
    simpa using hh.2
  | stopRoutine id =>
    refine .bind (stopRoutineIn_held hk hrun id s.children h.children) fun y hy => .pure ?_
    have hy' : (mk body y.1).Stands C n es := ⟨hh, (hb hh).failure, hy.1⟩
    dsimp only
    cases hw : y.2.2 with
    | none => exact hy'
    | some why => exact ⟨hy', hw ▸ hy.2⟩

/-- With nothing in the queue. -/
theorem Stands.held (hk : C.KeptIn r O) (h : s.Stands C n es) (hq : s.body.queue = [])
    {halt : Option Halt} (ha : C.AllowsHalt halt) : Held C n (s, halt) := by
  refine ⟨Stands.graded ⟨?_, h.failure, h.children⟩, ha⟩
  rw [SequenceBody.work, hq]
  exact hk.dropped h.holds

/-- By induction on the fuel. The queue is empty throughout, so what comes next is the list. -/
theorem runHandlers_held (hk : C.KeptIn r O) (hrun : KeptBy C run r O) (k : Nat)
    (h : s.Stands C n es) (hq : s.body.queue = []) :
    (runHandlers run k es s).Keeps r O (Held C n) := by
  induction k generalizing es s with
  | zero => exact .pure (h.held hk hq allowsHalt_outOfFuel)
  | succ k ih =>
    cases es with
    | nil =>
      cases s with
      | mk body children =>
        have hb : (mk { body with blockers := [] } children).Stands C n [] :=
          h.changed (hk.frame h.holds _ _ _ _ _) rfl
        exact .pure (hb.held hk hq allowsHalt_none)
    | cons e es =>
      unfold runHandlers
      split
      next hs =>
        obtain ⟨hc, hn⟩ := Bool.and_eq_true_iff.mp hs
        have hb := hk.passed h.holds hc (by simpa using hn)
        exact ih ⟨hb, h.failure, h.children⟩ hq
      next hs =>
        refine .bind ((execute_follows hk hrun h (by simpa using hs)).and
          (execute_leaves_queue run s e)) fun x hx => ?_
        obtain ⟨s', next⟩ := x
        obtain ⟨hf, hq'⟩ := hx
        cases next with
        | proceed => exact ih hf (hq'.trans hq)
        | splice new => exact ih hf (hq'.trans hq)
        | hold =>
          cases s' with
          | mk body children =>
            have hb : (mk { body with queue := [], scheduledStart := none, blockers := [] }
                children).Stands C n (e :: es) := hf.changed (hk.frame hf.holds _ _ _ _ _) rfl
            exact .pure (hb.held hk rfl allowsHalt_none)
        | halt why => exact .pure (hf.1.held hk (hq'.trans hq) hf.2)

/-- A fault that ends a sequence is one of those that its conduct allows. -/
theorem settle_held (hk : C.KeptIn r O) {x : Sequence × Option Halt} (h : Held C n x) :
    (x.1.settle x.2).Keeps r O (Held C n) := by
  unfold settle
  split
  next f hf =>
    have ha := h.allows f hf
    refine .bind (x.1.body.fail_keeps f (hk.noted fun f' hf' => ?_)) fun b hb =>
      .pure ⟨?_, h.allows⟩
    · cases hf'
      exact ha
    subst hb
    have hs := h.sound.stands
    refine graded_mk.mpr ⟨⟨hk.failed hs.holds ha, fun f' hf' => ?_⟩, hs.children⟩
    cases hf'
    exact ha
  next => exact .pure h

/-- By induction on how deep handlers may stop others. -/
theorem runStopHandlers_kept (hk : C.KeptIn r O) (depth : Nat) :
    KeptBy C (runStopHandlers depth) r O := by
  induction depth with
  | zero =>
    intro n s hq h
    exact .pure (h.held hk hq allowsHalt_outOfFuel)
  | succ depth ih =>
    intro n s hq h
    exact .read (.bind (runHandlers_held hk ih _ h hq) fun x hx => settle_held hk hx)

theorem stop_held (hk : C.KeptIn r O) (h : s.Graded C.Sound n) : s.stop.Keeps r O (Held C n) :=
  .read (stopWith_held hk (runStopHandlers_kept hk _) s h)

theorem stopRoutine_held (hk : C.KeptIn r O) (h : s.Graded C.Sound n) (id : ResourceId) :
    (s.stopRoutine id).Keeps r O fun x => Held C n (x.1, x.2.2) :=
  .read (stopRoutineWith_held hk (runStopHandlers_kept hk _) id s h)

end Effects

section Draining

variable {run : StopHandlers Tick} {h : Host} {s' : Sequence} {event : DrainEvent}

theorem charge_holds (hk : C.KeptIn r O) {b : SequenceBody} (hb : C.holds n b es) (head : Pending)
    (rest queue : List Pending) : C.holds n { b.charge head rest with queue } es := by
  unfold SequenceBody.charge
  split
  · exact hk.frame hb _ _ _ _ _
  · exact hk.frame hb _ _ _ _ _

theorem failure_takeHead (s : Sequence) (head : Pending) (rest : List Pending) :
    (s.takeHead head rest).body.failure = s.body.failure := by
  rw [takeHead, body_mk, SequenceBody.charge]
  split <;> rfl

theorem takeHead_stands (hk : C.KeptIn r O) {head : Pending} {rest : List Pending}
    (hs : s.Graded C.Sound n) (hq : s.body.queue = head :: rest) :
    (s.takeHead head rest).Stands C n (head.effect :: rest.map Pending.effect) := by
  have hst := hs.stands
  rw [SequenceBody.work_of_queue hq] at hst
  refine ⟨charge_holds hk hst.holds head rest rest, ?_, hst.children⟩
  rw [failure_takeHead]
  exact hst.failure

theorem skips_takeHead (s : Sequence) (head : Pending) (rest : List Pending) (e : Effect) :
    (s.takeHead head rest).skips e = s.skips e := by
  have hc : (s.takeHead head rest).body.control = s.body.control :=
    s.body.charge_control head rest
  rw [skips, skips, hc]

theorem sound_mapBody {f : SequenceBody → SequenceBody} (hb : C.holds n (f s.body) (f s.body).work)
    (hf : (f s.body).failure = s.body.failure) (hs : s.Stands C n es) :
    (s.mapBody f).Graded C.Sound n := by
  cases s with
  | mk body children =>
    refine graded_mk.mpr ⟨⟨hb, fun f' hf' => ?_⟩, hs.children⟩
    exact hs.failure f' (hf.symm.trans hf')

/-- The turn that an effect makes keeps what held once it had run. -/
theorem concluded_held (hk : C.KeptIn r O) {x : Sequence × Next} {rest : List Pending}
    (hx : Next.Follows C n e (rest.map Pending.effect) x.1 x.2)
    (hq : x.1.body.queue = match x.2 with
      | .hold => { effect := e, charged := true } :: rest
      | _ => rest) : Held C n ((concluded e x).1, (concluded e x).2.halt?) := by
  obtain ⟨q, next⟩ := x
  have hw {fs : List Effect} (hf : q.Stands C n fs) (he : fs = q.body.work) :
      q.Graded C.Sound n := Stands.graded (he ▸ hf)
  cases next with
  | proceed =>
    refine ⟨hw hx ?_, allowsHalt_none⟩
    rw [SequenceBody.work, hq]
  | halt why =>
    refine ⟨hw hx.1 ?_, hx.2⟩
    rw [SequenceBody.work, hq]
  | splice new =>
    refine ⟨sound_mapBody ?_ rfl hx, allowsHalt_none⟩
    have he : (SequenceBody.pendingOf new ++ q.body.queue).map Pending.effect =
        new ++ rest.map Pending.effect := by
      rw [hq]
      simp [SequenceBody.pendingOf, Function.comp_def]
    rw [SequenceBody.work, he]
    exact hk.frame hx.holds _ _ _ _ _
  | hold =>
    refine ⟨sound_mapBody ?_ rfl hx, allowsHalt_none⟩
    have he : q.body.capBudget.work = e :: rest.map Pending.effect := by
      rw [SequenceBody.work, SequenceBody.capBudget, hq]
      rfl
    rw [he]
    exact hk.frame hx.holds _ _ _ _ _

theorem requeued_sound (hk : C.KeptIn r O) (hs : s.Graded C.Sound n) (hq : s.body.queue = []) :
    (mk s.body.requeued.1 s.children).Graded C.Sound n := by
  have hst := hs.stands
  have hf : s.body.requeued.1.failure = s.body.failure := by
    rw [SequenceBody.requeued]
    split
    · rfl
    · dsimp only
      split <;> rfl
  refine Stands.graded (hst.changed ?_ hf)
  exact hk.requeued (hk.dropped hst.holds) hq

/-- One turn of the draining loop, by what it comes upon. -/
theorem drainStep_held (hk : C.KeptIn r O) (hrun : KeptBy C run r O) (hs : s.Graded C.Sound n) :
    (s.drainStep run).Keeps r O fun x => Held C n (x.1, x.2.halt?) := by
  have hst := hs.stands
  by_cases hb : s.body.blockers = []
  case neg =>
    rw [s.drainStep_of_blocked run hb]
    refine .pure ⟨sound_mapBody ?_ rfl hst, allowsHalt_none⟩
    exact hk.frame hst.holds _ _ _ _ _
  cases hq : s.body.queue with
  | nil =>
    rw [s.drainStep_of_empty run hb hq]
    refine .pure ⟨requeued_sound hk hs hq, ?_⟩
    dsimp only
    split
    · exact allowsHalt_none
    · exact allowsHalt_none
  | cons head rest =>
    cases hx : s.skips head.effect with
    | true =>
      obtain ⟨hc, hn⟩ := Bool.and_eq_true_iff.mp hx
      have hh := hst.holds
      rw [SequenceBody.work_of_queue hq] at hh
      rw [s.drainStep_of_skips run hb hq hx]
      refine .pure ⟨sound_mapBody ?_ rfl hst, allowsHalt_none⟩
      exact hk.frame (hk.passed hh hc (by simpa using hn)) _ _ _ _ _
    | false =>
      by_cases hn : (s.body.charge head rest).budget < 0
      · rw [s.drainStep_of_unpaid run hb hq hx hn]
        refine .pure ⟨Stands.graded (hst.changed ?_ (failure_takeHead s head rest)),
          allowsHalt_none⟩
        rw [body_mk, s.body.charge_work head rest hq]
        exact charge_holds hk hst.holds head rest _
      · rw [s.drainStep_of_paid run hb hq hx hn]
        refine .map ((execute_follows hk hrun (takeHead_stands hk hs hq)
          ((skips_takeHead ..).trans hx)).and (execute_leaves_queue run _ _)) fun x hx => ?_
        exact concluded_held hk hx.1 hx.2

/-- By induction on the fuel. -/
theorem drain_held (hk : C.KeptIn r O) (hrun : KeptBy C run r O) (k : Nat)
    (hs : s.Graded C.Sound n) : (s.drain run k).Keeps r O (Held C n) := by
  induction k generalizing s with
  | zero => exact .pure ⟨hs, allowsHalt_outOfFuel⟩
  | succ k ih =>
    refine .bind (drainStep_held hk hrun hs) fun x hx => ?_
    obtain ⟨s', event⟩ := x
    cases event with
    | requeued | skipped | ran => exact ih hx.sound
    | halted _ why => exact .pure hx
    | blocked | dry | waiting | held => exact .pure hx

end Draining

section Ticks

theorem dropEnded_sound (hk : C.KeptIn r O) (hs : s.Graded C.Sound n) :
    s.dropEnded.Graded C.Sound n := by
  have hst := hs.stands
  refine graded_mk.mpr ⟨⟨hk.frame hst.holds _ _ _ _ _, hst.failure⟩, fun c hc => ?_⟩
  exact hst.children c (List.mem_filter.mp hc).1

theorem earn_sound (hk : C.KeptIn r O) (hs : s.Graded C.Sound n) (elapsed : Scalar) :
    (s.earn elapsed).Graded C.Sound n := by
  cases s with
  | mk body children =>
    have hst := hs.stands
    exact graded_mk.mpr ⟨⟨hk.frame hst.holds _ _ _ _ _, hst.failure⟩, hst.children⟩

theorem advanceOwned_held (hk : C.KeptIn r O) (hs : s.Graded C.Sound n) (elapsed : Scalar) :
    (s.advanceOwned elapsed).Keeps r O (Held C n) := by
  have hst := hs.stands
  refine .bind (hk.moved hst.holds elapsed) fun x hx => ?_
  obtain ⟨ha, hall, hleft⟩ := hx
  dsimp only
  split
  · exact .pure ⟨graded_mk.mpr ⟨⟨hall, hst.failure⟩, hst.children⟩, ha⟩
  · exact .pure ⟨graded_mk.mpr ⟨⟨hleft, hst.failure⟩, hst.children⟩, allowsHalt_none⟩

theorem advanceSelf_held (hk : C.KeptIn r O) (hs : s.Graded C.Sound n) (elapsed : Scalar) :
    (s.advanceSelf elapsed).Keeps r O (Held C n) := by
  refine .read (.bind (drain_held hk (runStopHandlers_kept hk _) _
    (earn_sound hk (dropEnded_sound hk hs) elapsed)) fun x hx => ?_)
  dsimp only
  split
  · exact settle_held hk hx
  · exact .bind (advanceOwned_held hk hx.sound elapsed) fun y hy => settle_held hk hy

mutual

/-- A tick keeps the conduct of a sequence and of all below it. -/
theorem advance_held (hk : C.KeptIn r O) (elapsed : Scalar) : ∀ {n} (s : Sequence),
    s.Graded C.Sound n → (s.advance elapsed).Keeps r O (Held C n)
  | n, .mk body children, hs => by
    obtain ⟨hb, hc⟩ := graded_mk.mp hs
    unfold Sequence.advance
    split
    next f hf =>
      refine .pure ⟨hs, fun f' hf' => ?_⟩
      cases hf'
      exact hb.failure f hf
    next =>
      refine .bind (advanceChildren_held hk body.routine.id elapsed children hc) fun x hx => ?_
      have hx' : (mk { body with refilled := false } x.1).Graded C.Sound n :=
        graded_mk.mpr ⟨⟨hk.frame hb.holds _ _ _ _ _, hb.failure⟩, hx.1⟩
      dsimp only
      split
      · exact .pure ⟨hx', hx.2⟩
      · exact advanceSelf_held hk hx' elapsed

/-- The fault of a child is noted where the conduct permits it, and ends only the child. -/
theorem advanceChildren_held (hk : C.KeptIn r O) (parent : ResourceId) (elapsed : Scalar) :
    ∀ {n} (cs : List Sequence), (∀ c ∈ cs, c.Graded C.Sound n) →
      (advanceChildren parent elapsed cs).Keeps r O fun x =>
        (∀ c ∈ x.1, c.Graded C.Sound n) ∧ C.AllowsHalt x.2
  | _, [], _ => .pure ⟨by simp, allowsHalt_none⟩
  | n, c :: cs, h => by
    obtain ⟨hc, hcs⟩ := List.forall_mem_cons.mp h
    have rest (c' : Sequence) (hc' : c'.Graded C.Sound n) :
        Tick.Keeps (do
          let (cs, halt) ← advanceChildren parent elapsed cs
          return (c' :: cs, halt)) r O fun x =>
            (∀ c ∈ x.1, c.Graded C.Sound n) ∧ C.AllowsHalt x.2 :=
      .bind (advanceChildren_held hk parent elapsed cs hcs) fun y hy =>
        .pure ⟨List.forall_mem_cons.mpr ⟨hc', hy.1⟩, hy.2⟩
    unfold advanceChildren
    refine .bind (advance_held hk elapsed c hc) fun x hx => ?_
    dsimp only
    split
    next hf => exact .pure ⟨List.forall_mem_cons.mpr ⟨hx.sound, hcs⟩, hf ▸ allowsHalt_outOfFuel⟩
    next f hf =>
      refine .after (hk.noted fun f' hf' => ?_) fun _ => rest x.1 hx.sound
      cases hf'
      exact hx.allows f hf
    next => exact rest x.1 hx.sound

end

end Ticks

end Conduct

end Sequence
end EffectMachine
