import EffectMachine.Proofs.Sequence.Alike
import EffectMachine.Proofs.Sequence.Names

namespace EffectMachine

/-- Still effects put nothing in their place. -/
inductive Flow.Twin (ρ : Pairing) : Flow → Flow → Prop where
  | proceed : Twin ρ .proceed .proceed
  | spawned (c c' : Sequence) (child : c.Twin ρ c') : Twin ρ (.spawned c) (.spawned c')
  | hold : Twin ρ .hold .hold
  | stopRoutine (id : ResourceId) : Twin ρ (.stopRoutine id) (.stopRoutine id)
  | fault (f : Fault) : Twin ρ (.fault f) (.fault f)

section Effects

variable {r : Surroundings} {ρ : Pairing}

theorem SideEffect.forward_perform (action : Action) (x : SideEffect) :
    (x.perform action).Forward :=
  .of_leads fun _ => SequenceBody.leads_sideEffect (HostOrder.forward_admits x.actors) action
    (List.Subset.refl _)

theorem SequenceBody.forward_notes (ns : List Notice) : (notes ns).Forward := by
  induction ns with
  | nil => exact .pure ()
  | cons n ns ih => exact .bind (fun _ _ => Nat.le_refl _) fun _ => ih

namespace SequenceBody.Twin

variable {s s' : SequenceBody}

/-- Twins load the same value, which needs no draw. -/
theorem conditionValue (h : s.Twin ρ s') {source : ConditionSource}
    (hs : source.isStill = true) :
    (s.conditionValue source).Twins (s'.conditionValue source) r ρ fun _ v v' => v' = v := by
  obtain ⟨⟨id, blockers, emitters, named, blocked, owned⟩, still⟩ := h
  cases source with
  | constant value => exact .pure rfl
  | gameState code =>
    unfold SequenceBody.conditionValue
    dsimp only
    split
    · exact .pure rfl
    · exact .note _ _ (.pure rfl)
  | random => cases hs
  | unknown => exact .note _ _ (.pure rfl)

/-- Twins start emitters that are alike. -/
theorem spawnGenerator (h : s.Twin ρ s') (hd : r.directory.IsStill) (id : ResourceId)
    (duration : UInt16) (follow : Option FollowPath) :
    (s.spawnGenerator id duration follow).Twins (s'.spawnGenerator id duration follow) r ρ
      SequenceBody.Twin := by
  obtain ⟨⟨name, blockers, emitters, named, blocked, owned⟩, still⟩ := h
  refine .read ?_
  dsimp only
  cases hg : r.directory.generator? id (.ancestors s.routine.origin) with
  | none =>
    exact .note _ _ (.pure ⟨⟨name, blockers, emitters, named, blocked, owned⟩, still⟩)
  | some g =>
    refine .pure ⟨⟨name, blockers, _, named, blocked, List.rel_append owned ?_⟩, still.routine,
      still.queue, List.forall_mem_append.mpr ⟨still.emitters, ?_⟩⟩
    · exact .cons ⟨some name, .some named⟩ .nil
    · have hw : ((EmitterBody.fresh g s.binding).withWindow
          (Scalar.ofNat duration.toNat)).definition = g := by
        unfold EmitterBody.withWindow
        split <;> rfl
      intro e he
      rw [List.mem_singleton.mp he]
      refine Emitter.still_ofBody.mpr ?_
      dsimp only
      rw [hw]
      exact hd.generator hg

/-- Twins start children whose names stand for each other. -/
theorem spawnRoutine (h : s.Twin ρ s') (hd : r.directory.IsStill) (id : ResourceId)
    (blocking : Bool) (scope : SearchScope) :
    (s.spawnRoutine id blocking scope).Twins (s'.spawnRoutine id blocking scope) r ρ
      fun σ x x' => x.1.Twin σ x'.1 ∧ x.2.Twin σ x'.2 := by
  obtain ⟨⟨name, blockers, emitters, named, blocked, owned⟩, still⟩ := h
  refine .read ?_
  dsimp only
  refine .ite (fun _ => ?_) fun _ => ?_
  · exact .note _ _ (.pure ⟨⟨⟨name, blockers, emitters, named, blocked, owned⟩, still⟩, .proceed⟩)
  cases hr : r.directory.routine? id scope with
  | none =>
    exact .note _ _ (.pure ⟨⟨⟨name, blockers, emitters, named, blocked, owned⟩, still⟩, .proceed⟩)
  | some routine =>
    refine .bind (R := Sequence.Twin) (.bind Tick.Twins.newSequence fun σ hσ a a' ha => .pure ?_)
      fun σ hσ c c' hc => .pure ?_
    · exact Sequence.twin_mk.mpr ⟨.fresh ha (hd.routine hr) _ _ _, .nil⟩
    · have hb := blocked.imp hσ
      have waits : List.Forall₂ σ.rel (if blocking then s.blockers ++ [c.body.id] else s.blockers)
          (if blocking then blockers ++ [c'.body.id] else blockers) := by
        split
        · exact List.rel_append hb (.cons hc.body.id .nil)
        · exact hb
      exact ⟨⟨⟨name, _, emitters, hσ _ _ named, waits, owned.imp fun _ _ h => h.mono hσ⟩,
        still.routine, still.queue, still.emitters⟩, .spawned c c' hc⟩

/-- Twins find a gate open or closed alike. -/
theorem passGate (h : s.Twin ρ s') {e : Effect} (he : e.isStill = true)
    (startMinute endMinute : UInt16) :
    (s.passGate e startMinute endMinute).Twins (s'.passGate e startMinute endMinute) r ρ
      fun σ x x' => x.1.Twin σ x'.1 ∧ x.2.Twin σ x'.2 := by
  obtain ⟨⟨name, blockers, emitters, named, blocked, owned⟩, still⟩ := h
  refine .read (.ite (fun _ => .pure ⟨⟨?_, ?_⟩, .proceed⟩) fun _ => .pure ⟨⟨?_, ?_⟩, .hold⟩)
  · exact ⟨name, blockers, emitters, named, blocked, owned⟩
  · exact ⟨still.routine, still.queue, still.emitters⟩
  · exact ⟨name, blockers, emitters, named, blocked, owned⟩
  · exact ⟨still.routine, List.forall_mem_cons.mpr ⟨he, still.queue⟩, still.emitters⟩

/-- What steers one twin does the like to the other. -/
theorem steer (h : s.Twin ρ s') (hd : r.directory.IsStill) {e : Effect} (he : e.isStill = true) :
    (s.steer e).Twins (s'.steer e) r ρ fun σ x x' => x.1.Twin σ x'.1 ∧ x.2.Twin σ x'.2 := by
  have started (id : ResourceId) (follow : Option FollowPath) :=
    h.spawnGenerator hd id e.duration follow
  have child (id : ResourceId) (blocking : Bool) (scope : SearchScope) :=
    h.spawnRoutine hd id blocking scope
  have gate (startMinute endMinute : UInt16) := h.passGate (r := r) he startMinute endMinute
  have quieted (pick : EmitterBody → Bool)
      (hp : ∀ e e' : Emitter, e.Alike ρ e' → pick e'.body = pick e.body) :=
    h.stopWhere pick pick hp
  have value {source : ConditionSource} (hs : source.isStill = true) := h.conditionValue (r := r) hs
  obtain ⟨⟨name, blockers, emitters, named, blocked, owned⟩, still⟩ := h
  have same (binding : Binding) (control : ControlStack) (playbackRate : Scalar) (looping : Bool)
      {σ : Pairing} (hσ : ρ ≤ σ) :
      ({ s with binding, control, playbackRate, looping } : SequenceBody).Twin σ
        { s with binding, control, playbackRate, looping, id := name, blockers, emitters } :=
    ⟨⟨name, blockers, emitters, hσ _ _ named, blocked.imp hσ, owned.imp fun _ _ h => h.mono hσ⟩,
      still.routine, still.queue, still.emitters⟩
  have kept {σ : Pairing} (hσ : ρ ≤ σ) := same s.binding s.control s.playbackRate s.looping hσ
  obtain ⟨delay, duration, action⟩ := e
  unfold SequenceBody.steer
  cases action with
  | spawnGenerator id => exact .bind (started id none) fun σ _ a a' ha => .pure ⟨ha, .proceed⟩
  | followPoints id points arcHeight =>
    exact .bind (started id _) fun σ _ a a' ha => .pure ⟨ha, .proceed⟩
  | stopGenerator id =>
    exact .pure ⟨quieted (fun g => g.definition.id = id) fun e e' he => by rw [he.definition],
      .proceed⟩
  | stopAllGenerators => exact .pure ⟨quieted (fun _ => true) fun _ _ _ => rfl, .proceed⟩
  | spawnRoutine id blocking => exact child id blocking _
  | linkRoutine id blocking => exact child id blocking _
  | randomRoutine => cases he
  | stopRoutine id => exact .pure ⟨kept ρ.le_refl, .stopRoutine id⟩
  | beginBlock => exact .pure ⟨same _ _ _ _ ρ.le_refl, .proceed⟩
  | endBlock =>
    dsimp only
    cases s.control.endBlock with
    | ok x => exact .pure ⟨same _ _ _ _ ρ.le_refl, .proceed⟩
    | error f => exact .pure ⟨kept ρ.le_refl, .fault f⟩
  | condition register source =>
    refine .bind (value he) fun σ hσ v v' hv => ?_
    rw [hv]
    dsimp only
    cases s.control.setRegister register v with
    | ok x =>
      exact .after (forward_notes _) (forward_notes _) (.pure ⟨same _ _ _ _ hσ, .proceed⟩)
    | error f => exact .pure ⟨kept hσ, .fault f⟩
  | branch whenTrue =>
    dsimp only
    cases s.control.branch whenTrue with
    | ok x =>
      exact .after (forward_notes _) (forward_notes _) (.pure ⟨same _ _ _ _ ρ.le_refl, .proceed⟩)
    | error f => exact .pure ⟨kept ρ.le_refl, .fault f⟩
  | timeOfDayGate startMinute endMinute => exact gate startMinute endMinute
  | playbackRate | loopRoutine | broadcastOverride | snapshot =>
    exact .pure ⟨same _ _ _ _ ρ.le_refl, .proceed⟩
  | _ => exact .pure ⟨kept ρ.le_refl, .proceed⟩

/-- An effect does to both twins the like. -/
theorem perform (h : s.Twin ρ s') (hd : r.directory.IsStill) {e : Effect}
    (he : e.isStill = true) :
    (s.perform e).Twins (s'.perform e) r ρ fun σ x x' => x.1.Twin σ x'.1 ∧ x.2.Twin σ x'.2 := by
  have steered := h.steer hd he
  have binding : s'.binding = s.binding := by
    obtain ⟨⟨name, blockers, emitters, named, blocked, owned⟩, still⟩ := h
    rfl
  refine .read ?_
  rw [binding]
  split
  next x _ =>
    exact .after (x.forward_perform _) (x.forward_perform _) (.pure ⟨h, .proceed⟩)
  next => exact steered

end SequenceBody.Twin

end Effects

def StopHandlers.Agree (run : StopHandlers Tick) (r : Surroundings) : Prop :=
  ∀ ρ s s', Sequence.Twin ρ s s' → (run s).Twins (run s') r ρ (Tick.Beside Sequence.Twin)

namespace Sequence

variable {r : Surroundings} {run : StopHandlers Tick}

section Stopping

mutual

/-- Twins stop alike, each with the children that stand for those of the other. -/
theorem Twin.stopWith (hrun : run.Agree r) : ∀ {ρ} {s s' : Sequence}, s.Twin ρ s' →
    (s.stopWith run).Twins (s'.stopWith run) r ρ (Tick.Beside Twin)
  | ρ, .mk b cs, .mk b' cs', h => by
    obtain ⟨hb, hc⟩ := twin_mk.mp h
    unfold Sequence.stopWith
    rw [hb.stopped, hb.isFailed]
    refine .ite (fun _ => .pure ⟨h, rfl⟩) fun _ => ?_
    refine .bind_beside (Twins.stopAllWith hrun hc) fun σ hσ x x' halt hx => ?_
    have halted : (mk b.halted x).Twin σ (mk b'.halted x') :=
      twin_mk.mpr ⟨(hb.mono hσ).halted, hx⟩
    exact .ite (fun _ => .pure ⟨halted, rfl⟩) fun _ => hrun σ _ _ halted

theorem Twins.stopAllWith (hrun : run.Agree r) : ∀ {ρ} {cs cs' : List Sequence},
    Twins ρ cs cs' → (stopAllWith run cs).Twins (stopAllWith run cs') r ρ (Tick.Beside Twins)
  | _, [], _, h => by
    cases h
    exact .pure ⟨.nil, rfl⟩
  | ρ, c :: cs, _, h => by
    cases h with
    | cons hc hcs =>
      unfold EffectMachine.stopAllWith
      refine .bind_beside (Twin.stopWith hrun hc) fun σ hσ x x' halt hx => ?_
      refine .ite (fun _ => .pure ⟨.cons hx (Twins.mono hσ hcs), rfl⟩) fun _ => ?_
      exact .bind_beside (Twins.stopAllWith hrun (Twins.mono hσ hcs)) fun τ hτ y y' halt hy =>
        .pure ⟨.cons (hx.mono hτ) hy, rfl⟩

end

mutual

/-- A search stops the like in both twins, and counts as many. -/
theorem Twin.stopRoutineWith (hrun : run.Agree r) (id : ResourceId) : ∀ {ρ} {s s' : Sequence},
    s.Twin ρ s' →
      (s.stopRoutineWith run id).Twins (s'.stopRoutineWith run id) r ρ (Tick.Beside Twin)
  | ρ, .mk b cs, .mk b' cs', h => by
    obtain ⟨hb, hc⟩ := twin_mk.mp h
    unfold Sequence.stopRoutineWith
    exact .bind_beside (Twins.stopRoutineIn hrun id hc) fun σ hσ x x' found hx =>
      .pure ⟨twin_mk.mpr ⟨hb.mono hσ, hx⟩, rfl⟩

theorem Twins.stopRoutineIn (hrun : run.Agree r) (id : ResourceId) :
    ∀ {ρ} {cs cs' : List Sequence}, Twins ρ cs cs' →
      (stopRoutineIn run id cs).Twins (stopRoutineIn run id cs') r ρ (Tick.Beside Twins)
  | _, [], _, h => by
    cases h
    exact .pure ⟨.nil, rfl⟩
  | ρ, c :: cs, _, h => by
    cases h with
    | @cons _ c' _ cs' hc hcs =>
      have rest {σ} (hσ : ρ ≤ σ) {x x' : Sequence} (count : Nat) (halt : Option Halt)
          (hx : x.Twin σ x') :
          Tick.Twins (if halt.isSome then pure (x :: cs, count, halt) else do
              let (cs, more, halt) ← stopRoutineIn run id cs
              return (x :: cs, count + more, halt))
            (if halt.isSome then pure (x' :: cs', count, halt) else do
              let (cs, more, halt) ← stopRoutineIn run id cs'
              return (x' :: cs, count + more, halt)) r σ (Tick.Beside Twins) := by
        refine .ite (fun _ => .pure ⟨.cons hx (Twins.mono hσ hcs), rfl⟩) fun _ => ?_
        exact .bind_beside (Twins.stopRoutineIn hrun id (Twins.mono hσ hcs))
          fun τ hτ ys ys' more hy => .pure ⟨.cons (hx.mono hτ) hy, rfl⟩
      unfold EffectMachine.stopRoutineIn
      rw [hc.body.routine, hc.body.stopped]
      dsimp only
      refine .ite (fun _ => ?_) fun _ => ?_
      · exact .bind_beside (Twin.stopWith hrun hc) fun σ hσ x x' halt hx => rest hσ 1 halt hx
      · exact .bind_beside (Twin.stopRoutineWith hrun id hc) fun σ hσ x x' found hx =>
          rest hσ found.1 found.2 hx

end

end Stopping

section Loops

variable {ρ : Pairing} {s s' : Sequence}

/-- A fault ends both. -/
theorem Twin.settle (h : s.Twin ρ s') (halt : Option Halt) :
    (s.settle halt).Twins (s'.settle halt) r ρ (Tick.Beside Twin) := by
  unfold Sequence.settle
  split
  next f =>
    exact .bind (R := SequenceBody.Twin) (.note _ _ (.pure (h.body.failedWith f)))
      fun σ hσ b b' hb => .pure ⟨twin_mk.mpr ⟨hb, h.children.mono hσ⟩, rfl⟩
  next => exact .pure ⟨h, rfl⟩

/-- An effect executed in both twins leaves twins, and puts nothing in its place. -/
theorem Twin.execute (h : s.Twin ρ s') (hd : r.directory.IsStill) (hrun : run.Agree r)
    {e : Effect} (he : e.isStill = true) :
    (s.execute run e).Twins (s'.execute run e) r ρ fun σ x x' =>
      Tick.Beside Twin σ x x' ∧ ∀ effects, x.2 ≠ .splice effects := by
  refine .bind (h.body.perform hd he) fun σ hσ x x' hx => ?_
  obtain ⟨b, flow⟩ := x
  obtain ⟨b', flow'⟩ := x'
  obtain ⟨hb, hf⟩ : b.Twin σ b' ∧ flow.Twin σ flow' := hx
  have hc := h.children.mono hσ
  cases hf with
  | proceed => exact .pure ⟨⟨twin_mk.mpr ⟨hb, hc⟩, rfl⟩, by simp⟩
  | hold => exact .pure ⟨⟨twin_mk.mpr ⟨hb, hc⟩, rfl⟩, by simp⟩
  | fault f => exact .pure ⟨⟨twin_mk.mpr ⟨hb, hc⟩, rfl⟩, by simp⟩
  | spawned c c' child =>
    exact .pure ⟨⟨twin_mk.mpr ⟨hb, List.rel_append hc (.cons child .nil)⟩, rfl⟩, by simp⟩
  | stopRoutine id =>
    refine .bind_beside (Twins.stopRoutineIn hrun id hc) fun τ hτ ys ys' found hy => ?_
    obtain ⟨count, halt⟩ := found
    have hs : (mk b ys).Twin τ (mk b' ys') := twin_mk.mpr ⟨hb.mono hτ, hy⟩
    cases halt with
    | none => exact .pure ⟨⟨hs, rfl⟩, by simp⟩
    | some why => exact .pure ⟨⟨hs, rfl⟩, by simp⟩

/-- By induction on the fuel. -/
theorem Twin.runHandlers (hd : r.directory.IsStill) (hrun : run.Agree r) (n : Nat)
    (es : List Effect) (he : ∀ e ∈ es, e.isStill = true) (h : s.Twin ρ s') :
    (runHandlers run n es s).Twins (runHandlers run n es s') r ρ (Tick.Beside Twin) := by
  induction n generalizing es s s' ρ with
  | zero => exact .pure ⟨h, rfl⟩
  | succ n ih =>
    cases es with
    | nil => exact .pure ⟨h.mapBody h.body.unblocked, rfl⟩
    | cons e es =>
      obtain ⟨he, hes⟩ := List.forall_mem_cons.mp he
      unfold Sequence.runHandlers
      rw [h.skips]
      refine .ite (fun _ => ih es hes h) fun _ => ?_
      refine .bind (h.execute hd hrun he) fun σ hσ x x' hx => ?_
      obtain ⟨x, next⟩ := x
      obtain ⟨x', next'⟩ := x'
      obtain ⟨⟨hx, rfl⟩, hn⟩ : (x.Twin σ x' ∧ next' = next) ∧ _ := hx
      cases next' with
      | proceed => exact ih es hes hx
      | splice effects => exact absurd rfl (hn effects)
      | hold => exact .pure ⟨hx.mapBody hx.body.unscheduled, rfl⟩
      | halt why => exact .pure ⟨hx, rfl⟩

theorem runStopHandlers_agree (hd : r.directory.IsStill) (depth : Nat) :
    (runStopHandlers depth).Agree r := by
  induction depth with
  | zero => exact fun ρ s s' h => .pure ⟨h, rfl⟩
  | succ depth ih =>
    intro ρ s s' h
    unfold runStopHandlers
    rw [h.body.routine]
    exact .read (.bind_beside (Twin.runHandlers hd ih _ _ h.body.still.routine.onStop h)
      fun σ hσ x x' halt hx => hx.settle halt)

theorem Twin.stop (h : s.Twin ρ s') (hd : r.directory.IsStill) :
    s.stop.Twins s'.stop r ρ (Tick.Beside Twin) :=
  .read (Twin.stopWith (runStopHandlers_agree hd _) h)

/-- One turn of the draining loop, by what it comes upon. -/
theorem Twin.drainStep (h : s.Twin ρ s') (hd : r.directory.IsStill) (hrun : run.Agree r) :
    (s.drainStep run).Twins (s'.drainStep run) r ρ (Tick.Beside Twin) := by
  have hblocked := h.body.blockers_isEmpty
  rw [Bool.eq_iff_iff, List.isEmpty_iff, List.isEmpty_iff] at hblocked
  have hqueue := h.body.queue
  by_cases hb : s.body.blockers = []
  case neg =>
    rw [s.drainStep_of_blocked run hb, s'.drainStep_of_blocked run fun hb' => hb (hblocked.mp hb')]
    exact .pure ⟨h.mapBody h.body.capBudget, rfl⟩
  have hb' := hblocked.mpr hb
  cases hq : s.body.queue with
  | nil =>
    obtain ⟨hr, ha⟩ := h.body.requeued
    rw [s.drainStep_of_empty run hb hq, s'.drainStep_of_empty run hb' (hqueue.trans hq), ha]
    exact .pure ⟨twin_mk.mpr ⟨hr, h.children⟩, rfl⟩
  | cons head rest =>
    have hq' := hqueue.trans hq
    have still := h.body.still.queue
    rw [hq] at still
    obtain ⟨hhead, hrest⟩ := List.forall_mem_cons.mp still
    have charged := h.body.charge hq
    cases hs : s.skips head.effect with
    | true =>
      rw [s.drainStep_of_skips run hb hq hs,
        s'.drainStep_of_skips run hb' hq' ((h.skips _).trans hs)]
      exact .pure ⟨h.mapBody (h.body.withQueue hrest), rfl⟩
    | false =>
      have hs' := (h.skips head.effect).trans hs
      by_cases hn : (s.body.charge head rest).budget < 0
      · rw [s.drainStep_of_unpaid run hb hq hs hn,
          s'.drainStep_of_unpaid run hb' hq' hs' (charged.budget ▸ hn)]
        exact .pure ⟨twin_mk.mpr ⟨charged, h.children⟩, rfl⟩
      · rw [s.drainStep_of_paid run hb hq hs hn,
          s'.drainStep_of_paid run hb' hq' hs' (charged.budget ▸ hn)]
        have taken : (s.takeHead head rest).Twin ρ (s'.takeHead head rest) :=
          twin_mk.mpr ⟨charged.withQueue hrest, h.children⟩
        refine .map (taken.execute hd hrun hhead) fun σ hσ x x' hx => ?_
        obtain ⟨x, next⟩ := x
        obtain ⟨x', next'⟩ := x'
        obtain ⟨⟨hx, rfl⟩, hn⟩ : (x.Twin σ x' ∧ next' = next) ∧ _ := hx
        cases next' with
        | splice effects => exact absurd rfl (hn effects)
        | hold => exact ⟨hx.mapBody hx.body.capBudget, rfl⟩
        | proceed => exact ⟨hx, rfl⟩
        | halt why => exact ⟨hx, rfl⟩

/-- By induction on the fuel. -/
theorem Twin.drain (h : s.Twin ρ s') (hd : r.directory.IsStill) (hrun : run.Agree r) (n : Nat) :
    (s.drain run n).Twins (s'.drain run n) r ρ (Tick.Beside Twin) := by
  induction n generalizing s s' ρ with
  | zero => exact .pure ⟨h, rfl⟩
  | succ n ih =>
    refine .bind_beside (h.drainStep hd hrun) fun σ hσ x x' event hx => ?_
    cases event with
    | requeued | skipped | ran => exact ih hx
    | halted _ why => exact .pure ⟨hx, rfl⟩
    | blocked | dry | waiting | held => exact .pure ⟨hx, rfl⟩

end Loops

section Ticks

variable {ρ : Pairing} {s s' : Sequence} (elapsed : Scalar)

theorem alike_advanceEmitter (hd : r.directory.IsStill) {e e' : Emitter} (he : e.Alike ρ e')
    (hs : e.Still) (h h' : Host) :
    Tick.Beside (fun ρ e e' => e.Alike ρ e' ∧ e.Still) ρ
      (e.advance none elapsed r h).1 (e'.advance none elapsed r h').1 := by
  obtain ⟨owner, owned⟩ := he
  have ho := e.owner_advance elapsed none r h
  obtain ⟨x, hx, heq⟩ := Emitter.blind_advance hd none elapsed e hs
  rw [heq] at ho
  rw [Emitter.advance_withOwner, Tick.run_map, heq, heq]
  exact ⟨⟨⟨owner, ho ▸ owned⟩, hx⟩, rfl⟩

/-- Still emitters that are alike but for their owners come to the like. -/
theorem alike_advanceEmitters (hd : r.directory.IsStill) {es es' : List Emitter}
    (he : List.Forall₂ (Emitter.Alike ρ) es es') (hs : ∀ e ∈ es, e.Still) (h h' : Host) :
    Tick.Beside (fun ρ es es' => List.Forall₂ (Emitter.Alike ρ) es es' ∧ ∀ e ∈ es, e.Still) ρ
      (advanceEmitters none elapsed es r h).1 (advanceEmitters none elapsed es' r h').1 := by
  induction he generalizing h h' with
  | nil => exact ⟨⟨.nil, List.forall_mem_nil _⟩, rfl⟩
  | @cons e e' es es' he hes ih =>
    obtain ⟨hs, hss⟩ := List.forall_mem_cons.mp hs
    obtain ⟨⟨ha, hs⟩, hw⟩ := alike_advanceEmitter elapsed hd he hs h h'
    unfold advanceEmitters
    rw [Tick.run_bind, Tick.run_bind]
    dsimp only
    rw [hw]
    split
    · exact ⟨⟨.cons ha hes, List.forall_mem_cons.mpr ⟨hs, hss⟩⟩, rfl⟩
    · obtain ⟨⟨has, hss⟩, hws⟩ := ih hss (e.advance none elapsed r h).2
        (e'.advance none elapsed r h').2
      exact ⟨⟨.cons ha has, List.forall_mem_cons.mpr ⟨hs, hss⟩⟩, hws⟩

theorem forward_advanceEmitters (es : List Emitter) : (advanceEmitters none elapsed es).Forward :=
  .of_leads fun _ => leads_advanceEmitters (HostOrder.forward_admits []) none elapsed es

/-- The emitters of twins move alike. -/
theorem Twin.advanceOwned (h : s.Twin ρ s') (hd : r.directory.IsStill) :
    (s.advanceOwned elapsed).Twins (s'.advanceOwned elapsed) r ρ (Tick.Beside Twin) := by
  refine .bind_beside (Tick.Twins.of_forward (forward_advanceEmitters elapsed _)
    (forward_advanceEmitters elapsed _)
    (alike_advanceEmitters elapsed hd h.body.emitters h.body.still.emitters))
    fun σ hσ es es' halt hx => ?_
  obtain ⟨ha, hs⟩ := hx
  have hb := h.body.mono hσ
  have hc := h.children.mono hσ
  refine .ite (fun _ => .pure ⟨twin_mk.mpr ⟨hb.withEmitters ha hs, hc⟩, rfl⟩) fun _ => ?_
  refine .pure ⟨twin_mk.mpr ⟨hb.withEmitters ?_ fun e he => hs e (List.mem_filter.mp he).1, hc⟩,
    rfl⟩
  refine List.rel_filter (fun e e' he => ?_) ha
  dsimp only
  rw [he.isExpired]

theorem Twin.advanceSelf (h : s.Twin ρ s') (hd : r.directory.IsStill) :
    (s.advanceSelf elapsed).Twins (s'.advanceSelf elapsed) r ρ (Tick.Beside Twin) := by
  refine .read (.bind_beside ((h.dropEnded.earn elapsed).drain hd (runStopHandlers_agree hd _) _)
    fun σ hσ x x' halt hx => ?_)
  refine .ite (fun _ => hx.settle halt) fun _ => ?_
  exact .bind_beside (hx.advanceOwned elapsed hd) fun τ hτ y y' halt hy => hy.settle halt

mutual

/-- A tick leaves twins alike, up to the names that it gives: by induction on the tree. -/
theorem Twin.advance (hd : r.directory.IsStill) (elapsed : Scalar) : ∀ {ρ} {s s' : Sequence},
    s.Twin ρ s' → (s.advance elapsed).Twins (s'.advance elapsed) r ρ (Tick.Beside Twin)
  | ρ, .mk b cs, .mk b' cs', h => by
    obtain ⟨hb, hc⟩ := twin_mk.mp h
    cases hf : (mk b cs).isFailed with
    | true =>
      obtain ⟨f, hn⟩ := isFailed_eq_true.mp hf
      have hn : b.failure = some f := hn
      simp only [Sequence.advance, hb.failure, hn]
      exact .pure ⟨h, rfl⟩
    | false =>
      rw [advance_of_not_failed hf, advance_of_not_failed (h.isFailed.trans hf)]
      refine .bind_beside (Twins.advanceChildren hd _ _ elapsed hc) fun σ hσ x x' halt hx => ?_
      have hs : (mk { b with refilled := false } x).Twin σ (mk { b' with refilled := false } x') :=
        twin_mk.mpr ⟨(hb.mono hσ).unfilled, hx⟩
      exact .ite (fun _ => .pure ⟨hs, rfl⟩) fun _ => hs.advanceSelf elapsed hd

theorem Twins.advanceChildren (hd : r.directory.IsStill) (parent parent' : ResourceId)
    (elapsed : Scalar) : ∀ {ρ} {cs cs' : List Sequence}, Twins ρ cs cs' →
      (advanceChildren parent elapsed cs).Twins (advanceChildren parent' elapsed cs') r ρ
        (Tick.Beside Twins)
  | _, [], _, h => by
    cases h
    exact .pure ⟨.nil, rfl⟩
  | ρ, c :: cs, _, h => by
    cases h with
    | @cons _ c' _ cs' hc hcs =>
      unfold EffectMachine.advanceChildren
      refine .bind_beside (Twin.advance hd elapsed hc) fun σ hσ x x' halt hx => ?_
      have hcs := Twins.mono hσ hcs
      have rest : Tick.Twins (do
            let (cs, halt) ← advanceChildren parent elapsed cs
            return (x :: cs, halt)) (do
            let (cs, halt) ← advanceChildren parent' elapsed cs'
            return (x' :: cs, halt)) r σ (Tick.Beside Twins) :=
        .bind_beside (Twins.advanceChildren hd parent parent' elapsed hcs)
          fun τ hτ y y' halt hy => .pure ⟨.cons (hx.mono hτ) hy, rfl⟩
      cases halt with
      | none => exact rest
      | some why =>
        cases why with
        | outOfFuel => exact .pure ⟨.cons hx hcs, rfl⟩
        | fault f => exact .note _ _ rest

end

end Ticks

end Sequence
end EffectMachine
