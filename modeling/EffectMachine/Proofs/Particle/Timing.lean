import EffectMachine.Proofs.Particle.Rounds

namespace EffectMachine

namespace EmitterBody

/-- The clock shows the same, and the interval is as it was unless one of the updaters ramps it. -/
structure SameClock (us : List GeneratorUpdater) (e e' : EmitterBody) : Prop where
  maxLifetime : e'.maxLifetime = e.maxLifetime
  lifetime : e'.lifetime = e.lifetime
  countdown : e'.countdown = e.countdown
  windowed : e'.windowed = e.windowed
  interval : (∀ target frames, .emissionRamp target frames ∉ us) → e'.interval = e.interval

variable {us us' : List GeneratorUpdater} {e e' e'' : EmitterBody}

theorem SameClock.refl (e : EmitterBody) : SameClock us e e := ⟨rfl, rfl, rfl, rfl, fun _ => rfl⟩

/-- Clocks that agree in two steps agree in both, with the updaters of both. -/
theorem SameClock.trans (h : SameClock us e e') (h' : SameClock us' e' e'') :
    SameClock (us ++ us') e e'' where
  maxLifetime := h'.maxLifetime.trans h.maxLifetime
  lifetime := h'.lifetime.trans h.lifetime
  countdown := h'.countdown.trans h.countdown
  windowed := h'.windowed.trans h.windowed
  interval hu := by
    simp only [List.mem_append, not_or] at hu
    exact (h'.interval fun target frames => (hu target frames).2).trans
      (h.interval fun target frames => (hu target frames).1)

theorem updateAnchor_sameClock (e : EmitterBody) : e.updateAnchor.Always (SameClock [] e) := by
  unfold updateAnchor
  split
  · exact .pure ⟨rfl, rfl, rfl, rfl, fun _ => rfl⟩
  · split
    · exact .pure (.refl e)
    · refine .after _ fun r => ?_
      split
      · exact .pure ⟨rfl, rfl, rfl, rfl, fun _ => rfl⟩
      · split
        · exact .pure (.refl e)
        · exact .after _ fun _ => .pure ⟨rfl, rfl, rfl, rfl, fun _ => rfl⟩

theorem applyUpdater_sameClock (e : EmitterBody) (elapsed : Scalar) (u : GeneratorUpdater) :
    (e.applyUpdater elapsed u).Always (SameClock [u] e) := by
  cases u with
  | emissionRamp target frames =>
    exact .pure ⟨rfl, rfl, rfl, rfl, fun h => absurd List.mem_cons_self (h target frames)⟩
  | distanceCull | baseJitter =>
    exact .after _ fun _ => .pure ⟨rfl, rfl, rfl, rfl, fun _ => rfl⟩
  | _ => exact .pure ⟨rfl, rfl, rfl, rfl, fun _ => rfl⟩

theorem applyUpdaters_sameClock (elapsed : Scalar) (us : List GeneratorUpdater) (e : EmitterBody) :
    (us.foldlM (fun (e : EmitterBody) u => e.applyUpdater elapsed u) e).Always
      (SameClock us e) := by
  induction us generalizing e with
  | nil => exact .pure (.refl e)
  | cons u us ih =>
    rw [List.foldlM_cons]
    exact .bind (e.applyUpdater_sameClock elapsed u) fun e' h => (ih e').mono fun _ => h.trans

/-- Before its particles move, an emitter grows older by the tick and that is all. -/
theorem prepare_sameClock (e : EmitterBody) (elapsed : Scalar) :
    (e.prepare elapsed).Always
      (SameClock e.definition.generatorUpdaters { e with lifetime := e.lifetime + elapsed }) := by
  have kept := updateAnchor_keeps { e with lifetime := e.lifetime + elapsed }
  have clock := updateAnchor_sameClock { e with lifetime := e.lifetime + elapsed }
  refine .bind (P := fun e' => Keeps { e with lifetime := e.lifetime + elapsed } e' ∧
    SameClock [] { e with lifetime := e.lifetime + elapsed } e')
    (fun r h => ⟨kept r h, clock r h⟩) fun e' he => ?_
  rw [he.1.definition]
  exact (applyUpdaters_sameClock elapsed _ e').mono fun _ => he.2.trans

end EmitterBody

namespace Emitter

/-- The emitter in a tick, once it is its emission's turn. -/
def readied (e : Emitter) (t : EmitterTick) : Emitter :=
  mk (e.prepared t).1 ((e.movedParticles t).1.1.filter fun p => !p.isComplete)

def emission (e : Emitter) (t : EmitterTick) (n : Nat) : Emitter × Option Halt :=
  (emitDue (e.particleTick t).anchor n (e.readied t) t.surroundings (e.movedParticles t).2).1

def countedDown (e : Emitter) (elapsed : Scalar) : Emitter :=
  e.mapBody fun b => { b with countdown := b.countdown - elapsed }

@[simp] theorem particles_countedDown (e : Emitter) (elapsed : Scalar) :
    (e.countedDown elapsed).particles = e.particles := by
  obtain ⟨b, ps⟩ := e
  rfl

theorem doneEmitting_countedDown (e : Emitter) (elapsed : Scalar) :
    (e.countedDown elapsed).doneEmitting = e.doneEmitting := by
  obtain ⟨b, ps⟩ := e
  rfl

/-- How a tick ends: in the particles, after emission, or without one. -/
inductive TickEnds (e : Emitter) (t : EmitterTick) : Emitter × Option Halt → Prop where
  | moving (halted : (e.movedParticles t).1.2.isSome) :
      e.TickEnds t (mk (e.prepared t).1 (e.movedParticles t).1.1, (e.movedParticles t).1.2)
  | idle (rests : (e.prepared t).1.culled = true ∨ (e.prepared t).1.doneEmitting = true) :
      e.TickEnds t ((e.readied t).countedDown t.elapsed, none)
  | stopped {e' : Emitter} {why : Halt}
      (emission : e.emission t t.surroundings.fuel = (e', some why)) : e.TickEnds t (e', some why)
  | emitted {e' : Emitter} (culled : (e.prepared t).1.culled = false)
      (active : (e.prepared t).1.doneEmitting = false)
      (emission : e.emission t t.surroundings.fuel = (e', none)) :
      e.TickEnds t (e'.countedDown t.elapsed, none)

/-- There are four ways for a tick to end. -/
theorem ticked_ends (e : Emitter) (t : EmitterTick) : e.TickEnds t (e.ticked t).1 := by
  rw [ticked_eq]
  split
  next hm => exact .moving hm
  next hm =>
    unfold finish
    dsimp only
    split
    next hc =>
      simp only [Bool.and_eq_true, Bool.not_eq_true'] at hc
      cases hy : emitDue (e.particleTick t).anchor t.surroundings.fuel (e.readied t) t.surroundings
        (e.movedParticles t).2 with
      | mk x h =>
        obtain ⟨e', halt⟩ := x
        have hx : e.emission t t.surroundings.fuel = (e', halt) := congrArg Prod.fst hy
        rw [readied] at hy
        rw [Tick.run_bind, Tick.run_bind, Tick.run_read, hy]
        cases halt with
        | none => exact .emitted hc.1 hc.2 hx
        | some why => exact .stopped hx
    next hc =>
      simp only [Bool.and_eq_true, Bool.not_eq_true', not_and_or, Bool.not_eq_false] at hc
      exact .idle hc

/-- What the tick has done to the clock by the turn of emission. -/
theorem readied_sameClock (e : Emitter) (t : EmitterTick) :
    EmitterBody.SameClock e.body.definition.generatorUpdaters
      { e.body with lifetime := e.body.lifetime + t.elapsed } (e.readied t).body := by
  obtain ⟨maxLifetime, lifetime, countdown, windowed, interval⟩ := EmitterBody.prepare_sameClock
    { e.body with parentAnchor := t.parent.or e.body.parentAnchor } t.elapsed t.surroundings t.host
  exact ⟨maxLifetime, lifetime, countdown, windowed, interval⟩

theorem prepared_doneEmitting (e : Emitter) (t : EmitterTick) :
    (e.prepared t).1.doneEmitting =
      { e.body with lifetime := e.body.lifetime + t.elapsed }.doneEmitting := by
  have keeps := e.prepared_keeps t
  have clock : EmitterBody.SameClock _ _ (e.prepared t).1 := e.readied_sameClock t
  simp only [EmitterBody.doneEmitting, keeps.definition, keeps.stopRequested, keeps.emitted,
    clock.maxLifetime, clock.lifetime, clock.windowed]

/-- Of what is the emitter's own, emission changes only how many it made and the countdown. -/
def OnlyEmits (b b' : EmitterBody) : Prop :=
  b' = { b with emitted := b'.emitted, countdown := b'.countdown }

theorem OnlyEmits.refl (b : EmitterBody) : OnlyEmits b b := rfl

theorem OnlyEmits.trans {b b' b'' : EmitterBody} (h : OnlyEmits b b') (h' : OnlyEmits b' b'') :
    OnlyEmits b b'' := by
  rw [OnlyEmits, h', h]

theorem OnlyEmits.culled {b b' : EmitterBody} (h : OnlyEmits b b') : b'.culled = b.culled := by
  rw [h]

theorem adding_onlyEmits (e : Emitter) (new : List Particle) :
    OnlyEmits e.body (e.adding new).body :=
  rfl

theorem postponed_onlyEmits (e : Emitter) (step : Scalar) :
    OnlyEmits e.body (e.postponed step).body := by
  obtain ⟨b, ps⟩ := e
  rfl

theorem countedDown_onlyEmits (e : Emitter) (elapsed : Scalar) :
    OnlyEmits e.body (e.countedDown elapsed).body := by
  obtain ⟨b, ps⟩ := e
  rfl

theorem GoesRound.onlyEmits {config : Config} {e : Emitter} {x : Emitter × Option Halt}
    (h : e.GoesRound config x) : OnlyEmits e.body x.1.body := by
  cases h with
  | stopped f fills =>
    obtain ⟨⟨new, rfl⟩, -⟩ := fills.adds
    exact e.adding_onlyEmits new
  | @scheduled e' variance fills =>
    obtain ⟨⟨new, rfl⟩, -⟩ := fills.adds
    exact (e.adding_onlyEmits new).trans (postponed_onlyEmits _ _)

/-- What comes after the emitter's own part of a tick only emits. -/
theorem ticked_onlyEmits (e : Emitter) (t : EmitterTick) :
    OnlyEmits (e.prepared t).1 (e.ticked t).1.1.body := by
  have emission : OnlyEmits (e.prepared t).1 (e.emission t t.surroundings.fuel).1.body :=
    emitDue_always (P := fun e' => OnlyEmits (e.prepared t).1 e'.body)
      (fun _ _ he hx => he.trans hx.onlyEmits) _ _ (.refl _) _
  have ends := e.ticked_ends t
  generalize (e.ticked t).1 = x at ends ⊢
  cases ends with
  | moving => exact .refl _
  | idle => exact (e.readied t).countedDown_onlyEmits t.elapsed
  | stopped hx => rwa [hx] at emission
  | @emitted e' _ _ hx =>
    rw [hx] at emission
    exact emission.trans (e'.countedDown_onlyEmits _)

end Emitter
end EffectMachine
