import EffectMachine.Proofs.Particle.Moves

namespace EffectMachine

namespace EmitterBody

/-- What is the emitter's own still holds of it: what it makes, whether it was told to stop and how
many it made. -/
structure Keeps (e e' : EmitterBody) : Prop where
  definition : e'.definition = e.definition
  stopRequested : e'.stopRequested = e.stopRequested
  emitted : e'.emitted = e.emitted

theorem Keeps.refl (e : EmitterBody) : e.Keeps e := ⟨rfl, rfl, rfl⟩

theorem Keeps.trans {e e' e'' : EmitterBody} (h : e.Keeps e') (h' : e'.Keeps e'') : e.Keeps e'' :=
  ⟨h'.definition.trans h.definition, h'.stopRequested.trans h.stopRequested,
    h'.emitted.trans h.emitted⟩

theorem updateAnchor_keeps (e : EmitterBody) : e.updateAnchor.Always e.Keeps := by
  unfold updateAnchor
  split
  · exact .pure ⟨rfl, rfl, rfl⟩
  · split
    · exact .pure (.refl e)
    · refine .after _ fun r => ?_
      split
      · exact .pure ⟨rfl, rfl, rfl⟩
      · split
        · exact .pure (.refl e)
        · exact .after _ fun _ => .pure ⟨rfl, rfl, rfl⟩

theorem applyUpdater_keeps (e : EmitterBody) (elapsed : Scalar) (u : GeneratorUpdater) :
    (e.applyUpdater elapsed u).Always e.Keeps := by
  cases u with
  | distanceCull | baseJitter => exact .after _ fun _ => .pure ⟨rfl, rfl, rfl⟩
  | _ => exact .pure ⟨rfl, rfl, rfl⟩

theorem prepare_keeps (e : EmitterBody) (elapsed : Scalar) :
    (e.prepare elapsed).Always e.Keeps := by
  refine .bind (updateAnchor_keeps { e with lifetime := e.lifetime + elapsed }) fun e' he => ?_
  exact .foldlM (fun e' u hk => (e'.applyUpdater_keeps elapsed u).mono fun _ => hk.trans) _
    ⟨he.definition, he.stopRequested, he.emitted⟩

end EmitterBody

/-- A tick of an emitter, with what it finds. An anchor that is given replaces that of its owner. -/
structure EmitterTick where
  parent : Option Anchor
  elapsed : Scalar
  surroundings : Surroundings
  host : Host

namespace Emitter

def ticked (e : Emitter) (t : EmitterTick) : (Emitter × Option Halt) × Host :=
  e.advance t.parent t.elapsed t.surroundings t.host

def prepared (e : Emitter) (t : EmitterTick) : EmitterBody × Host :=
  ({ e.body with parentAnchor := t.parent.or e.body.parentAnchor }).prepare t.elapsed
    t.surroundings t.host

def particleTick (e : Emitter) (t : EmitterTick) : ParticleTick where
  binding := (e.prepared t).1.binding
  depth := (e.prepared t).1.depth
  elapsed := t.elapsed
  anchor := (e.prepared t).1.emissionAnchor
  surroundings := t.surroundings
  host := (e.prepared t).2

def movedParticles (e : Emitter) (t : EmitterTick) : (List Particle × Option Halt) × Host :=
  advanceParticles ((e.particleTick t).scope e.body.definition) t.elapsed (e.particleTick t).anchor
    e.particles t.surroundings (e.particleTick t).host

@[simp] theorem body_mk (b : EmitterBody) (ps : List Particle) : (mk b ps).body = b := rfl

@[simp] theorem particles_mk (b : EmitterBody) (ps : List Particle) : (mk b ps).particles = ps :=
  rfl

variable (e : Emitter) (t : EmitterTick)

theorem prepared_keeps : e.body.Keeps (e.prepared t).1 :=
  have h := EmitterBody.prepare_keeps
    { e.body with parentAnchor := t.parent.or e.body.parentAnchor } t.elapsed t.surroundings t.host
  ⟨h.definition, h.stopRequested, h.emitted⟩

theorem prepared_scope :
    (e.prepared t).1.scope = (e.particleTick t).scope e.body.definition := by
  rw [EmitterBody.scope, (e.prepared_keeps t).definition]
  rfl

/-- A tick, once the particles have moved. -/
theorem ticked_eq :
    e.ticked t =
      if (e.movedParticles t).1.2.isSome then
        ((mk (e.prepared t).1 (e.movedParticles t).1.1, (e.movedParticles t).1.2),
          (e.movedParticles t).2)
      else
        (mk (e.prepared t).1 (e.movedParticles t).1.1).finish t.elapsed (e.particleTick t).anchor
          t.surroundings (e.movedParticles t).2 := by
  have hs := e.prepared_scope t
  obtain ⟨b, ps⟩ := e
  rw [ticked, advance, Tick.run_bind]
  change (advanceParticles (prepared (mk b ps) t).1.scope _ _ _ >>= _ : Tick _) _ _ = _
  rw [hs, Tick.run_bind]
  change (if ((mk b ps).movedParticles t).1.2.isSome = true then _ else _ : Tick _) _ _ = _
  split <;> rfl

inductive Happening where
  | tick (tick : EmitterTick)
  /-- It is told to stop. -/
  | stop

def after : Emitter → List Happening → Emitter
  | e, [] => e
  | e, .tick t :: hs => after (e.ticked t).1.1 hs
  | e, .stop :: hs => after e.stop hs

end Emitter
end EffectMachine
