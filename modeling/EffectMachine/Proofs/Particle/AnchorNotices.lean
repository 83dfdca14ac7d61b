import EffectMachine.Proofs.Hosts
import EffectMachine.Proofs.Particle.Emitters

namespace EffectMachine

def Notice.isAnchorMissing : Notice → Bool
  | anchorMissing .. => true
  | _ => false

/-- The log only grows, and nothing that comes to it tells of a missing anchor. -/
def HostOrder.reticent : HostOrder where
  rel h h' := ∃ new, h'.log = new ++ h.log ∧ ∀ n ∈ new, n.isAnchorMissing = false
  refl _ := ⟨[], rfl, by simp⟩
  trans := by
    rintro h h' h'' ⟨new, hl, hn⟩ ⟨new', hl', hn'⟩
    refine ⟨new' ++ new, by rw [hl', hl, List.append_assoc], ?_⟩
    exact List.forall_mem_append.mpr ⟨hn', hn⟩

namespace Tick

abbrev Reticent {α : Type} (x : Tick α) (r : Surroundings) : Prop := x.Leads r .reticent

variable {r : Surroundings}

theorem reticent_of_log {α : Type} {x : Tick α} (hx : ∀ h, (x r h).2.log = h.log) : x.Reticent r :=
  fun h => ⟨[], hx h, by simp⟩

theorem reticent_draw {α : Type} (d : Draw α) : (draw d).Reticent r :=
  reticent_of_log fun _ => rfl

theorem reticent_playSound (sound : ResourceId) (position : Vec3) (volume : Scalar)
    (follow : Option ActorId) : (playSound sound position volume follow).Reticent r :=
  reticent_of_log fun _ => rfl

theorem reticent_note {n : Notice} (hn : n.isAnchorMissing = false) : (note n).Reticent r :=
  fun _ => ⟨[n], rfl, by simpa using hn⟩

end Tick

section Ticks

variable {r : Surroundings} (elapsed : Scalar) (anchor : Anchor)

namespace ParticleBody

theorem reticent_terminate (p : ParticleBody) (g : Generator) (fault : Fault) :
    (p.terminate g fault).Reticent r :=
  .bind (Tick.reticent_note rfl) fun _ => .pure _

theorem reticent_lookUp (g : Generator) (track : KeyFrameTrack) : (lookUp g track).Reticent r := by
  unfold lookUp
  split
  · refine .read ?_
    split
    · exact .pure _
    · exact .bind (Tick.reticent_note rfl) fun _ => .pure _
  · exact .pure _

theorem reticent_applyUpdater (p : ParticleBody) (g : Generator) (u : Slotted Updater) :
    (p.applyUpdater g elapsed u).Reticent r := by
  refine .ite ?_ (.pure _)
  unfold applyKeyFrames
  split
  · exact .pure _
  · refine .bind (reticent_lookUp g _) fun track => ?_
    dsimp only
    split
    · exact .pure _
    · exact .pure _

theorem reticent_applyUpdaters (g : Generator) (p : ParticleBody) (us : List (Slotted Updater)) :
    (p.applyUpdaters g elapsed us).Reticent r := by
  induction us generalizing p with
  | nil => exact .pure p
  | cons u us ih =>
    refine .bind (reticent_applyUpdater elapsed p g u) fun x => ?_
    split
    · exact ih _
    · exact p.reticent_terminate g _

theorem reticent_grow (p : ParticleBody) (g : Generator) : (p.grow g elapsed anchor).Reticent r :=
  .bind (reticent_applyUpdaters elapsed g _ _) fun _ => .pure _

theorem reticent_emitter? (p : ParticleBody) (scope : SpawnScope) (id : ResourceId)
    (windowed : Bool) : (p.emitter? scope id windowed).Reticent r := by
  refine .read (.ite (.bind (Tick.reticent_note rfl) fun _ => .pure _) ?_)
  split
  · exact .bind (Tick.reticent_note rfl) fun _ => .pure _
  · exact .pure _

theorem reticent_startOwned (scope : SpawnScope) (p : Particle) (is : List (Slotted Initializer)) :
    (startOwned scope p is).Reticent r := by
  induction is generalizing p with
  | nil => exact .pure p
  | cons i is ih =>
    obtain ⟨body, children, emitters⟩ := p
    unfold startOwned
    split
    · exact .bind (body.reticent_emitter? scope _ _) fun _ => ih _
    · exact .bind (Tick.reticent_playSound _ _ _ _) fun _ => ih _
    · exact ih _

end ParticleBody

namespace Particle

variable (scope : SpawnScope)

theorem reticent_spawn (maxAge : Scalar) : (spawn scope maxAge anchor).Reticent r := by
  refine .bind (Tick.reticent_draw _) fun birth => ?_
  split
  · exact .bind (ParticleBody.reticent_startOwned scope _ _) fun _ => .pure _
  · exact .bind (ParticleBody.reticent_terminate _ _ _) fun _ => .pure _
  · exact .pure _

theorem reticent_runHandlers (p : Particle) (hs : List (Slotted ExpirationHandler)) :
    (runHandlers scope p hs).Reticent r := by
  induction hs generalizing p with
  | nil => exact .pure p
  | cons h hs ih =>
    obtain ⟨body, children, emitters⟩ := p
    unfold runHandlers
    split
    · exact .bind (body.reticent_emitter? scope _ _) fun _ => ih _
    · exact .bind (Tick.reticent_playSound _ _ _ _) fun _ => ih _
    · exact ih _

theorem reticent_expire (p : Particle) : (p.expire scope).Reticent r := by
  obtain ⟨body, children, emitters⟩ := p
  refine .ite (.pure _) (.bind (reticent_runHandlers scope _ _) fun x => ?_)
  obtain ⟨body, children, emitters⟩ := x
  exact .ite (.pure _) (.pure _)

theorem reticent_growSelf (g : Generator) (p : Particle) :
    (p.growSelf g elapsed anchor).Reticent r := by
  obtain ⟨body, children, emitters⟩ := p
  exact .bind (body.reticent_grow elapsed anchor g) fun _ => .pure _

theorem reticent_advanceSelf (p : Particle) :
    (p.advanceSelf scope elapsed anchor).Reticent r := by
  obtain ⟨body, children, emitters⟩ := p
  have ends (p : Particle) :
      Tick.Reticent (if (p.isExpired && !p.body.expirationHandled) = true then
        p.stopEmitters.expire scope else pure p) r :=
    .ite (reticent_expire scope _) (.pure _)
  refine .bind (.filterM Tick.leads_isPlaying _) fun playing => .ite (.pure _) ?_
  dsimp only
  split
  · exact ends _
  · exact .bind (reticent_growSelf elapsed anchor _ _) ends

end Particle

namespace EmitterBody

/-- An emitter with a parent anchor takes that one. -/
theorem reticent_updateAnchor {e : EmitterBody} {parent : Anchor}
    (hp : e.parentAnchor = some parent) : e.updateAnchor.Reticent r := by
  unfold updateAnchor
  rw [hp]
  exact .pure _

theorem reticent_applyUpdater (e : EmitterBody) (u : GeneratorUpdater) :
    (e.applyUpdater elapsed u).Reticent r := by
  cases u with
  | distanceCull => exact .read (.pure _)
  | baseJitter => exact .bind (Tick.reticent_draw _) fun _ => .pure _
  | _ => exact .pure _

theorem reticent_applyUpdaters (us : List GeneratorUpdater) (e : EmitterBody) :
    (us.foldlM (fun (e : EmitterBody) u => e.applyUpdater elapsed u) e).Reticent r := by
  induction us generalizing e with
  | nil => exact .pure e
  | cons u us ih =>
    rw [List.foldlM_cons]
    exact .bind (e.reticent_applyUpdater elapsed u) ih

theorem reticent_prepare {e : EmitterBody} {parent : Anchor} (hp : e.parentAnchor = some parent) :
    (e.prepare elapsed).Reticent r :=
  .bind (reticent_updateAnchor hp) fun e => e.reticent_applyUpdaters elapsed _

theorem reticent_spawn (e : EmitterBody) : (e.spawn anchor).Reticent r := by
  refine .bind ?_ fun maxAge => Particle.reticent_spawn anchor e.scope maxAge
  exact .bind (Tick.reticent_draw _) fun _ => .pure _

theorem reticent_spawnBatch (e : EmitterBody) (n : Nat) : (e.spawnBatch anchor n).Reticent r := by
  induction n with
  | zero => exact .pure _
  | succ n ih =>
    refine .bind (e.reticent_spawn anchor) fun x => ?_
    split
    · exact .pure _
    · refine .bind ih fun y => ?_
      split
      · exact .pure _
      · exact .pure _

end EmitterBody

namespace Emitter

theorem reticent_emitOne (e : Emitter) : (e.emitOne anchor).Reticent r := by
  obtain ⟨body, particles⟩ := e
  refine .ite ?_ ?_
  · refine .bind (body.reticent_spawnBatch anchor _) fun x => ?_
    split
    · exact .pure _
    · exact .pure _
  · refine .bind (body.reticent_spawn anchor) fun x => ?_
    split
    · exact .pure _
    · exact .pure _

theorem reticent_emit (n : Nat) (e : Emitter) : (e.emit anchor n).Reticent r := by
  induction n generalizing e with
  | zero => exact .pure _
  | succ n ih =>
    refine .read (.ite (.pure _) (.bind (e.reticent_emitOne anchor) fun x => ?_))
    split
    · exact ih _
    · exact .pure _

theorem reticent_schedule (e : Emitter) : e.schedule.Reticent r := by
  obtain ⟨body, particles⟩ := e
  exact .bind (Tick.reticent_draw _) fun _ => .pure _

theorem reticent_emitDue (n : Nat) (e : Emitter) : (emitDue anchor n e).Reticent r := by
  induction n generalizing e with
  | zero => exact .pure _
  | succ n ih =>
    refine .ite (.pure _) (.ite (.pure _) (.bind (reticent_emit anchor _ e) fun x => ?_))
    split
    · exact .pure _
    · exact .bind (reticent_schedule _) ih

theorem reticent_finish (e : Emitter) : (e.finish elapsed anchor).Reticent r := by
  obtain ⟨body, particles⟩ := e
  unfold finish
  dsimp only
  split
  · refine .read (.bind (reticent_emitDue anchor _ _) fun x => ?_)
    obtain ⟨e, halt⟩ := x
    cases halt with
    | none => exact .pure _
    | some why => exact .pure _
  · exact .pure _

end Emitter

end Ticks

section Trees

variable {r : Surroundings}

mutual

theorem Particle.reticent_advance (scope : SpawnScope) (elapsed : Scalar) (anchor : Anchor) :
    ∀ p : Particle, (p.advance scope elapsed anchor).Reticent r
  | .mk body children emitters => by
    unfold Particle.advance
    refine .bind (reticent_advanceParticles scope elapsed anchor children) fun x => ?_
    refine .ite (.pure _) (.bind ?_ fun y => ?_)
    · exact reticent_advanceEmitters body.worldAnchor elapsed emitters
    · exact .ite (.pure _) (.bind (Particle.reticent_advanceSelf elapsed anchor scope _) fun _ =>
        .pure _)

/-- In the frame of a particle. -/
theorem Emitter.reticent_advance (parent : Anchor) (elapsed : Scalar) :
    ∀ e : Emitter, (e.advance (some parent) elapsed).Reticent r
  | .mk body particles => by
    unfold Emitter.advance
    refine .bind (EmitterBody.reticent_prepare elapsed rfl) fun body => ?_
    refine .bind (reticent_advanceParticles body.scope elapsed _ particles) fun x => ?_
    exact .ite (.pure _) (Emitter.reticent_finish elapsed _ _)

theorem reticent_advanceParticles (scope : SpawnScope) (elapsed : Scalar) (anchor : Anchor) :
    ∀ ps : List Particle, (advanceParticles scope elapsed anchor ps).Reticent r
  | [] => .pure _
  | p :: ps => by
    unfold advanceParticles
    refine .bind (Particle.reticent_advance scope elapsed anchor p) fun x => .ite (.pure _) ?_
    exact .bind (reticent_advanceParticles scope elapsed anchor ps) fun _ => .pure _

theorem reticent_advanceEmitters (parent : Anchor) (elapsed : Scalar) :
    ∀ es : List Emitter, (advanceEmitters (some parent) elapsed es).Reticent r
  | [] => .pure _
  | e :: es => by
    unfold advanceEmitters
    refine .bind (Emitter.reticent_advance parent elapsed e) fun x => .ite (.pure _) ?_
    exact .bind (reticent_advanceEmitters parent elapsed es) fun _ => .pure _

end

/-- Once the emitter's own part of a tick is done, nothing tells of a missing anchor any more. -/
theorem Emitter.reticent_ticked (e : Emitter) (t : EmitterTick) :
    HostOrder.reticent.rel (e.prepared t).2 (e.ticked t).2 := by
  have moved : HostOrder.reticent.rel (e.prepared t).2 (e.movedParticles t).2 :=
    reticent_advanceParticles _ _ _ _ _
  rw [ticked_eq]
  split
  · exact moved
  · exact HostOrder.reticent.trans moved (reticent_finish _ _ _ _)

end Trees

end EffectMachine
