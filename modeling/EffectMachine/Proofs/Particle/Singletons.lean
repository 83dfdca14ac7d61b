import EffectMachine.Proofs.Particle.Rounds

namespace EffectMachine

namespace Particle

theorem expire_sounds (scope : SpawnScope) (p : Particle) :
    (p.expire scope).Always fun q => p.body.sounds <+: q.body.sounds := by
  obtain ⟨b, cs, es⟩ := p
  unfold expire
  dsimp only
  split
  · exact .pure List.prefix_rfl
  · refine .bind (runHandlers_adds scope _ _) fun q hq => ?_
    obtain ⟨sounds, emitters, rfl⟩ := hq
    dsimp only
    split
    · exact .pure (List.prefix_append ..)
    · exact .pure (List.prefix_append ..)

theorem endTick_sounds (scope : SpawnScope) (p : Particle) :
    (p.endTick scope).Always fun q => p.body.sounds <+: q.body.sounds := by
  unfold endTick
  split
  · rw [← congrArg ParticleBody.sounds p.body_stopEmitters]
    exact expire_sounds scope p.stopEmitters
  · exact .pure List.prefix_rfl

/-- What still plays is still among the sounds of the particle. -/
theorem advanceSelf_sounds (scope : SpawnScope) (elapsed : Scalar) (anchor : Anchor) (p : Particle)
    (r : Surroundings) (h : Host) :
    (p.body.sounds.filter fun sound => h.stage.isPlaying sound) <+:
      (p.advanceSelf scope elapsed anchor r h).1.body.sounds := by
  rw [advanceSelf_eq]
  split
  · exact List.prefix_rfl
  · refine Tick.Always.bind (P := fun q : Particle =>
      q.body.sounds = (p.hearing h).body.sounds)
      (R := fun q : Particle => (p.hearing h).body.sounds <+: q.body.sounds) ?_
      (fun q hq => ?_) r h
    · split
      · exact .pure rfl
      · obtain ⟨b, cs, es⟩ := p
        exact .bind (ParticleBody.grow_passed _ _ _ _) fun q hq => .pure hq.sounds
    · exact (endTick_sounds scope q).mono fun q' hq' => hq ▸ hq'

/-- In this tick the particle comes to its end, and so does all that it ever started: its batch, its
emitters and its sounds. -/
structure Finishes (g : Generator) (p : Particle) (t : ParticleTick) : Prop where
  complete : (p.ticked g t).1.1.isComplete = true
  batch : ∀ c ∈ (p.movedBatch g t).1.1, c.isComplete = true
  emitters : ∀ e ∈ (p.movedEmitters g t).1.1, e.isExpired = true
  sounds : ∀ sound ∈ p.body.sounds, (p.movedEmitters g t).2.stage.isPlaying sound = false

/-- A particle that is complete after a tick came to its end in it, with all that it owns. -/
theorem finishes_of_complete {g : Generator} {p : Particle} {t : ParticleTick}
    (ho : p.ownedMoved g t = true) (hc : (p.ticked g t).1.1.isComplete = true) :
    p.Finishes g t := by
  have hx := ticked_of_ownedMoved ho
  have left := hc
  rw [hx] at left
  simp only [isComplete, Bool.and_eq_true, List.isEmpty_iff] at left
  obtain ⟨⟨⟨-, hb⟩, he⟩, hs⟩ := left
  have closes := advanceSelf_closes (t.scope g) t.elapsed t.anchor (p.settled g t) t.surroundings
    (p.movedEmitters g t).2
  have playing := advanceSelf_sounds (t.scope g) t.elapsed t.anchor (p.settled g t) t.surroundings
    (p.movedEmitters g t).2
  rw [hs, List.prefix_nil, List.filter_eq_nil_iff] at playing
  have empty : (p.settled g t).children = [] ∧ (p.settled g t).emitters = [] := by
    cases closes with
    | asIs children emitters => exact ⟨children ▸ hb, emitters ▸ he⟩
    | hushed new children emitters =>
      rw [children, List.map_eq_nil_iff] at hb
      rw [emitters, List.append_eq_nil_iff, List.map_eq_nil_iff] at he
      exact ⟨hb, he.1⟩
  refine ⟨hc, fun c hm => ?_, fun e hm => ?_, fun sound hm => ?_⟩
  · simpa using List.filter_eq_nil_iff.mp empty.1 c hm
  · simpa using List.filter_eq_nil_iff.mp empty.2 e hm
  · simpa using playing sound hm

end Particle

namespace Emitter

/-- Nothing was made, or one emission was, where there was no particle. -/
inductive AddsOne (e e' : Emitter) : Prop where
  | nothing (definition : e'.body.definition = e.body.definition)
      (emitted : e'.body.emitted = e.body.emitted) (particles : e'.particles = e.particles)
  | one (definition : e'.body.definition = e.body.definition) (none : e.particles = [])
      (emitted : e'.body.emitted = e.body.emitted + UInt32.ofNat e.body.definition.batchSize)
      (single : e'.particles.length = 1)

variable {e e' e'' : Emitter}

theorem AddsOne.definition (h : e.AddsOne e') : e'.body.definition = e.body.definition := by
  cases h with
  | nothing definition | one definition => exact definition

theorem AddsOne.refl (e : Emitter) : e.AddsOne e := .nothing rfl rfl rfl

/-- After an emission there is a particle, so there is no other. -/
theorem AddsOne.trans (h : e.AddsOne e') (h' : e'.AddsOne e'') : e.AddsOne e'' := by
  have hd := h'.definition.trans h.definition
  cases h with
  | nothing definition emitted particles =>
    cases h' with
    | nothing _ emitted' particles' =>
      exact .nothing hd (emitted'.trans emitted) (particles'.trans particles)
    | one _ none emitted' single =>
      exact .one hd (particles ▸ none) (by rw [emitted', emitted, definition]) single
  | one _ none emitted single =>
    cases h' with
    | nothing _ emitted' particles' =>
      exact .one hd none (emitted'.trans emitted) (particles' ▸ single)
    | one _ none' => simp [none'] at single

theorem Fills.addsOne {config : Config} {n : Nat} {x : Emitter × Option Halt}
    (hf : e.body.definition.flags.continuousSingleton = true) (h : Fills config n e x) :
    e.AddsOne x.1 := by
  induction h with
  | enough e => exact .refl e
  | full | refused => exact .refl _
  | @made n e x p room rest ih =>
    have hp : e.particles = [] := by simp_all [hasRoom]
    have first : e.AddsOne (e.adding [p]) := .one rfl hp (by simp) (by simp [hp])
    exact first.trans (ih hf)

theorem GoesRound.addsOne {config : Config} {x : Emitter × Option Halt}
    (hf : e.body.definition.flags.continuousSingleton = true) (h : e.GoesRound config x) :
    e.AddsOne x.1 := by
  cases h with
  | stopped f fills => exact fills.addsOne hf
  | @scheduled e' variance fills =>
    refine (fills.addsOne hf).trans ?_
    obtain ⟨b, ps⟩ := e'
    exact .nothing rfl rfl rfl

theorem emitDue_addsOne (hf : e.body.definition.flags.continuousSingleton = true)
    (anchor : Anchor) (r : Surroundings) (n : Nat) :
    (emitDue anchor n e).At r fun x => e.AddsOne x.1 :=
  emitDue_always (fun _ _ he hx => he.trans (hx.addsOne (by rwa [he.definition]))) anchor n
    (.refl e)

/-- The end of a tick: those that are complete go, and then at most one comes. -/
theorem finish_addsOne (hf : e.body.definition.flags.continuousSingleton = true)
    (elapsed : Scalar) (anchor : Anchor) (r : Surroundings) :
    (e.finish elapsed anchor).At r fun x =>
      (mk e.body (e.particles.filter fun p => !p.isComplete)).AddsOne x.1 := by
  obtain ⟨b, ps⟩ := e
  unfold finish
  dsimp only
  split
  · refine .read (.bind (emitDue_addsOne (by exact hf) anchor r _) fun x hx => ?_)
    obtain ⟨⟨b', ps'⟩, halt⟩ := x
    cases halt with
    | some why => exact .pure hx
    | none => exact .pure (hx.trans (.nothing rfl rfl rfl))
  · exact .pure (.nothing rfl rfl rfl)

/-- What a tick of an emitter with at most one particle brings: no new particle, or one in place of
the last, which finishes in this tick. -/
inductive Replaces (e : Emitter) (t : EmitterTick) : Prop where
  | keeps (emitted : (e.ticked t).1.1.body.emitted = e.body.emitted)
      (particles : (e.ticked t).1.1.particles.Sublist (e.movedParticles t).1.1)
  | emits
      (emitted : (e.ticked t).1.1.body.emitted =
        e.body.emitted + UInt32.ofNat e.body.definition.batchSize)
      (single : (e.ticked t).1.1.particles.length = 1)
      (finished : ∀ p ∈ e.particles, p.Finishes e.body.definition (e.particleTick t))

/-- A lone particle has its tick first, and its emitter goes on only if that is not stopped. -/
theorem movedParticles_single {p : Particle} (hp : e.particles = [p]) (t : EmitterTick) :
    (e.movedParticles t).1 = ([(p.ticked e.body.definition (e.particleTick t)).1.1],
      (p.ticked e.body.definition (e.particleTick t)).1.2) := by
  rw [movedParticles, hp, Particle.ticked, advanceParticles, Tick.run_bind]
  dsimp only [particleTick]
  split
  · rfl
  next h =>
    rw [Option.not_isSome_iff_eq_none] at h
    rw [h]
    rfl

theorem finishes_of_moved {p : Particle} (hp : e.particles = [p]) {t : EmitterTick}
    (hm : (e.movedParticles t).1.2 = none)
    (hn : (e.movedParticles t).1.1.filter (fun p => !p.isComplete) = []) :
    p.Finishes e.body.definition (e.particleTick t) := by
  rw [movedParticles_single hp] at hm hn
  refine Particle.finishes_of_complete ?_ (by simpa using hn)
  by_contra ho
  exact (Particle.ticked_of_not_ownedMoved (eq_false_of_ne_true ho)).2.2 hm

/-- An emitter of singletons brings no second particle beside the first. -/
theorem ticked_replaces (hf : e.body.definition.flags.continuousSingleton = true)
    (hp : e.particles.length ≤ 1) (t : EmitterTick) :
    (e.ticked t).1.1.body.definition = e.body.definition ∧ e.Replaces t := by
  have keeps := e.prepared_keeps t
  have hx := e.ticked_eq t
  cases hm : (e.movedParticles t).1.2 with
  | some why =>
    rw [hm, if_pos Option.isSome_some] at hx
    rw [hx]
    refine ⟨keeps.definition, .keeps ?_ ?_⟩
    · rw [hx]
      exact keeps.emitted
    · rw [hx]
      exact List.Sublist.refl _
  | none =>
    rw [hm, if_neg (by simp)] at hx
    have hr := finish_addsOne (e := mk (e.prepared t).1 (e.movedParticles t).1.1)
      (by rwa [body_mk, keeps.definition]) t.elapsed (e.particleTick t).anchor t.surroundings
      (e.movedParticles t).2
    rw [← hx] at hr
    refine ⟨hr.definition.trans keeps.definition, ?_⟩
    cases hr with
    | nothing _ emitted particles =>
      refine .keeps (emitted.trans keeps.emitted) ?_
      rw [particles]
      exact List.filter_sublist
    | one _ none emitted single =>
      rw [body_mk, body_mk, keeps.emitted, keeps.definition] at emitted
      refine .emits emitted single fun p hmem => ?_
      obtain ⟨q, hq⟩ := List.length_eq_one_iff.mp
        (Nat.le_antisymm hp (List.length_pos_of_mem hmem))
      rw [hq, List.mem_singleton] at hmem
      exact finishes_of_moved (hmem ▸ hq) hm none

/-- An emitter of a generator, with no more than one particle. -/
structure IsLone (g : Generator) (e : Emitter) : Prop where
  definition : e.body.definition = g
  size : e.particles.length ≤ 1

variable {g : Generator}

theorem IsLone.stop (h : e.IsLone g) : e.stop.IsLone g := by
  obtain ⟨b, ps⟩ := e
  rw [Emitter.stop, stopInParticles_eq_map]
  exact ⟨h.definition, by simpa using h.size⟩

/-- An emitter keeps to one particle at a time, whatever a tick finds. -/
theorem IsLone.ticked (hf : g.flags.continuousSingleton = true) (h : e.IsLone g)
    (t : EmitterTick) : (e.ticked t).1.1.IsLone g := by
  obtain ⟨rfl, hp⟩ := h
  obtain ⟨definition, hr⟩ := ticked_replaces hf hp t
  refine ⟨definition, ?_⟩
  cases hr with
  | keeps _ particles =>
    refine Nat.le_trans particles.length_le ?_
    rw [movedParticles, advanceParticles_eq, length_inTurn]
    exact hp
  | emits _ single => exact Nat.le_of_eq single

/-- By induction on the run. -/
theorem IsLone.after (hf : g.flags.continuousSingleton = true) (h : e.IsLone g)
    (hs : List Happening) : (e.after hs).IsLone g := by
  induction hs generalizing e with
  | nil => exact h
  | cons x hs ih =>
    cases x with
    | tick t => exact ih (h.ticked hf t)
    | stop => exact ih h.stop

/-- At any time in its life an emitter of a continuous singleton holds at most one particle, and a
tick that emits, emits once: after the particle that was there, with all that it started, has come
to its end. -/
theorem singletons_never_overlap (b : EmitterBody)
    (hf : b.definition.flags.continuousSingleton = true) (hs : List Happening) :
    ((ofBody b).after hs).particles.length ≤ 1 ∧
      ∀ t, ((ofBody b).after hs).Replaces t := by
  have lone : (ofBody b).IsLone b.definition := ⟨rfl, Nat.zero_le 1⟩
  obtain ⟨definition, size⟩ := lone.after hf hs
  exact ⟨size, fun t => (ticked_replaces (by rwa [definition]) size t).2⟩

end Emitter

def Generator.lone : Generator :=
  { Generator.plain [] [] with flags := { continuousSingleton := true }, perEmission := 4 }

namespace Emitter

theorem lone_particle_stays_alone :
    ((ofBody (.fresh .lone .weather)).after [.tick (.capped 9), .tick (.capped 9)]).particles.length
      = 1 := by
  refine Nat.le_antisymm ?_ (by decide +kernel)
  exact (singletons_never_overlap (.fresh .lone .weather) rfl _).1

end Emitter
end EffectMachine
