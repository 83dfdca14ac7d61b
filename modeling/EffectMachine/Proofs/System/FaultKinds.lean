import EffectMachine.Proofs.Particle.Endings
import EffectMachine.Proofs.System.Invariants

namespace EffectMachine

/-- The faults that end more than one particle. -/
def Fault.Escapes (f : Fault) : Prop :=
  (∃ routine, f = .controlUnderflow routine) ∨ ∃ offset, f = .duplicateAllocation offset

/-- A control stack faults with nothing but an underflow. -/
theorem ControlStack.apply_error {c : ControlStack} {value : Int32} {a : Action} {f : Fault}
    (h : c.apply value a = .error f) : f = c.underflow := by
  obtain ⟨routine, frames⟩ := c
  cases a with
  | endBlock | branch =>
    cases frames <;> cases h
    rfl
  | condition register source =>
    cases frames with
    | nil =>
      cases h
      rfl
    | cons frame outer =>
      simp only [apply, setRegister] at h
      split at h <;> cases h
  | _ => cases h

def escaping : Invariant where
  holds _ _ := True
  allows := Fault.Escapes

/-- The faults of effects are underflows. -/
theorem SequenceBody.perform_escapes (s : SequenceBody) (e : Effect) :
    (s.perform e).Always fun x => ∀ f, x.2 = .fault f → f.Escapes := by
  cases hc : e.action.isControl with
  | true =>
    rw [s.perform_control hc]
    refine .after _ fun value => ?_
    split
    next => exact .after _ fun _ => .pure (by simp)
    next fault ha =>
      refine .pure fun f hf => ?_
      cases hf
      exact .inl ⟨_, ControlStack.apply_error ha⟩
  | false =>
    refine (s.perform_does e).mono fun x hx f hf => ?_
    rw [hf] at hx
    rw [hx.control_of_fault] at hc
    cases hc

/-- No sequence fails with anything but a fault that escapes. -/
theorem escaping_keptIn (r : Surroundings) : escaping.KeptIn r where
  frame h _ _ _ _ _ := h
  dropped h := h
  passed _ _ _ := trivial
  performed {s e es} _ _ := by
    refine (s.perform_escapes e).at.mono fun x hx => ?_
    obtain ⟨body, flow⟩ := x
    cases flow with
    | fault f => exact ⟨trivial, hx f rfl⟩
    | _ => trivial
  stopped h := h
  failed _ _ := trivial
  requeued _ _ := trivial
  moved _ elapsed :=
    (advanceEmitters_refuses none elapsed _).at.mono fun x hx => ⟨fun f hf => .inr (hx f hf),
      trivial, trivial⟩
  started _ _ _ _ _ := trivial

namespace Particle

variable {g : Generator} {p : Particle} {t : ParticleTick}

/-- What an initializer faults with ends the particle, which is there all the same. -/
theorem spawn_of_terminated {scope : SpawnScope} {maxAge : Scalar} {anchor : Anchor}
    {r : Surroundings} {h : Host} {body : ParticleBody} {f : Fault}
    (hb : ((ParticleBody.blank scope.definition maxAge anchor).initializedAll scope.definition
      scope.definition.initializers h.rng).1 = .terminated body f) :
    f.isFatal = false ∧ ∃ p, (spawn scope maxAge anchor r h).1 = .ok p ∧
      p.body.forcedExpired = true ∧ p.Ended scope.definition ∧
      ∀ t, (p.ticked scope.definition t).1.2 = none ∧
        (p.ticked scope.definition t).1.1.isComplete = true := by
  have hbears := ParticleBody.initializedAll_bears
    (p := .blank scope.definition maxAge anchor) (m := []) scope.definition
    scope.definition.initializers rfl h.rng
  rw [hb] at hbears
  generalize SlotMap.scan [] _ = v at hbears
  cases hbears with
  | terminated _ _ same mild =>
    have hc : body.carrier = false := same.carrier
    have hs : body.sounds = [] := same.sounds
    refine ⟨mild, mk { body with forcedExpired := true } [] [], ?_, rfl, ended_of_forced _ rfl hc,
      fun t => isComplete_of_stillborn rfl hc hs rfl rfl⟩
    rw [spawn, Tick.run_bind]
    change (Tick.draw _ r h).1 = _ at hb
    generalize Tick.draw _ r h = y at hb ⊢
    obtain ⟨birth, h'⟩ := y
    cases hb
    rfl

/-- What an updater faults with ends the particle, and the tick goes on without its handlers. -/
theorem ticked_of_fault {x : Pass} {f : Fault} (hx : p.pass? g t = some x)
    (hf : x.fault? = some f) : f.isFatal = false ∧
      p.ticked g t = (((p.grown g t).1.laidOut, none), (p.grown g t).2) ∧
      (p.ticked g t).1.1.body.forcedExpired = true ∧ (p.ticked g t).1.1.Ended g := by
  obtain ⟨_, hall, _, hmild⟩ := faults_of_pass hx
  obtain ⟨hforced, hcarrier, _⟩ := p.ticked_faults g t
  have hruns : p.ownedMoved g t = true ∧ (p.settled g t).isGrowing = true := by
    rw [← Bool.and_eq_true_iff, ← pass?_isSome, hx]
    rfl
  have hc : p.body.carrier = false := by
    have hg : (!p.body.carrier) = true := (Bool.and_eq_true_iff.mp hruns.2).1
    simpa using hg
  have hfe : (p.ticked g t).1.1.body.forcedExpired = true := by
    rw [hforced, hx, Option.isSome_some, Bool.true_and, ← hall, hf, Option.isSome_some,
      Bool.or_true]
  exact ⟨hmild f hf, (ticked_of_forced hruns.1 hc hfe).2, hfe,
    ended_of_forced g hfe (hcarrier.trans hc)⟩

end Particle

/-- Only underflows and second allocations come back from a tick, in runs of a sequence and of a
whole system, and only second allocations from that of an emitter. What an initializer or an updater
faults with in the slots of a particle ends the particle: no handler of it runs any more and the
first tick that finds all it owns at an end completes it. The others of its emitter, or of its
batch, go on without those that are complete. -/
theorem particle_faults_contained :
    (∀ routine id binding rate depth (vs : List Visit),
      (Sequence.mk (.fresh id routine binding rate depth) []).FaultsIn Fault.Escapes vs) ∧
    (∀ h (os : List Occasion), Ledger.FaultsIn Fault.Escapes {} h os) ∧
    (∀ (e : Emitter) parent elapsed r h, let x := (e.advance parent elapsed r h).1
      Refuses x.2 ∧ (x.2 = none → e.CarriesOn elapsed r x.1)) ∧
    (∀ (g : Generator) (p : Particle) (t : ParticleTick), p.body.carrier = true →
      (p.ticked g t).1.2 = none → ∃ moved, EachTicked g t.elapsed t.surroundings p.children moved ∧
        (p.ticked g t).1.1.children = moved.filter fun c => !c.isComplete) ∧
    (∀ (scope : SpawnScope) maxAge anchor r (h : Host) body f, let g := scope.definition
      ((ParticleBody.blank g maxAge anchor).initializedAll g g.initializers h.rng).1 =
          .terminated body f →
        f.isFatal = false ∧ ∃ p, (Particle.spawn scope maxAge anchor r h).1 = .ok p ∧
          p.body.forcedExpired = true ∧ p.Ended g ∧
          ∀ t, (p.ticked g t).1.2 = none ∧ (p.ticked g t).1.1.isComplete = true) ∧
    ∀ (g : Generator) (p : Particle) (t : ParticleTick) (x : Pass) f, p.pass? g t = some x →
      x.fault? = some f → f.isFatal = false ∧
        p.ticked g t = (((p.grown g t).1.laidOut, none), (p.grown g t).2) ∧
        (p.ticked g t).1.1.body.forcedExpired = true ∧ (p.ticked g t).1.1.Ended g := by
  refine ⟨fun routine id binding rate depth vs => ?_, fun h os => ?_,
    fun e parent elapsed r h => ⟨e.advance_refuses parent elapsed r h,
      e.advance_carriesOn parent elapsed r h⟩,
    fun _ _ _ => Particle.batch_carriesOn, fun _ _ _ _ _ _ _ => Particle.spawn_of_terminated,
    fun _ _ _ _ _ => Particle.ticked_of_fault⟩
  · exact Sequence.faultsIn_of_sound vs (fun v _ => escaping_keptIn v.surroundings)
      (Sequence.fresh_sound _ _ _ _ _ trivial)
  · exact Ledger.faultsIn_of_stands os (fun o _ => escaping_keptIn o.surroundings)
      (fun _ _ _ _ _ _ _ _ => trivial) (Ledger.stands_empty escaping) h

/-- Asks for gravity where there is no velocity. -/
def Generator.weightless : Generator := .plain [⟨0, .gravity Vec3.one⟩] []

/-- A particle is ended by its first pass, another one at its birth; the batch and the emitter of
such a particle go on. -/
theorem lopsided_contained :
    (∃ p, (Particle.spawn ⟨.lopsided, .weather, 0⟩ 10 Anchor.identity .bare .fresh).1 = .ok p ∧
      (p.ticked .lopsided .bare).1.1.body.forcedExpired = true ∧
      (p.ticked .lopsided .bare).1.1.Ended .lopsided ∧
      ∃ moved, EachTicked .lopsided 1 .bare [p] moved ∧
        ((Particle.carrierOf .lopsided Anchor.identity [p]).ticked .lopsided .bare).1.1.children =
          moved.filter fun c => !c.isComplete) ∧
    (∃ p, (Particle.spawn ⟨.weightless, .weather, 0⟩ 10 Anchor.identity .bare .fresh).1 = .ok p ∧
      p.body.forcedExpired = true ∧ p.Ended .weightless) ∧
    let e := Emitter.ofBody (.fresh .lopsided .weather)
    let x := e.advance none 1 .bare .fresh
    x.1.1.CarriesOn 1 .bare (x.1.1.advance none 1 .bare x.2).1.1 := by
  obtain ⟨_, _, hemitter, hbatch, hbirth, hpass⟩ := particle_faults_contained
  refine ⟨⟨_, rfl, ?_⟩, ?_, (hemitter _ none 1 .bare _).2 (by decide +kernel)⟩
  · generalize hp : Particle.mk _ _ _ = p
    have hf : (p.pass? .lopsided .bare).bind Pass.fault? =
        some (.slotKind 0 .angularVelocity .velocity) := by
      subst hp
      decide +kernel
    have hn : ((Particle.carrierOf .lopsided Anchor.identity [p]).ticked .lopsided .bare).1.2 =
        none := by
      subst hp
      decide +kernel
    obtain ⟨x, hx, hf⟩ := Option.bind_eq_some_iff.mp hf
    obtain ⟨_, _, hforced, hended⟩ := hpass _ _ _ _ _ hx hf
    exact ⟨hforced, hended, hbatch _ _ _ rfl hn⟩
  · obtain ⟨_, p, hp, hf, he, _⟩ := hbirth ⟨.weightless, .weather, 0⟩ 10 Anchor.identity .bare
      .fresh _ _ rfl
    exact ⟨p, hp, hf, he⟩

end EffectMachine
