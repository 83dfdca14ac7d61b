import EffectMachine.Proofs.InTurn
import EffectMachine.Proofs.Particle.Births

namespace EffectMachine

namespace ParticleBody

/-- What a pass of updaters leaves: it ends the particle unless every slot is of the kind that is
needed. -/
structure Passed (p : ParticleBody) (met : Bool) (q : ParticleBody) : Prop where
  forcedExpired : q.forcedExpired = (p.forcedExpired || !met)
  expirationHandled : q.expirationHandled = p.expirationHandled
  carrier : q.carrier = p.carrier
  sounds : q.sounds = p.sounds
  restarts : q.restarts = p.restarts
  kind? : q.slots.kind? = p.slots.kind?

theorem Passed.of_keeps {p q r : ParticleBody} {met : Bool} (h : p.Keeps q) (hq : q.Passed met r) :
    p.Passed met r where
  forcedExpired := by rw [hq.forcedExpired, h.forcedExpired]
  expirationHandled := hq.expirationHandled.trans h.expirationHandled
  carrier := hq.carrier.trans h.carrier
  sounds := hq.sounds.trans h.sounds
  restarts := hq.restarts.trans h.restarts
  kind? := hq.kind?.trans h.kind?

def hasAll (p : ParticleBody) (us : List (Slotted Updater)) : Bool :=
  us.all fun u => p.has u.offset u.op.needed?

theorem Keeps.hasAll_eq {p q : ParticleBody} (h : p.Keeps q) (us : List (Slotted Updater)) :
    q.hasAll us = p.hasAll us := by
  simp only [hasAll, has, h.kind?]

def updaterFault? (g : Generator) (elapsed : Scalar) (r : Surroundings) :
    ParticleBody → List (Slotted Updater) → Host → Option Fault
  | _, [], _ => none
  | p, u :: us, h =>
    match p.applyUpdater g elapsed u r h with
    | (.ok q, h') => updaterFault? g elapsed r q us h'
    | (.error f, _) => some f

/-- By induction on the updaters: the first that lacks its slot ends the particle, and the rest do
not run. -/
theorem applyUpdaters_passed (g : Generator) (elapsed : Scalar) (p : ParticleBody)
    (us : List (Slotted Updater)) :
    (applyUpdaters g elapsed p us).Always (p.Passed (p.hasAll us)) := by
  induction us generalizing p with
  | nil => exact .pure ⟨by simp [hasAll], rfl, rfl, rfl, rfl, rfl⟩
  | cons u us ih =>
    refine .bind (p.applyUpdater_runs g elapsed u) fun x hx => ?_
    cases hx with
    | through q slot keeps =>
      refine (ih q).mono fun r hr => ?_
      rw [keeps.hasAll_eq] at hr
      have hc : p.hasAll (u :: us) = p.hasAll us := by simp [hasAll, slot]
      rw [hc]
      exact .of_keeps keeps hr
    | fault f slot mild =>
      have hc : p.hasAll (u :: us) = false := by simp [hasAll, slot]
      rw [hc]
      exact .after _ fun _ => .pure ⟨by simp, rfl, rfl, rfl, rfl, rfl⟩

/-- A pass has a fault where a slot is missing, and then a mild one. -/
theorem updaterFault?_spec (g : Generator) (elapsed : Scalar) (r : Surroundings)
    (p : ParticleBody) (us : List (Slotted Updater)) (h : Host) :
    (p.updaterFault? g elapsed r us h).isSome = !p.hasAll us ∧
      ∀ f, p.updaterFault? g elapsed r us h = some f → f.isFatal = false := by
  induction us generalizing p h with
  | nil => exact ⟨by simp [updaterFault?, hasAll], by simp [updaterFault?]⟩
  | cons u us ih =>
    have hr := p.applyUpdater_runs g elapsed u r h
    rw [updaterFault?]
    generalize p.applyUpdater g elapsed u r h = x at hr ⊢
    obtain ⟨x, h'⟩ := x
    cases hr with
    | through q slot keeps =>
      have hc : p.hasAll (u :: us) = q.hasAll us := by
        rw [keeps.hasAll_eq]
        simp [hasAll, slot]
      rw [hc]
      exact ih q h'
    | fault f slot mild =>
      refine ⟨by simp [hasAll, slot], fun f' hf => ?_⟩
      exact Option.some.inj hf ▸ mild

def older (p : ParticleBody) (elapsed : Scalar) : ParticleBody :=
  { p with age := p.age + elapsed, fade := 1 }

theorem grow_passed (p : ParticleBody) (g : Generator) (elapsed : Scalar) (anchor : Anchor) :
    (p.grow g elapsed anchor).Always (p.Passed (p.hasAll g.updaters)) :=
  .bind (applyUpdaters_passed g elapsed (p.older elapsed) g.updaters) fun _ hq =>
    .pure ⟨hq.forcedExpired, hq.expirationHandled, hq.carrier, hq.sounds, hq.restarts, hq.kind?⟩

end ParticleBody

/-- Of some sounds those are kept that the stage still plays, and the host stays as it is. -/
theorem filterM_isPlaying (sounds : List SoundHandle) (r : Surroundings) (h : Host) :
    sounds.filterM Tick.isPlaying r h =
      (sounds.filter fun sound => h.stage.isPlaying sound, h) := by
  suffices hs : ∀ acc, sounds.filterAuxM Tick.isPlaying acc r h =
      ((sounds.filter fun sound => h.stage.isPlaying sound).reverse ++ acc, h) by
    rw [List.filterM, Tick.run_bind, hs]
    simp
  induction sounds with
  | nil => exact fun acc => rfl
  | cons sound sounds ih =>
    intro acc
    rw [List.filterAuxM, Tick.run_bind]
    change sounds.filterAuxM Tick.isPlaying (cond (h.stage.isPlaying sound) (sound :: acc) acc) r h
      = _
    rw [ih]
    cases hp : h.stage.isPlaying sound <;> simp [hp]

namespace Particle

/-- As far as faults go, the particle is what it was. -/
structure Steady (p q : Particle) : Prop where
  forcedExpired : q.body.forcedExpired = p.body.forcedExpired
  carrier : q.body.carrier = p.body.carrier
  kind? : q.body.slots.kind? = p.body.slots.kind?

theorem Steady.trans {p q r : Particle} (h : p.Steady q) (h' : q.Steady r) : p.Steady r :=
  ⟨h'.forcedExpired.trans h.forcedExpired, h'.carrier.trans h.carrier, h'.kind?.trans h.kind?⟩

theorem Adds.steady {p q : Particle} (h : p.Adds q) : p.Steady q := by
  obtain ⟨sounds, emitters, rfl⟩ := h
  exact ⟨rfl, rfl, rfl⟩

theorem steady_stopEmitters (p : Particle) : p.Steady p.stopEmitters := by
  obtain ⟨b, cs, es⟩ := p
  rw [stopEmitters]
  exact ⟨rfl, rfl, rfl⟩

/-- Handlers add sounds and emitters, and change nothing else of what the particle owns. -/
theorem runHandlers_adds (scope : SpawnScope) (p : Particle) (hs : List (Slotted ExpirationHandler)) :
    (runHandlers scope p hs).Always p.Adds := by
  induction hs generalizing p with
  | nil => exact .pure (.refl p)
  | cons h hs ih =>
    obtain ⟨b, cs, es⟩ := p
    unfold runHandlers
    split
    · exact .after _ fun emitter => (ih _).mono fun _ => (adds_emitters ..).trans
    · exact .after _ fun handle => (ih _).mono fun _ => (adds_sounds ..).trans
    · exact ih _

theorem expire_steady (scope : SpawnScope) (p : Particle) :
    (p.expire scope).Always p.Steady := by
  obtain ⟨b, cs, es⟩ := p
  unfold expire
  dsimp only
  split
  · exact .pure ⟨rfl, rfl, rfl⟩
  · refine .bind (runHandlers_adds scope _ _) fun q hq => ?_
    obtain ⟨b', cs', es'⟩ := q
    have hs := hq.steady
    dsimp only
    split
    · exact .pure ⟨hs.forcedExpired, hs.carrier, hs.kind?⟩
    · exact .pure ⟨hs.forcedExpired, hs.carrier, hs.kind?⟩

def hearing (p : Particle) (h : Host) : Particle :=
  mk { p.body with sounds := p.body.sounds.filter fun sound => h.stage.isPlaying sound }
    p.children p.emitters

def endTick (scope : SpawnScope) (p : Particle) : Tick Particle :=
  if p.isExpired && !p.body.expirationHandled then p.stopEmitters.expire scope else return p

/-- Does a particle run its updaters in its own part of a tick? -/
def isGrowing (p : Particle) : Bool := !p.body.carrier && !p.isExpired

/-- What a particle's own part of a tick leaves. -/
structure Moved (g : Generator) (p q : Particle) : Prop where
  forcedExpired : q.body.forcedExpired =
    (p.body.forcedExpired || (p.isGrowing && !p.body.hasAll g.updaters))
  carrier : q.body.carrier = p.body.carrier
  kind? : q.body.slots.kind? = p.body.slots.kind?

theorem Moved.of_steady {g : Generator} {p q : Particle} (h : p.Steady q)
    (hg : p.isGrowing = false) : p.Moved g q :=
  ⟨by simp [h.forcedExpired, hg], h.carrier, h.kind?⟩

theorem Moved.steady {g : Generator} {p q r : Particle} (h : p.Moved g q) (h' : q.Steady r) :
    p.Moved g r :=
  ⟨h'.forcedExpired.trans h.forcedExpired, h'.carrier.trans h.carrier, h'.kind?.trans h.kind?⟩

theorem isExpired_hearing (p : Particle) (h : Host) : (p.hearing h).isExpired = p.isExpired := by
  cases p; rfl

theorem hearing_steady (p : Particle) (h : Host) : p.Steady (p.hearing h) := ⟨rfl, rfl, rfl⟩

/-- A particle's own part of a tick in three steps: it hears which sounds still play, grows, and
comes to its end. -/
theorem advanceSelf_eq (scope : SpawnScope) (elapsed : Scalar) (anchor : Anchor) (p : Particle)
    (r : Surroundings) (h : Host) :
    p.advanceSelf scope elapsed anchor r h =
      (if p.body.carrier then pure (p.hearing h)
      else (if p.isExpired then pure (p.hearing h)
        else (p.hearing h).growSelf scope.definition elapsed anchor) >>= endTick scope) r h := by
  obtain ⟨b, cs, es⟩ := p
  have hx : ∀ f : List SoundHandle → Tick Particle, (b.sounds.filterM Tick.isPlaying >>= f) r h =
      f (b.sounds.filter fun sound => h.stage.isPlaying sound) r h := by
    intro f
    rw [Tick.run_bind, filterM_isPlaying]
  refine (hx _).trans ?_
  change (if b.carrier = true then _ else _ : Tick Particle) r h =
    (if b.carrier = true then _ else _ : Tick Particle) r h
  split
  · rfl
  · change (if ((mk b cs es).hearing h).isExpired = true then _ else _ : Tick Particle) r h = _
    rw [isExpired_hearing]
    split <;> rfl

theorem hearing_isGrowing (p : Particle) (h : Host) : (p.hearing h).isGrowing = p.isGrowing := by
  cases p; rfl

theorem growSelf_moved (g : Generator) (elapsed : Scalar) (anchor : Anchor) {p : Particle}
    (hp : p.isGrowing = true) : (p.growSelf g elapsed anchor).Always (p.Moved g) := by
  obtain ⟨b, cs, es⟩ := p
  refine .bind (b.grow_passed g elapsed anchor) fun q hq => .pure ⟨?_, hq.carrier, hq.kind?⟩
  rw [hp, Bool.true_and]
  exact hq.forcedExpired

theorem endTick_steady (scope : SpawnScope) (p : Particle) :
    (p.endTick scope).Always p.Steady := by
  unfold endTick
  split
  · exact (expire_steady scope _).mono fun _ => p.steady_stopEmitters.trans
  · exact .pure ⟨rfl, rfl, rfl⟩

/-- Whatever the surroundings, a particle's own part of a tick moves it as `Moved` says. -/
theorem advanceSelf_moved (scope : SpawnScope) (elapsed : Scalar) (anchor : Anchor) (p : Particle) :
    (p.advanceSelf scope elapsed anchor).Always (p.Moved scope.definition) := by
  intro r h
  rw [advanceSelf_eq]
  have heard := p.hearing_steady h
  cases hc : p.body.carrier with
  | true => exact .of_steady heard (by simp [isGrowing, hc])
  | false =>
    rw [if_neg Bool.false_ne_true]
    refine Tick.Always.bind (P := p.Moved scope.definition) ?_
      (fun q hq => (q.endTick_steady scope).mono fun _ => hq.steady) r h
    split
    next hx => exact .pure (.of_steady heard (by simp [isGrowing, hx]))
    next hx =>
      have hg : (p.hearing h).isGrowing = true := by
        simp [isGrowing, isExpired_hearing, heard.carrier, hc, hx]
      refine (growSelf_moved scope.definition elapsed anchor hg).mono fun q hq => ?_
      exact ⟨hearing_isGrowing p h ▸ hq.forcedExpired, hq.carrier, hq.kind?⟩

end Particle

theorem length_advanceEmitters (parent : Option Anchor) (elapsed : Scalar) (es : List Emitter) :
    (advanceEmitters parent elapsed es).Always fun x => x.1.length = es.length := by
  rw [advanceEmitters_eq]
  exact length_inTurn es

/-- A tick of a particle, with what it finds. Of its emitter it takes the definition, which stays,
and the binding and depth. -/
structure ParticleTick where
  binding : Binding
  depth : UInt8
  elapsed : Scalar
  anchor : Anchor
  surroundings : Surroundings
  host : Host

def ParticleTick.scope (t : ParticleTick) (g : Generator) : SpawnScope := ⟨g, t.binding, t.depth⟩

namespace Particle

def ticked (g : Generator) (p : Particle) (t : ParticleTick) : (Particle × Option Halt) × Host :=
  p.advance (t.scope g) t.elapsed t.anchor t.surroundings t.host

def movedBatch (g : Generator) (p : Particle) (t : ParticleTick) :
    (List Particle × Option Halt) × Host :=
  advanceParticles (t.scope g) t.elapsed t.anchor p.children t.surroundings t.host

def movedEmitters (g : Generator) (p : Particle) (t : ParticleTick) :
    (List Emitter × Option Halt) × Host :=
  advanceEmitters (some p.body.worldAnchor) t.elapsed p.emitters t.surroundings (p.movedBatch g t).2

def ownedMoved (g : Generator) (p : Particle) (t : ParticleTick) : Bool :=
  (p.movedBatch g t).1.2.isNone && (p.movedEmitters g t).1.2.isNone

/-- The particle before its own part of a tick, with what is left of all that it owns. -/
def settled (g : Generator) (p : Particle) (t : ParticleTick) : Particle :=
  mk p.body ((p.movedBatch g t).1.1.filter fun c => !c.isComplete)
    ((p.movedEmitters g t).1.1.filter fun e => !e.isExpired)

variable {g : Generator} {p : Particle} {t : ParticleTick}

/-- Once all that it owns has moved, a tick is the particle's own part. -/
theorem ticked_of_ownedMoved (h : p.ownedMoved g t = true) :
    p.ticked g t =
      let x := (p.settled g t).advanceSelf (t.scope g) t.elapsed t.anchor t.surroundings
        (p.movedEmitters g t).2
      ((x.1, none), x.2) := by
  obtain ⟨b, cs, es⟩ := p
  simp only [ownedMoved, Bool.and_eq_true, Option.isNone_iff_eq_none] at h
  obtain ⟨hc, he⟩ := h
  have hc : (advanceParticles (t.scope g) t.elapsed t.anchor cs t.surroundings t.host).1.2 =
    none := hc
  have he : (advanceEmitters (some b.worldAnchor) t.elapsed es t.surroundings
    (advanceParticles (t.scope g) t.elapsed t.anchor cs t.surroundings t.host).2).1.2 = none := he
  rw [ticked, advance, Tick.run_bind]
  dsimp only
  rw [hc, if_neg (by simp), Tick.run_bind, he, if_neg (by simp)]
  rfl

/-- A fault among what the particle owns stops the tick before the particle's own part. -/
theorem ticked_of_not_ownedMoved (h : p.ownedMoved g t = false) :
    (p.ticked g t).1.1.body = p.body ∧
      (p.ticked g t).1.1.emitters.length = p.emitters.length ∧ (p.ticked g t).1.2 ≠ none := by
  obtain ⟨b, cs, es⟩ := p
  rw [ticked, advance, Tick.run_bind]
  dsimp only
  cases hc : (advanceParticles (t.scope g) t.elapsed t.anchor cs t.surroundings t.host).1.2 with
  | some why => exact ⟨rfl, rfl, Option.some_ne_none why⟩
  | none =>
    rw [if_neg (by simp), Tick.run_bind]
    cases he : (advanceEmitters (some b.worldAnchor) t.elapsed es t.surroundings
      (advanceParticles (t.scope g) t.elapsed t.anchor cs t.surroundings t.host).2).1.2 with
    | some why => exact ⟨rfl, length_advanceEmitters _ _ es _ _, Option.some_ne_none why⟩
    | none =>
      exfalso
      have hn : (mk b cs es).ownedMoved g t = true := by
        simp [ownedMoved, movedBatch, movedEmitters, hc, he]
      rw [hn] at h
      cases h

inductive Happening where
  | tick (tick : ParticleTick)
  /-- Its emitters are told to stop. -/
  | hush

def after (g : Generator) : Particle → List Happening → Particle
  | p, [] => p
  | p, .tick t :: hs => after g (p.ticked g t).1.1 hs
  | p, .hush :: hs => after g p.stopEmitters hs

end Particle
end EffectMachine
