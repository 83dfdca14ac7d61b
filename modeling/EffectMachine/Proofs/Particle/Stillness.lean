import EffectMachine.Proofs.Agreement
import EffectMachine.Proofs.Hush
import EffectMachine.Proofs.Particle.Moves
import EffectMachine.Proofs.Resource.Stillness

namespace EffectMachine

namespace Node

/-- Plays no sound, if it is a particle; and draws nothing, if it is an emitter. -/
def IsStill : Node → Prop
  | .particle p => p.body.sounds = []
  | .emitter e => e.body.definition.IsStill
  | _ => True

def Still (x : Node) : Prop := ∀ a y, x.at? a = some y → y.IsStill

variable {x c : Node}

theorem Still.owned (hx : x.Still) {k : NodeKind} (hc : c ∈ x.owned k) : c.Still := by
  intro a y hy
  obtain ⟨i, hi⟩ := List.getElem?_of_mem hc
  exact hx (⟨k, i⟩ :: a) y (by rw [at?_cons, hi]; exact hy)

theorem still_of_owned (here : x.IsStill) (below : ∀ k, ∀ c ∈ x.owned k, c.Still) : x.Still := by
  intro a y hy
  cases a with
  | nil => exact Option.some.inj hy ▸ here
  | cons b a =>
    obtain ⟨c, hc, hy⟩ := Option.bind_eq_some_iff.mp hy
    exact below b.kind c (List.mem_of_getElem? hc) a y hy

/-- Being told to stop changes nothing that counts. -/
theorem Still.hushed (hx : x.Still) (hp : x.isParticulate = true) : x.hushed.Still := by
  intro a y hy
  rw [at?_hushed hp] at hy
  obtain ⟨c, hc, rfl⟩ := Option.map_eq_some_iff.mp hy
  have hs := hx a c hc
  cases c with
  | particle p =>
    obtain ⟨b, cs, es⟩ := p
    exact hs
  | emitter e =>
    obtain ⟨b, ps⟩ := e
    exact hs
  | sequence | system => exact hs

end Node

namespace Particle

def Still (p : Particle) : Prop := (Node.particle p).Still

end Particle

namespace Emitter

def Still (e : Emitter) : Prop := (Node.emitter e).Still

end Emitter

namespace Particle

/-- A particle is still if it plays no sound and all that it owns is still. -/
theorem still_mk {b : ParticleBody} {cs : List Particle} {es : List Emitter} :
    (mk b cs es).Still ↔ b.sounds = [] ∧ (∀ c ∈ cs, c.Still) ∧ ∀ e ∈ es, e.Still := by
  constructor
  · intro h
    exact ⟨h [] _ rfl,
      fun c hc => Node.Still.owned h (k := .particle) (List.mem_map_of_mem hc),
      fun e he => Node.Still.owned h (k := .emitter) (List.mem_map_of_mem he)⟩
  · intro ⟨hb, hc, he⟩
    refine Node.still_of_owned hb fun k x hx => ?_
    cases k with
    | particle =>
      obtain ⟨c, hm, rfl⟩ := List.mem_map.mp hx
      exact hc c hm
    | emitter =>
      obtain ⟨e, hm, rfl⟩ := List.mem_map.mp hx
      exact he e hm
    | sequence => cases hx

/-- Of the particle itself only its sounds count. -/
theorem Still.changed {b b' : ParticleBody} {cs : List Particle} {es : List Emitter}
    (h : (mk b cs es).Still) (hb : b'.sounds = b.sounds) : (mk b' cs es).Still :=
  have ⟨hs, hc, he⟩ := still_mk.mp h
  still_mk.mpr ⟨hb.trans hs, hc, he⟩

theorem Still.stopEmitters {p : Particle} (h : p.Still) : p.stopEmitters.Still :=
  Node.Still.hushed h rfl

end Particle

namespace Emitter

theorem still_mk {b : EmitterBody} {ps : List Particle} :
    (mk b ps).Still ↔ b.definition.IsStill ∧ ∀ p ∈ ps, p.Still := by
  constructor
  · intro h
    exact ⟨h [] _ rfl, fun p hp => Node.Still.owned h (k := .particle) (List.mem_map_of_mem hp)⟩
  · intro ⟨hb, hp⟩
    refine Node.still_of_owned hb fun k x hx => ?_
    cases k with
    | particle =>
      obtain ⟨p, hm, rfl⟩ := List.mem_map.mp hx
      exact hp p hm
    | emitter | sequence => cases hx

theorem Still.changed {b b' : EmitterBody} {ps : List Particle} (h : (mk b ps).Still)
    (hb : b'.definition = b.definition) : (mk b' ps).Still :=
  still_mk.mpr (hb ▸ still_mk.mp h)

theorem still_ofBody {b : EmitterBody} : (ofBody b).Still ↔ b.definition.IsStill := by
  simp [ofBody, still_mk]

theorem Still.stop {e : Emitter} (h : e.Still) : e.stop.Still := Node.Still.hushed h rfl

end Emitter

section Ticks

variable {r : Surroundings} {scope : SpawnScope} (elapsed : Scalar) (anchor : Anchor)

namespace ParticleBody

/-- What a still initializer makes of a particle, without a draw. -/
theorem initialized_of_still (p : ParticleBody) (g : Generator) {i : Slotted Initializer}
    (hi : i.op.isStill = true) : ∃ x, p.initialized g i = pure x := by
  obtain ⟨offset, op⟩ := i
  cases op with
  | positionJitter | velocityJitter | colorJitter | orbit | sound => cases hi
  | _ => exact ⟨_, rfl⟩

theorem initializedAll_of_still (g : Generator) (p : ParticleBody)
    (is : List (Slotted Initializer)) (hi : ∀ i ∈ is, i.op.isStill = true) :
    ∃ b, p.initializedAll g is = pure b := by
  induction is generalizing p with
  | nil => exact ⟨_, rfl⟩
  | cons i is ih =>
    obtain ⟨hi, his⟩ := List.forall_mem_cons.mp hi
    obtain ⟨x, hx⟩ := p.initialized_of_still g hi
    rw [initializedAll, hx, pure_bind]
    cases x with
    | ok q => exact ih q his
    | error f => exact ⟨_, rfl⟩

theorem blind_terminate (p : ParticleBody) (g : Generator) (fault : Fault) :
    (p.terminate g fault).Blind r (·.sounds = p.sounds) :=
  .after _ (.pure rfl)

theorem blind_lookUp (g : Generator) (track : KeyFrameTrack) :
    (lookUp g track).Blind r fun _ => True := by
  unfold lookUp
  split
  · refine .read ?_
    split
    · exact .pure trivial
    · exact .after _ (.pure trivial)
  · exact .pure trivial

/-- An updater asks nothing of the host. -/
theorem blind_applyUpdater (p : ParticleBody) (g : Generator) (u : Slotted Updater) :
    (p.applyUpdater g elapsed u).Blind r fun _ => True := by
  unfold applyUpdater
  split
  · unfold applyKeyFrames
    split
    · exact .pure trivial
    · refine .bind (blind_lookUp g _) fun track _ => ?_
      dsimp only
      split
      · exact .pure trivial
      · exact .pure trivial
  · exact .pure trivial

theorem blind_applyUpdaters (g : Generator) (p : ParticleBody) (us : List (Slotted Updater)) :
    (p.applyUpdaters g elapsed us).Blind r fun _ => True := by
  induction us generalizing p with
  | nil => exact .pure trivial
  | cons u us ih =>
    refine .bind (blind_applyUpdater elapsed p g u) fun x _ => ?_
    cases x with
    | ok q => exact ih q
    | error f => exact (p.blind_terminate g f).mono fun _ _ => trivial

theorem blind_grow (p : ParticleBody) (g : Generator) :
    (p.grow g elapsed anchor).Blind r (·.sounds = p.sounds) := by
  have hx : (p.grow g elapsed anchor).Blind r fun _ => True :=
    .bind (blind_applyUpdaters elapsed g _ _) fun _ _ => .pure trivial
  exact (hx.and (p.grow_passed g elapsed anchor)).mono fun _ h => h.2.sounds

variable (hd : r.directory.IsStill)
include hd

/-- An emitter of a directory that is still is still itself. -/
theorem blind_emitter? (p : ParticleBody) (scope : SpawnScope) (id : ResourceId)
    (windowed : Bool) :
    (p.emitter? scope id windowed).Blind r fun x => ∀ e ∈ x.toList, e.Still := by
  have none_still : ∀ e ∈ (none : Option Emitter).toList, e.Still := by simp
  refine .read ?_
  dsimp only
  split
  · exact .after _ (.pure none_still)
  · split
    next => exact .after _ (.pure none_still)
    next g hg =>
      refine .pure fun e he => ?_
      rw [Option.toList_some, List.mem_singleton] at he
      subst he
      exact Emitter.still_ofBody.mpr (hd.generator hg)

/-- What the initializers start is still. -/
theorem blind_startOwned {p : Particle} (hp : p.Still) (is : List (Slotted Initializer))
    (hi : ∀ i ∈ is, i.op.isStill = true) :
    (startOwned scope p is).Blind r Particle.Still := by
  induction is generalizing p with
  | nil => exact .pure hp
  | cons i is ih =>
    obtain ⟨body, children, emitters⟩ := p
    obtain ⟨hs, hc, he⟩ := Particle.still_mk.mp hp
    obtain ⟨hi, his⟩ := List.forall_mem_cons.mp hi
    unfold startOwned
    split
    next id _ =>
      exact .bind (blind_emitter? hd body scope id false) fun x hx =>
        ih (Particle.still_mk.mpr ⟨hs, hc, List.forall_mem_append.mpr ⟨he, hx⟩⟩) his
    next ho =>
      rw [ho] at hi
      cases hi
    next => exact ih hp his

end ParticleBody

namespace Particle

variable (hd : r.directory.IsStill) (hg : scope.definition.IsStill)
include hd hg

/-- A particle of a generator that is still draws nothing for its birth. -/
theorem blind_spawn (maxAge : Scalar) :
    (spawn scope maxAge anchor).Blind r fun x => ∀ p, x = .ok p → p.Still := by
  have bare {b : ParticleBody} (hb : b.sounds = []) : (mk b [] []).Still :=
    still_mk.mpr ⟨hb, by simp, by simp⟩
  obtain ⟨birth, hb⟩ := ParticleBody.initializedAll_of_still scope.definition
    (.blank scope.definition maxAge anchor) scope.definition.initializers hg.initializers
  have bears := ParticleBody.initializedAll_bears (p := .blank scope.definition maxAge anchor)
    (m := []) scope.definition scope.definition.initializers rfl (.ofSeed 1)
  rw [hb] at bears
  refine .bind (.draw hb bears) fun birth bears => ?_
  generalize SlotMap.scan [] scope.definition.initializers = verdict at bears
  cases bears with
  | whole m q same =>
    refine .bind (ParticleBody.blind_startOwned hd (bare ?_) _ hg.initializers) fun p hp =>
      .pure fun p' hp' => ?_
    · exact same.sounds
    · cases hp'
      exact hp
  | terminated q f same =>
    refine .bind (q.blind_terminate _ _) fun b hb => .pure fun p hp => ?_
    cases hp
    exact bare (hb.trans same.sounds)
  | refused o => exact .pure fun p hp => by cases hp

omit hg in
/-- What the handlers of a still generator start is still, and none of them plays a sound. -/
theorem blind_runHandlers {p : Particle} (hp : p.Still) (hs : List (Slotted ExpirationHandler))
    (hh : ∀ h ∈ hs, h.op.isStill = true) : (runHandlers scope p hs).Blind r Still := by
  induction hs generalizing p with
  | nil => exact .pure hp
  | cons h hs ih =>
    obtain ⟨body, children, emitters⟩ := p
    obtain ⟨hb, hc, he⟩ := still_mk.mp hp
    obtain ⟨hh, hhs⟩ := List.forall_mem_cons.mp hh
    unfold runHandlers
    split
    next id _ =>
      exact .bind (ParticleBody.blind_emitter? hd body scope id true) fun x hx =>
        ih (still_mk.mpr ⟨hb, hc, List.forall_mem_append.mpr ⟨he, hx⟩⟩) hhs
    next ho =>
      rw [ho] at hh
      cases hh
    next => exact ih hp hhs

theorem blind_expire {p : Particle} (hp : p.Still) : (p.expire scope).Blind r Still := by
  obtain ⟨body, children, emitters⟩ := p
  have handled : (mk { body with expirationHandled := true } children emitters).Still :=
    hp.changed rfl
  unfold expire
  dsimp only
  split
  · exact .pure handled
  · refine .bind (blind_runHandlers hd handled _ hg.expiration) fun x hx => ?_
    obtain ⟨body, children, emitters⟩ := x
    dsimp only
    split
    · exact .pure (hx.changed rfl)
    · exact .pure hx

/-- A still particle moves without asking the host for anything. -/
theorem blind_advanceSelf {p : Particle} (hp : p.Still) :
    (p.advanceSelf scope elapsed anchor).Blind r Still := by
  obtain ⟨body, children, emitters⟩ := p
  obtain ⟨hs, hc, he⟩ := still_mk.mp hp
  have ends {p : Particle} (hp : p.Still) :
      Tick.Blind (if (p.isExpired && !p.body.expirationHandled) = true then
        p.stopEmitters.expire scope else pure p) r Still := by
    split
    · exact blind_expire hd hg hp.stopEmitters
    · exact .pure hp
  have silent : (body.sounds.filterM Tick.isPlaying).Blind r (· = []) := by
    rw [hs]
    exact .pure rfl
  refine .bind silent fun playing hplaying => ?_
  subst hplaying
  have heard : (mk { body with sounds := [] } children emitters).Still :=
    still_mk.mpr ⟨rfl, hc, he⟩
  dsimp only
  split
  · exact .pure heard
  split
  · exact .bind (.pure heard) fun p hp => ends hp
  · refine .bind (P := Still) ?_ fun p hp => ends hp
    exact .bind (ParticleBody.blind_grow elapsed anchor _ _) fun b hb => .pure (heard.changed hb)

end Particle

namespace EmitterBody

theorem blind_updateAnchor (e : EmitterBody) :
    e.updateAnchor.Blind r (·.definition = e.definition) := by
  unfold updateAnchor
  split
  · exact .pure rfl
  · split
    · exact .pure rfl
    · refine .read ?_
      split
      · exact .pure rfl
      · split
        · exact .pure rfl
        · exact .after _ (.pure rfl)

theorem blind_applyUpdater (e : EmitterBody) {u : GeneratorUpdater} (hu : u.isStill = true) :
    (e.applyUpdater elapsed u).Blind r (·.definition = e.definition) := by
  cases u with
  | baseJitter => cases hu
  | distanceCull => exact .read (.pure rfl)
  | _ => exact .pure rfl

theorem blind_prepare {e : EmitterBody} (he : e.definition.IsStill) :
    (e.prepare elapsed).Blind r (·.definition = e.definition) := by
  refine .bind (blind_updateAnchor _) fun placed hp => ?_
  refine .foldlM (P := fun e' : EmitterBody => e'.definition = e.definition) _
    (fun e' u hu hd => ?_) hp
  rw [show placed.definition = e.definition from hp] at hu
  exact (blind_applyUpdater elapsed e' (he.generatorUpdaters u hu)).mono fun _ h => h.trans hd

variable {e : EmitterBody} (hd : r.directory.IsStill) (he : e.definition.IsStill)
include hd he

theorem blind_spawn : (e.spawn anchor).Blind r fun x => ∀ p, x = .ok p → p.Still := by
  refine .bind (P := fun _ => True) ?_ fun maxAge _ => Particle.blind_spawn anchor hd he maxAge
  have drawn : Draw.variance e.definition.maxAgeVariance = pure 0 := by
    rw [Draw.variance, if_pos he.maxAgeVariance]
  exact .bind (P := fun _ => True) (.draw drawn trivial) fun _ _ => .pure trivial

theorem blind_spawnBatch (k : Nat) :
    (e.spawnBatch anchor k).Blind r fun x => ∀ ps, x = .ok ps → ∀ p ∈ ps, p.Still := by
  induction k with
  | zero =>
    refine .pure fun ps hp => ?_
    cases hp
    simp
  | succ k ih =>
    refine .bind (blind_spawn anchor hd he) fun x hx => ?_
    cases x with
    | error f => exact .pure fun ps hp => by cases hp
    | ok p =>
      refine .bind ih fun y hy => ?_
      cases y with
      | error f => exact .pure fun ps hp => by cases hp
      | ok ps =>
        refine .pure fun qs hq => ?_
        cases hq
        exact List.forall_mem_cons.mpr ⟨hx p rfl, hy ps rfl⟩

end EmitterBody

namespace Emitter

variable {e : Emitter} (hd : r.directory.IsStill)
include hd

/-- An emission of a still generator is the same on every host. -/
theorem blind_emitOne (he : e.Still) : (e.emitOne anchor).Blind r (·.1.Still) := by
  obtain ⟨body, particles⟩ := e
  obtain ⟨hb, hp⟩ := still_mk.mp he
  have more {p : Particle} (h : p.Still) : (mk body (particles ++ [p])).Still :=
    still_mk.mpr ⟨hb, List.forall_mem_append.mpr ⟨hp, by simpa using h⟩⟩
  unfold emitOne
  dsimp only
  split
  · refine .bind (EmitterBody.blind_spawnBatch anchor hd hb _) fun x hx => ?_
    cases x with
    | error f => exact .pure he
    | ok cs =>
      exact .pure ((more (Particle.still_mk.mpr ⟨rfl, hx cs rfl, by simp⟩)).changed rfl)
  · refine .bind (EmitterBody.blind_spawn anchor hd hb) fun x hx => ?_
    cases x with
    | error f => exact .pure he
    | ok p => exact .pure ((more (hx p rfl)).changed rfl)

theorem blind_emit (k : Nat) (he : e.Still) : (e.emit anchor k).Blind r (·.1.Still) := by
  induction k generalizing e with
  | zero => exact .pure he
  | succ k ih =>
    refine .read ?_
    split
    · exact .pure he
    · refine .bind (blind_emitOne anchor hd he) fun x hx => ?_
      split
      · exact ih hx
      · exact .pure hx

omit hd in
theorem blind_schedule (he : e.Still) : e.schedule.Blind r Still := by
  obtain ⟨body, particles⟩ := e
  have drawn : Draw.variance body.definition.intervalVariance = pure 0 := by
    rw [Draw.variance, if_pos (still_mk.mp he).1.intervalVariance]
  exact .bind (P := fun _ => True) (.draw drawn trivial) fun _ _ => .pure (he.changed rfl)

theorem blind_emitDue (k : Nat) (he : e.Still) :
    (emitDue anchor k e).Blind r (·.1.Still) := by
  induction k generalizing e with
  | zero => exact .pure he
  | succ k ih =>
    unfold emitDue
    split
    · exact .pure he
    · dsimp only
      split
      · exact .pure he
      · refine .bind (blind_emit anchor hd _ he) fun x hx => ?_
        split
        · exact .pure hx
        · exact .bind (blind_schedule hx) fun e he => ih he

theorem blind_finish (he : e.Still) : (e.finish elapsed anchor).Blind r (·.1.Still) := by
  obtain ⟨body, particles⟩ := e
  obtain ⟨hb, hp⟩ := still_mk.mp he
  have left : (mk body (particles.filter fun p => !p.isComplete)).Still :=
    still_mk.mpr ⟨hb, fun p h => hp p (List.mem_filter.mp h).1⟩
  unfold finish
  dsimp only
  split
  · refine .read (.bind (blind_emitDue anchor hd _ left) fun x hx => ?_)
    obtain ⟨⟨b, ps⟩, halt⟩ := x
    cases halt with
    | some why => exact .pure hx
    | none => exact .pure (hx.changed rfl)
  · exact .pure (left.changed rfl)

end Emitter

end Ticks

section Trees

variable {r : Surroundings}

mutual

/-- A tick of a still particle, and of all that it owns, is the same on every host. -/
theorem Particle.blind_advance (hd : r.directory.IsStill) {scope : SpawnScope}
    (hg : scope.definition.IsStill) (elapsed : Scalar) (anchor : Anchor) : ∀ p : Particle,
      p.Still → (p.advance scope elapsed anchor).Blind r (·.1.Still)
  | .mk body children emitters, hp => by
    obtain ⟨hb, hc, he⟩ := Particle.still_mk.mp hp
    unfold Particle.advance
    refine .bind (blind_advanceParticles hd hg elapsed anchor children hc) fun x hx => ?_
    dsimp only
    split
    · exact .pure (Particle.still_mk.mpr ⟨hb, hx, he⟩)
    have left : ∀ c ∈ x.1.filter fun c => !c.isComplete, c.Still :=
      fun c h => hx c (List.mem_filter.mp h).1
    refine .bind (blind_advanceEmitters hd _ elapsed emitters he) fun y hy => ?_
    split
    · exact .pure (Particle.still_mk.mpr ⟨hb, left, hy⟩)
    · refine .bind (Particle.blind_advanceSelf elapsed anchor hd hg
        (Particle.still_mk.mpr ⟨hb, left, ?_⟩)) fun z hz => .pure hz
      exact fun e h => hy e (List.mem_filter.mp h).1

/-- A tick of a still emitter is the same on every host. -/
theorem Emitter.blind_advance (hd : r.directory.IsStill) (parent : Option Anchor)
    (elapsed : Scalar) : ∀ e : Emitter, e.Still → (e.advance parent elapsed).Blind r (·.1.Still)
  | .mk body particles, he => by
    obtain ⟨hb, hp⟩ := Emitter.still_mk.mp he
    unfold Emitter.advance
    refine .bind (EmitterBody.blind_prepare elapsed hb) fun b hdef => ?_
    have hb : b.definition.IsStill := by
      rw [show b.definition = body.definition from hdef]
      exact hb
    refine .bind (blind_advanceParticles hd hb elapsed _ particles hp) fun x hx => ?_
    dsimp only
    split
    · exact .pure (Emitter.still_mk.mpr ⟨hb, hx⟩)
    · exact Emitter.blind_finish elapsed _ hd (Emitter.still_mk.mpr ⟨hb, hx⟩)

theorem blind_advanceParticles (hd : r.directory.IsStill) {scope : SpawnScope}
    (hg : scope.definition.IsStill) (elapsed : Scalar) (anchor : Anchor) :
    ∀ ps : List Particle, (∀ p ∈ ps, p.Still) →
      (advanceParticles scope elapsed anchor ps).Blind r fun x => ∀ p ∈ x.1, p.Still
  | [], h => .pure h
  | p :: ps, h => by
    obtain ⟨hp, hps⟩ := List.forall_mem_cons.mp h
    unfold advanceParticles
    refine .bind (Particle.blind_advance hd hg elapsed anchor p hp) fun x hx => ?_
    dsimp only
    split
    · exact .pure (List.forall_mem_cons.mpr ⟨hx, hps⟩)
    · exact .bind (blind_advanceParticles hd hg elapsed anchor ps hps) fun y hy =>
        .pure (List.forall_mem_cons.mpr ⟨hx, hy⟩)

theorem blind_advanceEmitters (hd : r.directory.IsStill) (parent : Option Anchor)
    (elapsed : Scalar) : ∀ es : List Emitter, (∀ e ∈ es, e.Still) →
      (advanceEmitters parent elapsed es).Blind r fun x => ∀ e ∈ x.1, e.Still
  | [], h => .pure h
  | e :: es, h => by
    obtain ⟨he, hes⟩ := List.forall_mem_cons.mp h
    unfold advanceEmitters
    refine .bind (Emitter.blind_advance hd parent elapsed e he) fun x hx => ?_
    dsimp only
    split
    · exact .pure (List.forall_mem_cons.mpr ⟨hx, hes⟩)
    · exact .bind (blind_advanceEmitters hd parent elapsed es hes) fun y hy =>
        .pure (List.forall_mem_cons.mpr ⟨hx, hy⟩)

end

end Trees

end EffectMachine
