import EffectMachine.Proofs.Hosts
import EffectMachine.Proofs.Hush
import EffectMachine.Proofs.InTurn

namespace EffectMachine

/-- How many emitters one comes upon on the way to a place. -/
def Place.levels (a : Place) : Nat := a.countP fun b => b.kind = .emitter

/-- What an emitter hands down to its particles. -/
abbrev Grade := Nat → SpawnScope → Prop

namespace Node

/-- Every emitter of a tree is as its level says, from some level on. -/
def Levelled (Q : Nat → EmitterBody → Prop) (n : Nat) (x : Node) : Prop :=
  ∀ a e, x.at? a = some (.emitter e) → Q (n + a.levels) e.body

variable {Q : Nat → EmitterBody → Prop} {n : Nat} {x c : Node}

/-- What is owned is on the same level, or one further down if it is an emitter. -/
theorem Levelled.owned (hx : x.Levelled Q n) {k : NodeKind} (hc : c ∈ x.owned k) :
    c.Levelled Q (n + if k = .emitter then 1 else 0) := by
  intro a e he
  obtain ⟨i, hi⟩ := List.getElem?_of_mem hc
  have h := hx (⟨k, i⟩ :: a) e (by rw [at?_cons, hi]; exact he)
  rw [Place.levels, List.countP_cons] at h
  simpa [Nat.add_assoc, Nat.add_comm, Place.levels] using h

theorem levelled_of_owned (here : ∀ e, x = .emitter e → Q n e.body)
    (below : ∀ k, ∀ c ∈ x.owned k, c.Levelled Q (n + if k = .emitter then 1 else 0)) :
    x.Levelled Q n := by
  intro a e he
  cases a with
  | nil => exact here e (Option.some.inj he)
  | cons b a =>
    obtain ⟨c, hc, he⟩ := Option.bind_eq_some_iff.mp he
    have h := below b.kind c (List.mem_of_getElem? hc) a e he
    rw [Place.levels, List.countP_cons]
    simpa [Nat.add_assoc, Nat.add_comm, Place.levels] using h

/-- Being told to stop changes nothing else. -/
theorem Levelled.hushed (hx : x.Levelled Q n) (hp : x.isParticulate = true)
    (deaf : ∀ n b, Q n b → Q n { b with stopRequested := true }) : x.hushed.Levelled Q n := by
  intro a e he
  rw [at?_hushed hp] at he
  obtain ⟨c, hc, he⟩ := Option.map_eq_some_iff.mp he
  cases c with
  | emitter d =>
    obtain ⟨b, ps⟩ := d
    cases he
    exact deaf _ b (hx a (.mk b ps) hc)
  | particle | sequence | system => cases he

/-- The levels of a particle are those of all that it owns. -/
theorem levelled_particle {b : ParticleBody} {cs : List Particle} {es : List Emitter} :
    (particle (.mk b cs es)).Levelled Q n ↔
      (∀ c ∈ cs, (particle c).Levelled Q n) ∧ ∀ e ∈ es, (emitter e).Levelled Q (n + 1) := by
  constructor
  · intro h
    exact ⟨fun c hc => h.owned (k := .particle) (List.mem_map_of_mem hc),
      fun e he => h.owned (k := .emitter) (List.mem_map_of_mem he)⟩
  · intro ⟨hc, he⟩
    refine levelled_of_owned (fun e h => nomatch h) fun k x hx => ?_
    cases k with
    | particle =>
      obtain ⟨c, hm, rfl⟩ := List.mem_map.mp hx
      exact hc c hm
    | emitter =>
      obtain ⟨e, hm, rfl⟩ := List.mem_map.mp hx
      exact he e hm
    | sequence => cases hx

theorem levelled_emitter {b : EmitterBody} {ps : List Particle} :
    (emitter (.mk b ps)).Levelled Q n ↔ Q n b ∧ ∀ p ∈ ps, (particle p).Levelled Q n := by
  constructor
  · intro h
    exact ⟨h [] _ rfl, fun p hp => h.owned (k := .particle) (List.mem_map_of_mem hp)⟩
  · intro ⟨hb, hp⟩
    refine levelled_of_owned (fun e h => by cases h; exact hb) fun k x hx => ?_
    cases k with
    | particle =>
      obtain ⟨p, hm, rfl⟩ := List.mem_map.mp hx
      exact hp p hm
    | emitter | sequence => cases hx

end Node

def Particle.Levelled (Q : Nat → EmitterBody → Prop) (n : Nat) (p : Particle) : Prop :=
  (Node.particle p).Levelled Q n

def Emitter.Levelled (Q : Nat → EmitterBody → Prop) (n : Nat) (e : Emitter) : Prop :=
  (Node.emitter e).Levelled Q n

section Levelled

variable {Q : Nat → EmitterBody → Prop} {n : Nat}

namespace Particle

theorem levelled_mk {b : ParticleBody} {cs : List Particle} {es : List Emitter} :
    (mk b cs es).Levelled Q n ↔ (∀ c ∈ cs, c.Levelled Q n) ∧ ∀ e ∈ es, e.Levelled Q (n + 1) :=
  Node.levelled_particle

/-- Of the particle itself nothing counts. -/
theorem Levelled.changed {b b' : ParticleBody} {cs : List Particle} {es : List Emitter}
    (h : (mk b cs es).Levelled Q n) : (mk b' cs es).Levelled Q n :=
  levelled_mk.mpr (levelled_mk.mp h)

end Particle

theorem Emitter.levelled_mk {b : EmitterBody} {ps : List Particle} :
    (mk b ps).Levelled Q n ↔ Q n b ∧ ∀ p ∈ ps, p.Levelled Q n :=
  Node.levelled_emitter

theorem Emitter.levelled_ofBody {b : EmitterBody} : (ofBody b).Levelled Q n ↔ Q n b := by
  simp [ofBody, levelled_mk]

end Levelled

/-- What particles of this scope start is as the level below says. A new emitter has counted
nothing yet. -/
structure SpawnScope.Starts (scope : SpawnScope) (Q : Nat → EmitterBody → Prop) (n : Nat)
    (r : Surroundings) (O : HostOrder) : Prop where
  admits : O.Admits []
  deaf : ∀ n b, Q n b → Q n { b with stopRequested := true }
  started : ∀ {id g} {b : EmitterBody}, scope.depth < r.config.maxNestingDepth →
    r.directory.generator? id (.ancestors scope.definition.origin) = some g →
      b.scope = ⟨g, scope.binding, scope.depth + 1⟩ → b.countdown = 0 → Q (n + 1) b

section Births

variable {Q : Nat → EmitterBody → Prop} {r : Surroundings} {O : HostOrder} {n : Nat}
  {scope : SpawnScope} (elapsed : Scalar) (anchor : Anchor)

namespace ParticleBody

section Body

variable (hO : O.Admits [])
include hO

theorem leads_terminate (p : ParticleBody) (g : Generator) (fault : Fault) :
    (p.terminate g fault).Leads r O :=
  .bind (hO.leads_note _ rfl) fun _ => .pure _

theorem leads_lookUp (g : Generator) (track : KeyFrameTrack) : (lookUp g track).Leads r O := by
  unfold lookUp
  split
  · refine .read ?_
    split
    · exact .pure _
    · exact .bind (hO.leads_note _ rfl) fun _ => .pure _
  · exact .pure _

theorem leads_applyUpdater (p : ParticleBody) (g : Generator) (u : Slotted Updater) :
    (p.applyUpdater g elapsed u).Leads r O := by
  refine .ite ?_ (.pure _)
  unfold applyKeyFrames
  split
  · exact .pure _
  · refine .bind (leads_lookUp hO g _) fun track => ?_
    dsimp only
    split
    · exact .pure _
    · exact .pure _

theorem leads_applyUpdaters (g : Generator) (p : ParticleBody) (us : List (Slotted Updater)) :
    (p.applyUpdaters g elapsed us).Leads r O := by
  induction us generalizing p with
  | nil => exact .pure p
  | cons u us ih =>
    refine .bind (leads_applyUpdater elapsed hO p g u) fun x => ?_
    split
    · exact ih _
    · exact p.leads_terminate hO g _

theorem leads_grow (p : ParticleBody) (g : Generator) : (p.grow g elapsed anchor).Leads r O :=
  .bind (leads_applyUpdaters elapsed hO g _ _) fun _ => .pure _

end Body

variable (hs : scope.Starts Q n r O)
include hs

/-- An emitter that a particle starts is one level further down, if that is allowed. -/
theorem emitter?_keeps (p : ParticleBody) (id : ResourceId) (windowed : Bool) :
    (p.emitter? scope id windowed).Keeps r O fun x => ∀ e ∈ x.toList, e.Levelled Q (n + 1) := by
  have none_levelled : ∀ e ∈ (none : Option Emitter).toList, e.Levelled Q (n + 1) := by simp
  refine .read ?_
  dsimp only
  split
  next => exact .after (hs.admits.leads_note _ rfl) fun _ => .pure none_levelled
  next hd =>
    split
    next => exact .after (hs.admits.leads_note _ rfl) fun _ => .pure none_levelled
    next g hg =>
      refine .pure fun e he => ?_
      rw [Option.toList_some, List.mem_singleton] at he
      subst he
      exact Emitter.levelled_ofBody.mpr (hs.started (by simpa using hd) hg rfl rfl)

theorem startOwned_keeps {p : Particle} (hp : p.Levelled Q n) (is : List (Slotted Initializer)) :
    (startOwned scope p is).Keeps r O (Particle.Levelled Q n) := by
  induction is generalizing p with
  | nil => exact .pure hp
  | cons i is ih =>
    obtain ⟨body, children, emitters⟩ := p
    obtain ⟨hc, he⟩ := Particle.levelled_mk.mp hp
    unfold startOwned
    split
    · exact .bind (emitter?_keeps hs body _ _) fun x hx =>
        ih (Particle.levelled_mk.mpr ⟨hc, List.forall_mem_append.mpr ⟨he, hx⟩⟩)
    · exact .after (hs.admits.leads_playSound _ _ _ (by simp)) fun _ =>
        ih (Particle.levelled_mk.mpr ⟨hc, he⟩)
    · exact ih hp

omit hs in
theorem initialized_advances (p : ParticleBody) (g : Generator) (i : Slotted Initializer) :
    (p.initialized g i).Advances := by
  unfold initialized
  split
  case h_2 | h_4 => exact (Draw.jitter_advances _).bind fun _ => .pure _
  case h_11 => exact (Draw.jitterColor_advances _).bind fun _ => .pure _
  case h_16 => exact (Draw.range_advances _ _).bind fun _ => .pure _
  all_goals exact .pure _

omit hs in
theorem initializedAll_advances (g : Generator) (p : ParticleBody)
    (is : List (Slotted Initializer)) : (p.initializedAll g is).Advances := by
  induction is generalizing p with
  | nil => exact .pure _
  | cons i is ih =>
    refine (p.initialized_advances g i).bind fun x => ?_
    split
    · exact ih _
    · exact .pure _

end ParticleBody

namespace Particle

variable (hs : scope.Starts Q n r O)
include hs

/-- A new particle has handed its level to the emitters that it starts. -/
theorem spawn_keeps (maxAge : Scalar) :
    (spawn scope maxAge anchor).Keeps r O fun x => ∀ p, x = .ok p → p.Levelled Q n := by
  have bare {b : ParticleBody} : (mk b [] []).Levelled Q n := levelled_mk.mpr ⟨by simp, by simp⟩
  refine .after (hs.admits.leads_draw (ParticleBody.initializedAll_advances _ _ _)) fun birth => ?_
  split
  · exact .bind (ParticleBody.startOwned_keeps hs bare _) fun p hp => .pure fun q hq => by
      cases hq
      exact hp
  · exact .after (ParticleBody.leads_terminate hs.admits _ _ _) fun _ => .pure fun q hq => by
      cases hq
      exact bare
  · exact .pure fun q hq => nomatch hq

theorem runHandlers_keeps {p : Particle} (hp : p.Levelled Q n)
    (hs' : List (Slotted ExpirationHandler)) :
    (runHandlers scope p hs').Keeps r O (Levelled Q n) := by
  induction hs' generalizing p with
  | nil => exact .pure hp
  | cons h hs' ih =>
    obtain ⟨body, children, emitters⟩ := p
    obtain ⟨hc, he⟩ := levelled_mk.mp hp
    unfold runHandlers
    split
    · exact .bind (ParticleBody.emitter?_keeps hs body _ _) fun x hx =>
        ih (levelled_mk.mpr ⟨hc, List.forall_mem_append.mpr ⟨he, hx⟩⟩)
    · exact .after (hs.admits.leads_playSound _ _ _ (by simp)) fun _ =>
        ih (levelled_mk.mpr ⟨hc, he⟩)
    · exact ih hp

theorem expire_keeps {p : Particle} (hp : p.Levelled Q n) :
    (p.expire scope).Keeps r O (Levelled Q n) := by
  obtain ⟨body, children, emitters⟩ := p
  have handled {b : ParticleBody} : (mk b children emitters).Levelled Q n := hp.changed
  unfold expire
  dsimp only
  split
  · exact .pure handled
  · refine .bind (runHandlers_keeps hs handled _) fun x hx => ?_
    obtain ⟨body, children, emitters⟩ := x
    dsimp only
    split
    · exact .pure hx.changed
    · exact .pure hx

/-- What a particle starts on its own part of a tick is one level further down. -/
theorem advanceSelf_keeps {p : Particle} (hp : p.Levelled Q n) :
    (p.advanceSelf scope elapsed anchor).Keeps r O (Levelled Q n) := by
  obtain ⟨body, children, emitters⟩ := p
  have moved {b : ParticleBody} : (mk b children emitters).Levelled Q n := hp.changed
  refine .after (.filterM Tick.leads_isPlaying _) fun playing => ?_
  dsimp only
  split
  · exact .pure moved
  have ends {p : Particle} (hp : p.Levelled Q n) :
      Tick.Keeps (if (p.isExpired && !p.body.expirationHandled) = true then
        p.stopEmitters.expire scope else pure p) r O (Levelled Q n) := by
    split
    · exact expire_keeps hs (Node.Levelled.hushed hp rfl hs.deaf)
    · exact .pure hp
  split
  · exact .bind (.pure moved) fun p hp => ends hp
  · refine .bind (P := Levelled Q n) ?_ fun p hp => ends hp
    exact .after (ParticleBody.leads_grow elapsed anchor hs.admits _ _) fun b => .pure moved

end Particle

namespace EmitterBody

section Body

variable (hO : O.Admits [])
include hO

/-- What is handed down to the particles never changes. -/
theorem updateAnchor_keeps_scope (e : EmitterBody) :
    e.updateAnchor.Keeps r O (·.scope = e.scope) := by
  unfold updateAnchor
  split
  · exact .pure rfl
  · split
    · exact .pure rfl
    · refine .read ?_
      split
      · exact .pure rfl
      · split
        · exact .pure rfl
        · exact .after (hO.leads_note _ rfl) fun _ => .pure rfl

theorem applyUpdater_keeps_scope (e : EmitterBody) (u : GeneratorUpdater) :
    (e.applyUpdater elapsed u).Keeps r O (·.scope = e.scope) := by
  cases u with
  | distanceCull => exact .read (.pure rfl)
  | baseJitter => exact .after (hO.leads_draw (Draw.inSphere_advances _)) fun _ => .pure rfl
  | _ => exact .pure rfl

theorem prepare_keeps_scope (e : EmitterBody) :
    (e.prepare elapsed).Keeps r O (·.scope = e.scope) := by
  refine .bind (updateAnchor_keeps_scope hO _) fun e' he => ?_
  refine .foldlM (P := fun e' : EmitterBody => e'.scope = e.scope) (fun e' u he => ?_) _ he
  exact (applyUpdater_keeps_scope elapsed hO e' u).mono fun _ h => h.trans he

end Body

variable {e : EmitterBody} (hs : e.scope.Starts Q n r O)
include hs

theorem spawn_keeps : (e.spawn anchor).Keeps r O fun x => ∀ p, x = .ok p → p.Levelled Q n := by
  refine .after ?_ fun maxAge => Particle.spawn_keeps anchor hs maxAge
  exact .bind (hs.admits.leads_draw (Draw.variance_advances _)) fun _ => .pure _

theorem spawnBatch_keeps (k : Nat) :
    (e.spawnBatch anchor k).Keeps r O fun x => ∀ ps, x = .ok ps → ∀ p ∈ ps, p.Levelled Q n := by
  induction k with
  | zero =>
    refine .pure fun ps hp => ?_
    cases hp
    simp
  | succ k ih =>
    refine .bind (spawn_keeps anchor hs) fun x hx => ?_
    split
    next => exact .pure fun ps hp => nomatch hp
    next p =>
      refine .bind ih fun y hy => ?_
      split
      next => exact .pure fun ps hp => nomatch hp
      next ps =>
        refine .pure fun qs hq => ?_
        cases hq
        exact List.forall_mem_cons.mpr ⟨hx p rfl, hy ps rfl⟩

end EmitterBody

/-- Hands this scope down, to particles on their level. -/
structure Emitter.Rears (scope : SpawnScope) (Q : Nat → EmitterBody → Prop) (n : Nat) (e : Emitter) :
    Prop where
  scope_eq : e.body.scope = scope
  levelled : ∀ p ∈ e.particles, p.Levelled Q n

namespace Emitter

variable {e : Emitter} (hs : scope.Starts Q n r O) (he : e.Rears scope Q n)
include hs he

theorem emitOne_keeps : (e.emitOne anchor).Keeps r O fun x => x.1.Rears scope Q n := by
  obtain ⟨body, particles⟩ := e
  obtain ⟨rfl, hp⟩ := he
  have more {b : EmitterBody} {p : Particle} (hb : b.scope = body.scope) (h : p.Levelled Q n) :
      (mk b (particles ++ [p])).Rears body.scope Q n :=
    ⟨hb, List.forall_mem_append.mpr ⟨hp, by simpa using h⟩⟩
  unfold emitOne
  dsimp only
  split
  · refine .bind (EmitterBody.spawnBatch_keeps anchor hs _) fun x hx => ?_
    split
    · exact .pure ⟨rfl, hp⟩
    next cs => exact .pure (more rfl (Particle.levelled_mk.mpr ⟨hx cs rfl, by simp⟩))
  · refine .bind (EmitterBody.spawn_keeps anchor hs) fun x hx => ?_
    split
    · exact .pure ⟨rfl, hp⟩
    next p => exact .pure (more rfl (hx p rfl))

theorem emit_keeps (k : Nat) : (e.emit anchor k).Keeps r O fun x => x.1.Rears scope Q n := by
  induction k generalizing e with
  | zero => exact .pure he
  | succ k ih =>
    refine .read ?_
    split
    · exact .pure he
    · refine .bind (emitOne_keeps anchor hs he) fun x hx => ?_
      split
      · exact ih hx
      · exact .pure hx

theorem schedule_keeps : e.schedule.Keeps r O (Rears scope Q n) := by
  obtain ⟨body, particles⟩ := e
  exact .after (hs.admits.leads_draw (Draw.variance_advances _)) fun _ =>
    .pure ⟨he.scope_eq, he.levelled⟩

theorem emitDue_keeps (k : Nat) :
    (emitDue anchor k e).Keeps r O fun x => x.1.Rears scope Q n := by
  induction k generalizing e with
  | zero => exact .pure he
  | succ k ih =>
    unfold emitDue
    split
    · exact .pure he
    · dsimp only
      split
      · exact .pure he
      · refine .bind (emit_keeps anchor hs he _) fun x hx => ?_
        split
        · exact .pure hx
        · exact .bind (schedule_keeps hs hx) fun e he => ih he

end Emitter

end Births

def Node.Graded (P : Grade) (n : Nat) (x : Node) : Prop := x.Levelled (fun n b => P n b.scope) n

def Particle.Graded (P : Grade) (n : Nat) (p : Particle) : Prop := (Node.particle p).Graded P n

def Emitter.Graded (P : Grade) (n : Nat) (e : Emitter) : Prop := (Node.emitter e).Graded P n

section Graded

variable {P : Grade} {n : Nat}

theorem Particle.graded_mk {b : ParticleBody} {cs : List Particle} {es : List Emitter} :
    (mk b cs es).Graded P n ↔ (∀ c ∈ cs, c.Graded P n) ∧ ∀ e ∈ es, e.Graded P (n + 1) :=
  Particle.levelled_mk

namespace Emitter

theorem graded_mk {b : EmitterBody} {ps : List Particle} :
    (mk b ps).Graded P n ↔ P n b.scope ∧ ∀ p ∈ ps, p.Graded P n :=
  Emitter.levelled_mk (Q := fun n b => P n b.scope)

theorem graded_ofBody {b : EmitterBody} : (ofBody b).Graded P n ↔ P n b.scope := by
  simp [ofBody, graded_mk]

theorem Graded.stop {e : Emitter} (h : e.Graded P n) : e.stop.Graded P n :=
  Node.Levelled.hushed (Q := fun n b => P n b.scope) h rfl fun _ _ h => h

end Emitter

end Graded

/-- What the levels say is passed on by particles, and the order of hosts allows what they do. -/
structure Grade.KeptIn (P : Grade) (r : Surroundings) (O : HostOrder) : Prop where
  admits : O.Admits []
  started : ∀ {n scope id g}, P n scope → scope.depth < r.config.maxNestingDepth →
    r.directory.generator? id (.ancestors scope.definition.origin) = some g →
      P (n + 1) ⟨g, scope.binding, scope.depth + 1⟩

section Trees

variable {P : Grade} {r : Surroundings} {O : HostOrder} {n : Nat}

theorem Grade.KeptIn.starts {scope : SpawnScope} (hk : P.KeptIn r O) (hs : P n scope) :
    scope.Starts (fun n b => P n b.scope) n r O :=
  ⟨hk.admits, fun _ _ h => h, fun hd hg hb _ => hb.symm ▸ hk.started hs hd hg⟩

theorem Emitter.finish_keeps {e : Emitter} (elapsed : Scalar) (anchor : Anchor)
    (hk : P.KeptIn r O) (he : e.Graded P n) :
    (e.finish elapsed anchor).Keeps r O fun x => x.1.Graded P n := by
  obtain ⟨body, particles⟩ := e
  obtain ⟨hs, hp⟩ := graded_mk.mp he
  have left : (mk body (particles.filter fun p => !p.isComplete)).Rears body.scope
      (fun n b => P n b.scope) n :=
    ⟨rfl, fun p h => hp p (List.mem_filter.mp h).1⟩
  unfold finish
  dsimp only
  split
  · refine .read (.bind (emitDue_keeps anchor (hk.starts hs) left _) fun x hx => ?_)
    obtain ⟨⟨b, ps⟩, halt⟩ := x
    obtain ⟨hb, hps⟩ := hx
    have same : P n b.scope := hb.symm ▸ hs
    cases halt with
    | some why => exact .pure (graded_mk.mpr ⟨same, hps⟩)
    | none => exact .pure (graded_mk.mpr ⟨same, hps⟩)
  · exact .pure (graded_mk.mpr ⟨hs, left.levelled⟩)

mutual

/-- A tick of a particle keeps the levels of all that it owns. -/
theorem Particle.advance_keeps (hk : P.KeptIn r O) {n : Nat} {scope : SpawnScope}
    (hs : P n scope) (elapsed : Scalar) (anchor : Anchor) : ∀ p : Particle, p.Graded P n →
      (p.advance scope elapsed anchor).Keeps r O fun x => x.1.Graded P n
  | .mk body children emitters, hp => by
    obtain ⟨hc, he⟩ := Particle.graded_mk.mp hp
    unfold Particle.advance
    refine .bind (advanceParticles_keeps hk hs elapsed anchor children hc) fun x hx => ?_
    dsimp only
    split
    · exact .pure (Particle.graded_mk.mpr ⟨hx, he⟩)
    have left : ∀ c ∈ x.1.filter fun c => !c.isComplete, c.Graded P n :=
      fun c h => hx c (List.mem_filter.mp h).1
    refine .bind (advanceEmitters_keeps hk _ elapsed emitters he) fun y hy => ?_
    split
    · exact .pure (Particle.graded_mk.mpr ⟨left, hy⟩)
    · refine .bind (Particle.advanceSelf_keeps elapsed anchor (hk.starts hs)
        (Particle.graded_mk.mpr ⟨left, ?_⟩)) fun z hz => .pure hz
      exact fun e h => hy e (List.mem_filter.mp h).1

/-- A tick of an emitter keeps its own level and those below. -/
theorem Emitter.advance_keeps (hk : P.KeptIn r O) {n : Nat} (parent : Option Anchor)
    (elapsed : Scalar) : ∀ e : Emitter, e.Graded P n →
      (e.advance parent elapsed).Keeps r O fun x => x.1.Graded P n
  | .mk body particles, he => by
    obtain ⟨hs, hp⟩ := Emitter.graded_mk.mp he
    unfold Emitter.advance
    refine .bind (EmitterBody.prepare_keeps_scope elapsed hk.admits _) fun b hb => ?_
    have hs : P n b.scope := hb ▸ hs
    refine .bind (advanceParticles_keeps hk hs elapsed _ particles hp) fun x hx => ?_
    dsimp only
    split
    · exact .pure (Emitter.graded_mk.mpr ⟨hs, hx⟩)
    · exact Emitter.finish_keeps elapsed _ hk (Emitter.graded_mk.mpr ⟨hs, hx⟩)

theorem advanceParticles_keeps (hk : P.KeptIn r O) {n : Nat} {scope : SpawnScope}
    (hs : P n scope) (elapsed : Scalar) (anchor : Anchor) : ∀ ps : List Particle,
      (∀ p ∈ ps, p.Graded P n) →
        (advanceParticles scope elapsed anchor ps).Keeps r O fun x => ∀ p ∈ x.1, p.Graded P n
  | [], h => .pure h
  | p :: ps, h => by
    obtain ⟨hp, hps⟩ := List.forall_mem_cons.mp h
    unfold advanceParticles
    refine .bind (Particle.advance_keeps hk hs elapsed anchor p hp) fun x hx => ?_
    dsimp only
    split
    · exact .pure (List.forall_mem_cons.mpr ⟨hx, hps⟩)
    · exact .bind (advanceParticles_keeps hk hs elapsed anchor ps hps) fun y hy =>
        .pure (List.forall_mem_cons.mpr ⟨hx, hy⟩)

theorem advanceEmitters_keeps (hk : P.KeptIn r O) {n : Nat} (parent : Option Anchor)
    (elapsed : Scalar) : ∀ es : List Emitter, (∀ e ∈ es, e.Graded P n) →
      (advanceEmitters parent elapsed es).Keeps r O fun x => ∀ e ∈ x.1, e.Graded P n
  | [], h => .pure h
  | e :: es, h => by
    obtain ⟨he, hes⟩ := List.forall_mem_cons.mp h
    unfold advanceEmitters
    refine .bind (Emitter.advance_keeps hk parent elapsed e he) fun x hx => ?_
    dsimp only
    split
    · exact .pure (List.forall_mem_cons.mpr ⟨hx, hes⟩)
    · exact .bind (advanceEmitters_keeps hk parent elapsed es hes) fun y hy =>
        .pure (List.forall_mem_cons.mpr ⟨hx, hy⟩)

end

/-- Whatever is handed down, particles do no more to the host than is allowed. -/
theorem leads_advanceEmitters (hO : O.Admits []) (parent : Option Anchor) (elapsed : Scalar)
    (es : List Emitter) : (advanceEmitters parent elapsed es).Leads r O :=
  (advanceEmitters_keeps (P := fun _ _ => True) (n := 0) ⟨hO, fun _ _ _ => trivial⟩ parent
    elapsed es fun _ _ _ _ _ => trivial).leads

end Trees

end EffectMachine
