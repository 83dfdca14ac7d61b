import EffectMachine.Proofs.Hush
import EffectMachine.Proofs.Particle.Emissions
import EffectMachine.Proofs.Particle.Emitters

namespace EffectMachine

namespace Particle

/-- At its end a particle keeps its batch and may start further emitters behind the others. -/
theorem expire_owned (scope : SpawnScope) (p : Particle) :
    (p.expire scope).Always fun q =>
      q.children = p.children ∧ ∃ new, q.emitters = p.emitters ++ new := by
  obtain ⟨b, cs, es⟩ := p
  unfold expire
  dsimp only
  split
  · exact .pure ⟨rfl, [], (List.append_nil es).symm⟩
  · refine .bind (runHandlers_adds scope _ _) fun q hq => ?_
    obtain ⟨sounds, new, rfl⟩ := hq
    dsimp only
    split
    · exact .pure ⟨rfl, new, rfl⟩
    · exact .pure ⟨rfl, new, rfl⟩

/-- What a particle's own part of a tick leaves of all that it owns: everything as it is, or, once
it expires, everything told to stop and new emitters behind. -/
inductive Closes (p q : Particle) : Prop where
  | asIs (children : q.children = p.children) (emitters : q.emitters = p.emitters)
  | hushed (new : List Emitter) (children : q.children = p.children.map stopEmitters)
      (emitters : q.emitters = p.emitters.map Emitter.stop ++ new)

theorem expire_closes (scope : SpawnScope) (p : Particle) :
    (p.stopEmitters.expire scope).Always p.Closes := by
  refine (expire_owned scope p.stopEmitters).mono fun q hq => ?_
  obtain ⟨hc, new, he⟩ := hq
  exact .hushed new (hc.trans p.children_stopEmitters) (by rw [he, emitters_stopEmitters])

theorem endTick_closes (scope : SpawnScope) (p : Particle) : (p.endTick scope).Always p.Closes := by
  unfold endTick
  split
  · exact expire_closes scope p
  · exact .pure (.asIs rfl rfl)

theorem growSelf_owned (g : Generator) (elapsed : Scalar) (anchor : Anchor) (p : Particle) :
    (p.growSelf g elapsed anchor).Always fun q =>
      q.children = p.children ∧ q.emitters = p.emitters := by
  obtain ⟨b, cs, es⟩ := p
  exact .after _ fun _ => .pure ⟨rfl, rfl⟩

/-- A particle's own part of a tick leaves what it owns in one of two ways. -/
theorem advanceSelf_closes (scope : SpawnScope) (elapsed : Scalar) (anchor : Anchor)
    (p : Particle) : (p.advanceSelf scope elapsed anchor).Always p.Closes := by
  intro r h
  rw [advanceSelf_eq]
  split
  · exact .asIs rfl rfl
  · refine Tick.Always.bind (P := fun q : Particle =>
      q.children = p.children ∧ q.emitters = p.emitters) ?_ (fun q hq => ?_) r h
    · split
      · exact .pure ⟨rfl, rfl⟩
      · exact growSelf_owned _ _ _ (p.hearing h)
    · refine (endTick_closes scope q).mono fun q' hq' => ?_
      cases hq' with
      | asIs children emitters => exact .asIs (children.trans hq.1) (emitters.trans hq.2)
      | hushed new children emitters =>
        exact .hushed new (hq.1 ▸ children) (hq.2 ▸ emitters)

def childTick? (g : Generator) (p : Particle) (t : ParticleTick) (i : Nat) : Option ParticleTick :=
  (turnHost? (advance (t.scope g) t.elapsed t.anchor) p.children i t.surroundings t.host).map
    fun host => { t with host }

def emitterTick? (g : Generator) (p : Particle) (t : ParticleTick) (i : Nat) :
    Option EmitterTick :=
  if (p.movedBatch g t).1.2.isSome then none
  else
    (turnHost? (Emitter.advance (some p.body.worldAnchor) t.elapsed) p.emitters i t.surroundings
      (p.movedBatch g t).2).map fun host => ⟨some p.body.worldAnchor, t.elapsed, t.surroundings, host⟩

def childStands? (g : Generator) (p : Particle) (t : ParticleTick) (i : Nat) : Option Nat :=
  if (p.movedBatch g t).1.2.isSome then some i
  else standing (fun c => !c.isComplete) (p.movedBatch g t).1.1 i

def emitterStands? (g : Generator) (p : Particle) (t : ParticleTick) (i : Nat) : Option Nat :=
  if (p.movedBatch g t).1.2.isSome || (p.movedEmitters g t).1.2.isSome then some i
  else standing (fun e => !e.isExpired) (p.movedEmitters g t).1.1 i

def childAfter (g : Generator) (p : Particle) (t : ParticleTick) (i : Nat) (c : Particle) :
    Particle :=
  match p.childTick? g t i with
  | some u => (c.ticked g u).1.1
  | none => c

def emitterAfter (g : Generator) (p : Particle) (t : ParticleTick) (i : Nat) (e : Emitter) :
    Emitter :=
  match p.emitterTick? g t i with
  | some u => (e.ticked u).1.1
  | none => e

variable {g : Generator} {p : Particle} {t : ParticleTick} {i : Nat}

theorem movedBatch_getElem? {c : Particle} (hc : p.children[i]? = some c) :
    (p.movedBatch g t).1.1[i]? = some (p.childAfter g t i c) := by
  rw [movedBatch, advanceParticles_eq, getElem?_inTurn hc, childAfter, childTick?]
  cases turnHost? _ p.children i t.surroundings t.host <;> rfl

theorem movedEmitters_getElem? {e : Emitter} (he : p.emitters[i]? = some e)
    (hb : (p.movedBatch g t).1.2 = none) :
    (p.movedEmitters g t).1.1[i]? = some (p.emitterAfter g t i e) := by
  rw [movedEmitters, advanceEmitters_eq, getElem?_inTurn he, emitterAfter, emitterTick?, hb,
    if_neg (by simp)]
  cases turnHost? _ p.emitters i t.surroundings (p.movedBatch g t).2 <;> rfl

/-- The particle after a tick, by how far the tick comes. -/
theorem ticked_owned :
    ((p.movedBatch g t).1.2.isSome = true ∧
        (p.ticked g t).1.1 = mk p.body (p.movedBatch g t).1.1 p.emitters) ∨
      ((p.movedBatch g t).1.2 = none ∧ (p.movedEmitters g t).1.2.isSome = true ∧
        (p.ticked g t).1.1 = mk p.body ((p.movedBatch g t).1.1.filter fun c => !c.isComplete)
          (p.movedEmitters g t).1.1) ∨
      ((p.movedBatch g t).1.2 = none ∧ (p.movedEmitters g t).1.2 = none ∧
        (p.settled g t).Closes (p.ticked g t).1.1) := by
  cases hb : (p.movedBatch g t).1.2 with
  | some why =>
    refine .inl ⟨rfl, ?_⟩
    obtain ⟨b, cs, es⟩ := p
    have hb : (advanceParticles (t.scope g) t.elapsed t.anchor cs t.surroundings t.host).1.2 =
      some why := hb
    rw [ticked, advance, Tick.run_bind]
    dsimp only
    rw [hb]
    rfl
  | none =>
    cases he : (p.movedEmitters g t).1.2 with
    | some why =>
      refine .inr (.inl ⟨rfl, rfl, ?_⟩)
      obtain ⟨b, cs, es⟩ := p
      have hb : (advanceParticles (t.scope g) t.elapsed t.anchor cs t.surroundings t.host).1.2 =
        none := hb
      have he : (advanceEmitters (some b.worldAnchor) t.elapsed es t.surroundings
        (advanceParticles (t.scope g) t.elapsed t.anchor cs t.surroundings t.host).2).1.2 =
          some why := he
      rw [ticked, advance, Tick.run_bind]
      dsimp only
      rw [hb, if_neg (by simp), Tick.run_bind, he]
      rfl
    | none =>
      refine .inr (.inr ⟨rfl, rfl, ?_⟩)
      have ho : p.ownedMoved g t = true := by rw [ownedMoved, hb, he]; rfl
      rw [ticked_of_ownedMoved ho]
      exact advanceSelf_closes _ _ _ _ _ _

/-- A sub-particle after a tick: let go because it is complete, or still there. -/
theorem child_fares {c : Particle} (hc : p.children[i]? = some c) :
    Fares Lasts isComplete
      (p.ticked g t).1.1.children (p.childAfter g t i c) (p.childStands? g t i) := by
  have hm := movedBatch_getElem? (g := g) (t := t) hc
  rw [childStands?]
  rcases ticked_owned (g := g) (p := p) (t := t) with ⟨hb, hx⟩ | ⟨hb, -, hx⟩ | ⟨hb, -, hx⟩
  · rw [if_pos hb, hx]
    exact .unmoved hm (.refl Lasts.refl _)
  · rw [hb, if_neg (by simp), hx]
    exact .left hm (.refl Lasts.refl _)
  · rw [hb, if_neg (by simp)]
    refine .left hm ?_
    cases hx with
    | asIs children =>
      rw [children]
      exact .refl Lasts.refl _
    | hushed new children =>
      rw [children]
      exact .map lasts_stopEmitters _

/-- An emitter of a particle after a tick: let go because it has expired, or still there. -/
theorem emitter_fares {e : Emitter} (he : p.emitters[i]? = some e) :
    Fares Emitter.Lasts Emitter.isExpired
      (p.ticked g t).1.1.emitters (p.emitterAfter g t i e) (p.emitterStands? g t i) := by
  rw [emitterStands?]
  rcases ticked_owned (g := g) (p := p) (t := t) with ⟨hb, hx⟩ | ⟨hb, hm, hx⟩ | ⟨hb, hm, hx⟩
  · have hn : p.emitterTick? g t i = none := by rw [emitterTick?, if_pos hb]
    rw [hb, Bool.true_or, if_pos rfl, hx, emitterAfter, hn]
    exact .unmoved he (.refl Emitter.Lasts.refl _)
  · rw [hm, Bool.or_true, if_pos rfl, hx]
    exact .unmoved (movedEmitters_getElem? he hb) (.refl Emitter.Lasts.refl _)
  · rw [hb, hm, if_neg (by simp)]
    refine .left (movedEmitters_getElem? he hb) ?_
    cases hx with
    | asIs _ emitters =>
      rw [emitters]
      exact .refl Emitter.Lasts.refl _
    | hushed new _ emitters =>
      rw [emitters]
      exact (Extends.map Emitter.lasts_stop _).trans (fun _ _ _ => Emitter.Lasts.trans)
        (.append Emitter.Lasts.refl _ new)

/-- What has no turn stays where it is. -/
theorem childStands?_of_none (h : p.childTick? g t i = none) : p.childStands? g t i = some i := by
  have hh := isSome_of_turnHost? (Option.map_eq_none_iff.mp h)
  rw [← advanceParticles_eq] at hh
  exact if_pos hh

theorem emitterStands?_of_none (h : p.emitterTick? g t i = none) :
    p.emitterStands? g t i = some i := by
  rw [emitterTick?] at h
  refine if_pos ?_
  split at h
  next hb => rw [hb, Bool.true_or]
  next hb =>
    have hh := isSome_of_turnHost? (Option.map_eq_none_iff.mp h)
    rw [← advanceEmitters_eq] at hh
    rw [movedEmitters, hh, Bool.or_true]

end Particle

namespace Emitter

def particleTick? (e : Emitter) (t : EmitterTick) (i : Nat) : Option ParticleTick :=
  let u := e.particleTick t
  (turnHost? (Particle.advance (u.scope e.body.definition) t.elapsed u.anchor) e.particles i
    t.surroundings u.host).map fun host => { u with host }

def particleStands? (e : Emitter) (t : EmitterTick) (i : Nat) : Option Nat :=
  if (e.movedParticles t).1.2.isSome then some i
  else standing (fun p => !p.isComplete) (e.movedParticles t).1.1 i

def particleAfter (e : Emitter) (t : EmitterTick) (i : Nat) (p : Particle) : Particle :=
  match e.particleTick? t i with
  | some u => (p.ticked e.body.definition u).1.1
  | none => p

variable {e : Emitter} {t : EmitterTick} {i : Nat}

theorem movedParticles_getElem? {p : Particle} (hp : e.particles[i]? = some p) :
    (e.movedParticles t).1.1[i]? = some (e.particleAfter t i p) := by
  rw [movedParticles, advanceParticles_eq, getElem?_inTurn hp, particleAfter, particleTick?]
  cases turnHost? _ e.particles i t.surroundings (e.particleTick t).host <;> rfl

/-- A particle after a tick of its emitter: let go because it is complete, or still there. -/
theorem particle_fares {p : Particle} (hp : e.particles[i]? = some p) :
    Fares Particle.Lasts Particle.isComplete
      (e.ticked t).1.1.particles (e.particleAfter t i p) (e.particleStands? t i) := by
  have hm := movedParticles_getElem? (t := t) hp
  rw [particleStands?, ticked_eq]
  split
  · exact .unmoved hm (.refl Particle.Lasts.refl _)
  · refine .left hm ?_
    obtain ⟨new, hf⟩ := (finish_emits (e.particleTick t).anchor
      (mk (e.prepared t).1 (e.movedParticles t).1.1) t.elapsed t.surroundings
      (e.movedParticles t).2).2
    rw [← hf]
    exact .append Particle.Lasts.refl _ new

theorem particleStands?_of_none (h : e.particleTick? t i = none) :
    e.particleStands? t i = some i := by
  have hh := isSome_of_turnHost? (Option.map_eq_none_iff.mp h)
  rw [← advanceParticles_eq] at hh
  exact if_pos hh

end Emitter
end EffectMachine
