import EffectMachine.Proofs.Particle.Emissions
import EffectMachine.Proofs.Particle.Emitters
import EffectMachine.Proofs.Particle.SlotFaults

namespace EffectMachine

namespace Particle

variable {g : Generator} {p q : Particle} {t : ParticleTick}

def grown (g : Generator) (p : Particle) (t : ParticleTick) : Particle × Host :=
  (if (p.settled g t).isExpired then pure ((p.settled g t).hearing (p.movedEmitters g t).2)
    else ((p.settled g t).hearing (p.movedEmitters g t).2).growSelf g t.elapsed t.anchor)
    t.surroundings (p.movedEmitters g t).2

/-- What the end of a tick makes of a particle that a fault has ended. -/
def laidOut (p : Particle) : Particle :=
  let q := p.stopEmitters
  if p.body.expirationHandled then p
  else mk { q.body with expirationHandled := true } q.children q.emitters

theorem isExpired_of_forced (h : p.body.forcedExpired = true) : p.isExpired = true := by
  rw [isExpired, h, Bool.true_or]

/-- Without a handler: nothing is drawn, told or started. -/
theorem endTick_of_forced (h : p.body.forcedExpired = true) (scope : SpawnScope) :
    p.endTick scope = pure p.laidOut := by
  rw [endTick, isExpired_of_forced h, laidOut]
  obtain ⟨b, cs, es⟩ := p
  have hf : b.forcedExpired = true := h
  cases hh : b.expirationHandled with
  | true => simp [hh]
  | false =>
    simp only [body_mk, hh, Bool.not_false, Bool.and_self, if_true, Bool.false_eq_true, if_false]
    rw [stopEmitters, expire]
    simp only [hf, if_true, body_mk, children_mk, emitters_mk]

/-- Without anything of its own to move, a particle that is no carrier grows and comes to the end of
its tick. -/
theorem ticked_of_single (ho : p.ownedMoved g t = true) (hc : p.body.carrier = false) :
    p.ticked g t =
      let x := (p.grown g t).1.endTick (t.scope g) t.surroundings (p.grown g t).2
      ((x.1, none), x.2) := by
  have hc : (p.settled g t).body.carrier = false := hc
  rw [ticked_of_ownedMoved ho, advanceSelf_eq, hc, if_neg Bool.false_ne_true, Tick.run_bind]
  rfl

/-- What a tick leaves of a particle that is ended by a fault in it or before. -/
theorem ticked_of_forced (ho : p.ownedMoved g t = true) (hc : p.body.carrier = false)
    (hf : (p.ticked g t).1.1.body.forcedExpired = true) :
    (p.grown g t).1.body.forcedExpired = true ∧
      p.ticked g t = (((p.grown g t).1.laidOut, none), (p.grown g t).2) := by
  have hx := ticked_of_single ho hc
  have hs := (p.grown g t).1.endTick_steady (t.scope g) t.surroundings (p.grown g t).2
  have hg : (p.grown g t).1.body.forcedExpired = true := by
    rw [← hs.forcedExpired]
    rw [hx] at hf
    exact hf
  refine ⟨hg, ?_⟩
  rw [hx, endTick_of_forced hg]
  rfl

/-- Of itself a particle that a fault has ended does nothing: its tick moves what it owns. -/
theorem ticked_of_ended (ho : p.ownedMoved g t = true) (hc : p.body.carrier = false)
    (hf : p.body.forcedExpired = true) :
    p.ticked g t = ((((p.settled g t).hearing (p.movedEmitters g t).2).laidOut, none),
      (p.movedEmitters g t).2) := by
  have hx : (p.settled g t).isExpired = true := isExpired_of_forced hf
  have hg : p.grown g t =
      ((p.settled g t).hearing (p.movedEmitters g t).2, (p.movedEmitters g t).2) := by
    rw [grown, if_pos hx]
    rfl
  have hq : ((p.settled g t).hearing (p.movedEmitters g t).2).body.forcedExpired = true := hf
  rw [ticked_of_single ho hc, hg]
  dsimp only
  rw [endTick_of_forced hq]
  rfl

/-- A particle that a fault has ended goes on, and nothing has come to it. -/
structure Fades (p q : Particle) : Prop where
  forcedExpired : q.body.forcedExpired = true
  carrier : q.body.carrier = p.body.carrier
  sounds : q.body.sounds.Sublist p.body.sounds
  emitters : q.emitters.length ≤ p.emitters.length

theorem Fades.trans {p q r : Particle} (h : p.Fades q) (h' : q.Fades r) : p.Fades r :=
  ⟨h'.forcedExpired, h'.carrier.trans h.carrier, h'.sounds.trans h.sounds,
    Nat.le_trans h'.emitters h.emitters⟩

theorem fades_stopEmitters (hf : p.body.forcedExpired = true) : p.Fades p.stopEmitters := by
  obtain ⟨b, cs, es⟩ := p
  rw [stopEmitters]
  refine ⟨hf, rfl, .refl _, Nat.le_of_eq ?_⟩
  rw [emitters_mk, emitters_mk, stopEmitters_eq_map, List.length_map]

theorem fades_laidOut (hf : p.body.forcedExpired = true) : p.Fades p.laidOut := by
  have hs := fades_stopEmitters hf
  rw [laidOut]
  dsimp only
  split
  · exact ⟨hf, rfl, .refl _, Nat.le_refl _⟩
  · exact ⟨hs.forcedExpired, hs.carrier, hs.sounds, hs.emitters⟩

theorem isComplete_laidOut (hf : p.body.forcedExpired = true) :
    p.laidOut.isComplete = true ↔
      p.laidOut.children = [] ∧ p.laidOut.emitters = [] ∧ p.laidOut.body.sounds = [] := by
  have hl := isExpired_of_forced (fades_laidOut hf).forcedExpired
  have hh : p.laidOut.body.expirationHandled = true := by
    rw [laidOut]
    split
    · assumption
    · rfl
  simp [isComplete, hl, hh, and_assoc]

/-- The tick that finds all that it owns at an end completes a particle that a fault has ended. -/
theorem isComplete_ticked (ho : p.ownedMoved g t = true) (hc : p.body.carrier = false)
    (hf : (p.ticked g t).1.1.body.forcedExpired = true) :
    (p.ticked g t).1.1.isComplete = true ↔ (p.ticked g t).1.1.children = [] ∧
      (p.ticked g t).1.1.emitters = [] ∧ (p.ticked g t).1.1.body.sounds = [] := by
  obtain ⟨hg, hx⟩ := ticked_of_forced ho hc hf
  rw [hx]
  exact isComplete_laidOut hg

theorem fades_settled (hf : p.body.forcedExpired = true) (h : Host) :
    p.Fades ((p.settled g t).hearing h) := by
  refine ⟨hf, rfl, List.filter_sublist, ?_⟩
  have hl := length_advanceEmitters (some p.body.worldAnchor) t.elapsed p.emitters t.surroundings
    (p.movedBatch g t).2
  exact Nat.le_trans (List.length_filter_le _ _) (Nat.le_of_eq hl)

theorem ticked_fades (hf : p.body.forcedExpired = true) : p.Fades (p.ticked g t).1.1 := by
  cases ho : p.ownedMoved g t with
  | false =>
    obtain ⟨hb, he, _⟩ := ticked_of_not_ownedMoved ho
    refine ⟨by rw [hb, hf], by rw [hb], by rw [hb], Nat.le_of_eq he⟩
  | true =>
    have hs := fades_settled (g := g) (t := t) hf (p.movedEmitters g t).2
    rw [ticked_of_ownedMoved ho, advanceSelf_eq]
    split
    · exact hs
    · have hx : (p.settled g t).isExpired = true := isExpired_of_forced hf
      rw [if_pos hx, Tick.run_bind, Tick.run_pure, endTick_of_forced hs.forcedExpired]
      exact hs.trans (fades_laidOut hs.forcedExpired)

/-- By induction on the run. -/
theorem after_fades (hs : List Happening) (hf : p.body.forcedExpired = true) :
    p.Fades (p.after g hs) := by
  induction hs generalizing p with
  | nil => exact ⟨hf, rfl, .refl _, Nat.le_refl _⟩
  | cons x hs ih =>
    cases x with
    | tick t =>
      have hx : p.Fades (p.ticked g t).1.1 := ticked_fades hf
      exact hx.trans (ih hx.forcedExpired)
    | hush =>
      have hx := fades_stopEmitters hf
      exact hx.trans (ih hx.forcedExpired)

/-- What holds of a particle from the fault on that has ended it, whatever happens to it: no updater
and no handler of it runs, nothing comes to it, and the first tick that finds all it owns at an end
completes it. -/
structure Ended (g : Generator) (p : Particle) : Prop where
  fades : ∀ hs, p.Fades (p.after g hs)
  passes : ∀ hs, p.passes g hs = []
  rests : ∀ hs t, let q := p.after g hs
    q.ownedMoved g t = true → q.ticked g t =
      ((((q.settled g t).hearing (q.movedEmitters g t).2).laidOut, none), (q.movedEmitters g t).2)
  completes : ∀ hs t, (p.after g hs).ownedMoved g t = true →
    let q := ((p.after g hs).ticked g t).1.1
    (q.isComplete = true ↔ q.children = [] ∧ q.emitters = [] ∧ q.body.sounds = [])

theorem ended_of_forced (g : Generator) (hf : p.body.forcedExpired = true)
    (hc : p.body.carrier = false) : p.Ended g where
  fades hs := after_fades hs hf
  passes hs := (after_of_expired hs hf).2
  rests hs t ho := by
    have hx := after_fades (g := g) hs hf
    exact ticked_of_ended ho (hx.carrier.trans hc) hx.forcedExpired
  completes hs t ho := by
    have hx := after_fades (g := g) hs hf
    exact isComplete_ticked ho (hx.carrier.trans hc) (ticked_fades hx.forcedExpired).forcedExpired

/-- What was stillborn goes with its first tick. -/
theorem isComplete_of_stillborn (hf : p.body.forcedExpired = true) (hc : p.body.carrier = false)
    (hs : p.body.sounds = []) (hchildren : p.children = []) (hemitters : p.emitters = []) :
    (p.ticked g t).1.2 = none ∧ (p.ticked g t).1.1.isComplete = true := by
  obtain ⟨b, cs, es⟩ := p
  obtain rfl : cs = [] := hchildren
  obtain rfl : es = [] := hemitters
  have hb : (mk b [] []).movedBatch g t = (([], none), t.host) := by
    rw [movedBatch, children_mk, advanceParticles]
    rfl
  have he : (mk b [] []).movedEmitters g t = (([], none), t.host) := by
    rw [movedEmitters, emitters_mk, advanceEmitters, hb]
    rfl
  have ho : (mk b [] []).ownedMoved g t = true := by
    rw [ownedMoved, hb, he]
    rfl
  have hq : ((mk b [] []).settled g t).hearing t.host = mk b [] [] := by
    obtain ⟨⟩ := b
    cases hs
    rw [settled, hb, he]
    rfl
  rw [ticked_of_ended ho hc hf, he, hq]
  refine ⟨rfl, (isComplete_laidOut hf).mpr ?_⟩
  rw [laidOut]
  split
  · exact ⟨rfl, rfl, hs⟩
  · rw [stopEmitters]
    exact ⟨rfl, rfl, hs⟩

end Particle

/-- Each of some particles has had a tick of its own, in turn and without a fault. -/
def EachTicked (g : Generator) (elapsed : Scalar) (r : Surroundings) : List Particle →
    List Particle → Prop :=
  List.Forall₂ fun p q => ∃ t : ParticleTick, t.elapsed = elapsed ∧ t.surroundings = r ∧
    (p.ticked g t).1 = (q, none)

theorem eachTicked_of_advance (t : ParticleTick) (g : Generator) (ps : List Particle) (h : Host)
    (hn : (advanceParticles (t.scope g) t.elapsed t.anchor ps t.surroundings h).1.2 = none) :
    EachTicked g t.elapsed t.surroundings ps
      (advanceParticles (t.scope g) t.elapsed t.anchor ps t.surroundings h).1.1 :=
  (advanceParticles_each _ _ _ _ ps h hn).imp fun _ _ ⟨h, hp⟩ =>
    ⟨{ t with host := h }, rfl, rfl, hp⟩

/-- A batch goes on without those of it that are complete. -/
theorem Particle.batch_carriesOn {g : Generator} {p : Particle} {t : ParticleTick}
    (hc : p.body.carrier = true) (hn : (p.ticked g t).1.2 = none) :
    ∃ moved, EachTicked g t.elapsed t.surroundings p.children moved ∧
      (p.ticked g t).1.1.children = moved.filter fun c => !c.isComplete := by
  cases ho : p.ownedMoved g t with
  | false => exact absurd hn (ticked_of_not_ownedMoved ho).2.2
  | true =>
    have hm := Option.isNone_iff_eq_none.mp (Bool.and_eq_true_iff.mp ho).1
    refine ⟨_, eachTicked_of_advance t g p.children t.host hm, ?_⟩
    have hs : (p.settled g t).body.carrier = true := hc
    rw [ticked_of_ownedMoved ho, advanceSelf_eq, hs, if_pos rfl]
    rfl

namespace Emitter

/-- A tick that has moved each particle of an emitter, let go of those that are complete and kept
the others, in order and before the new ones. -/
def CarriesOn (e : Emitter) (elapsed : Scalar) (r : Surroundings) (e' : Emitter) : Prop :=
  ∃ moved, EachTicked e.body.definition elapsed r e.particles moved ∧
    (moved.filter fun p => !p.isComplete) <+: e'.particles

/-- A tick of an emitter that comes back without a fault has moved each of its particles. -/
theorem advance_carriesOn (parent : Option Anchor) (elapsed : Scalar) (e : Emitter)
    (r : Surroundings) (h : Host) (hn : (e.advance parent elapsed r h).1.2 = none) :
    e.CarriesOn elapsed r (e.advance parent elapsed r h).1.1 := by
  let t : EmitterTick := ⟨parent, elapsed, r, h⟩
  change (e.ticked t).1.2 = none at hn
  change e.CarriesOn elapsed r (e.ticked t).1.1
  rw [ticked_eq] at hn ⊢
  split at hn
  next hm =>
    rw [hn] at hm
    cases hm
  next hm =>
    rw [if_neg hm]
    have hf := finish_emits (e.particleTick t).anchor (mk (e.prepared t).1 (e.movedParticles t).1.1)
      elapsed r (e.movedParticles t).2
    exact ⟨_, eachTicked_of_advance (e.particleTick t) e.body.definition e.particles _
      (Option.not_isSome_iff_eq_none.mp hm), hf.2⟩

end Emitter
end EffectMachine
