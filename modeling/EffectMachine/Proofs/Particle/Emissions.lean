import EffectMachine.Proofs.Particle.Births
import Mathlib.Data.List.Forall2

namespace EffectMachine

/-- Nothing faults but a second allocation at one offset. -/
def Refuses (halt : Option Halt) : Prop :=
  ∀ f, halt = some (.fault f) → ∃ o, f = .duplicateAllocation o

theorem refuses_none : Refuses none := by
  intro f hf
  cases hf

theorem refuses_outOfFuel : Refuses (some .outOfFuel) := by
  intro f hf
  cases hf

theorem refuses_duplicate (o : UInt32) : Refuses (some (.fault (.duplicateAllocation o))) := by
  intro f hf
  cases hf
  exact ⟨o, rfl⟩

namespace EmitterBody

variable (e : EmitterBody) (anchor : Anchor)

theorem spawn_spawned : (e.spawn anchor).Always (Particle.Spawned e.definition.atBirth) :=
  .after _ fun maxAge => Particle.spawn_spawned e.scope maxAge anchor

theorem spawn_error : (e.spawn anchor).Always fun x =>
    ∀ f, x = .error f → ∃ o, f = .duplicateAllocation o := by
  refine (e.spawn_spawned anchor).mono fun x hx f hf => ?_
  subst hf
  generalize e.definition.atBirth = v at hx
  cases hx with
  | refused o => exact ⟨o, rfl⟩

theorem spawnBatch_error (n : Nat) : (e.spawnBatch anchor n).Always fun x =>
    ∀ f, x = .error f → ∃ o, f = .duplicateAllocation o := by
  induction n with
  | zero => exact .pure (by simp)
  | succ n ih =>
    refine .bind (e.spawn_error anchor) fun x hx => ?_
    split
    next f => exact .pure fun f' hf => hx f' (by cases hf; rfl)
    next p =>
      refine .bind ih fun y hy => ?_
      split
      next f => exact .pure fun f' hf => hy f' (by cases hf; rfl)
      next ps => exact .pure (by simp)

end EmitterBody

namespace Emitter

/-- Emission only adds particles behind those that are there. -/
structure Emits (e : Emitter) (x : Emitter × Option Halt) : Prop where
  refuses : Refuses x.2
  particles : e.particles <+: x.1.particles

theorem Emits.unmoved (e : Emitter) {halt : Option Halt} (h : Refuses halt) :
    e.Emits (e, halt) :=
  ⟨h, List.prefix_rfl⟩

theorem Emits.trans {e e' : Emitter} {halt : Option Halt} {x : Emitter × Option Halt}
    (h : e.Emits (e', halt)) (h' : e'.Emits x) : e.Emits x :=
  ⟨h'.refuses, h.particles.trans h'.particles⟩

variable (anchor : Anchor)

/-- One emission faults or puts one more particle at the end. -/
theorem emitOne_emits (e : Emitter) : (e.emitOne anchor).Always e.Emits := by
  obtain ⟨b, ps⟩ := e
  have refused {f : Fault} (hf : ∃ o, f = .duplicateAllocation o) :
      (mk b ps).Emits (mk b ps, some (.fault f)) := by
    obtain ⟨o, rfl⟩ := hf
    exact .unmoved _ (refuses_duplicate o)
  unfold emitOne
  dsimp only
  split
  · refine .bind (b.spawnBatch_error anchor _) fun x hx => ?_
    split
    next f => exact .pure (refused (hx f rfl))
    next cs => exact .pure ⟨refuses_none, List.prefix_append ..⟩
  · refine .bind (b.spawn_error anchor) fun x hx => ?_
    split
    next f => exact .pure (refused (hx f rfl))
    next p => exact .pure ⟨refuses_none, List.prefix_append ..⟩

theorem emit_emits (n : Nat) (e : Emitter) : (e.emit anchor n).Always e.Emits := by
  induction n generalizing e with
  | zero => exact .pure (.unmoved e refuses_none)
  | succ n ih =>
    refine .after _ fun r => ?_
    split
    · exact .pure (.unmoved e refuses_none)
    · refine .bind (e.emitOne_emits anchor) fun x hx => ?_
      split
      · exact (ih _).mono fun _ => hx.trans
      · exact .pure hx

theorem schedule_particles (e : Emitter) :
    e.schedule.Always fun e' => e'.particles = e.particles := by
  obtain ⟨b, ps⟩ := e
  exact .after _ fun _ => .pure rfl

/-- However often it goes round, emission only adds at the end. -/
theorem emitDue_emits (n : Nat) (e : Emitter) : (emitDue anchor n e).Always e.Emits := by
  induction n generalizing e with
  | zero => exact .pure (.unmoved e refuses_outOfFuel)
  | succ n ih =>
    unfold emitDue
    split
    · exact .pure (.unmoved e refuses_none)
    · dsimp only
      split
      · exact .pure (.unmoved e refuses_none)
      · refine .bind (e.emit_emits anchor _) fun x hx => ?_
        split
        · exact .pure hx
        · refine .bind (schedule_particles _) fun e' he => (ih e').mono fun y hy => ?_
          exact ⟨hy.refuses, (he ▸ hx.particles).trans hy.particles⟩

/-- The particles that are not complete stay, in order and before all new ones. -/
theorem finish_emits (e : Emitter) (elapsed : Scalar) :
    (e.finish elapsed anchor).Always fun x => Refuses x.2 ∧
      (e.particles.filter fun p => !p.isComplete) <+: x.1.particles := by
  obtain ⟨b, ps⟩ := e
  unfold finish
  dsimp only
  split
  · refine .after _ fun r => .bind (emitDue_emits anchor _ _) fun x hx => ?_
    obtain ⟨⟨b', ps'⟩, halt⟩ := x
    cases halt with
    | some why => exact .pure ⟨hx.refuses, hx.particles⟩
    | none => exact .pure ⟨refuses_none, hx.particles⟩
  · exact .pure ⟨refuses_none, List.prefix_rfl⟩

end Emitter

mutual

theorem Particle.advance_refuses (scope : SpawnScope) (elapsed : Scalar) (anchor : Anchor) :
    ∀ p : Particle, (p.advance scope elapsed anchor).Always fun x => Refuses x.2
  | .mk body children emitters => by
    unfold Particle.advance
    refine .bind (advanceParticles_refuses scope elapsed anchor children) fun x hx => ?_
    dsimp only
    split
    · exact .pure hx
    · refine .bind (advanceEmitters_refuses _ elapsed emitters) fun y hy => ?_
      split
      · exact .pure hy
      · exact .after _ fun _ => .pure refuses_none

theorem Emitter.advance_refuses (parent : Option Anchor) (elapsed : Scalar) :
    ∀ e : Emitter, (e.advance parent elapsed).Always fun x => Refuses x.2
  | .mk body particles => by
    unfold Emitter.advance
    refine .after _ fun b => ?_
    refine .bind (advanceParticles_refuses _ elapsed _ particles) fun x hx => ?_
    dsimp only
    split
    · exact .pure hx
    · exact (Emitter.finish_emits _ _ elapsed).mono fun _ hy => hy.1

theorem advanceParticles_refuses (scope : SpawnScope) (elapsed : Scalar) (anchor : Anchor) :
    ∀ ps : List Particle, (advanceParticles scope elapsed anchor ps).Always fun x => Refuses x.2
  | [] => .pure refuses_none
  | p :: ps => by
    unfold advanceParticles
    refine .bind (Particle.advance_refuses scope elapsed anchor p) fun x hx => ?_
    dsimp only
    split
    · exact .pure hx
    · exact .bind (advanceParticles_refuses scope elapsed anchor ps) fun y hy => .pure hy

theorem advanceEmitters_refuses (parent : Option Anchor) (elapsed : Scalar) :
    ∀ es : List Emitter, (advanceEmitters parent elapsed es).Always fun x => Refuses x.2
  | [] => .pure refuses_none
  | e :: es => by
    unfold advanceEmitters
    refine .bind (Emitter.advance_refuses parent elapsed e) fun x hx => ?_
    dsimp only
    split
    · exact .pure hx
    · exact .bind (advanceEmitters_refuses parent elapsed es) fun y hy => .pure hy

end

/-- Without a fault every particle of a list moves, in turn. -/
theorem advanceParticles_each (scope : SpawnScope) (elapsed : Scalar) (anchor : Anchor)
    (r : Surroundings) (ps : List Particle) (h : Host)
    (hn : (advanceParticles scope elapsed anchor ps r h).1.2 = none) :
    List.Forall₂ (fun p p' => ∃ h, (p.advance scope elapsed anchor r h).1 = (p', none)) ps
      (advanceParticles scope elapsed anchor ps r h).1.1 := by
  induction ps generalizing h with
  | nil => exact .nil
  | cons p ps ih =>
    unfold advanceParticles at hn ⊢
    rw [Tick.run_bind] at hn ⊢
    generalize hx : p.advance scope elapsed anchor r h = x at hn ⊢
    obtain ⟨⟨p', halt⟩, h'⟩ := x
    cases halt with
    | some why => cases hn
    | none => exact .cons ⟨h, by rw [hx]⟩ (ih h' hn)

end EffectMachine
