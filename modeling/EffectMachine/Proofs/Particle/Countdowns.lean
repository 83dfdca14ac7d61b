import EffectMachine.Proofs.Particle.CatchUp
import EffectMachine.Proofs.Particle.Levels

namespace EffectMachine

/-- From one bound of all countdowns to the next: a tick takes none of them further down, new ones
begin above it, and emission can still climb from the first. -/
structure Deepens (low elapsed low' : Scalar) : Prop where
  counts : -16777216 ≤ low
  fresh : ¬0 < low'
  falls : ∀ x : Scalar, ¬x < low → ¬x - elapsed < low'

/-- The countdown of every emitter of the particle is bounded. -/
def Particle.CountsFrom (low : Scalar) (p : Particle) : Prop :=
  p.Levelled (fun _ b => ¬b.countdown < low) 0

/-- The countdown of the emitter and of every emitter below it are bounded. -/
def Emitter.CountsFrom (low : Scalar) (e : Emitter) : Prop :=
  e.Levelled (fun _ b => ¬b.countdown < low) 0

variable {low elapsed low' : Scalar}

theorem Particle.countsFrom_mk {b : ParticleBody} {cs : List Particle} {es : List Emitter} :
    (mk b cs es).CountsFrom low ↔ (∀ c ∈ cs, c.CountsFrom low) ∧ ∀ e ∈ es, e.CountsFrom low :=
  Particle.levelled_mk (Q := fun _ b => ¬b.countdown < low)

theorem Emitter.countsFrom_mk {b : EmitterBody} {ps : List Particle} :
    (mk b ps).CountsFrom low ↔ ¬b.countdown < low ∧ ∀ p ∈ ps, p.CountsFrom low :=
  Emitter.levelled_mk (Q := fun _ b => ¬b.countdown < low)

def HostOrder.any : HostOrder where
  rel _ _ := True
  refl _ := trivial
  trans _ _ := trivial

theorem HostOrder.any_admits (actors : List ActorId) : any.Admits actors where
  draw _ _ _ := trivial
  note _ _ _ := trivial
  named _ := trivial
  command _ _ _ _ _ := trivial

theorem Deepens.starts (hd : Deepens low elapsed low') (scope : SpawnScope) (r : Surroundings) :
    scope.Starts (fun _ b => ¬b.countdown < low') 0 r .any where
  admits := HostOrder.any_admits []
  deaf _ _ h := h
  started _ _ _ new := new.symm ▸ hd.fresh

/-- More fuel than emission goes rounds, from any countdown where a frame still counts. -/
def Surroundings.IsAmple (r : Surroundings) : Prop := 16777217 < r.fuel

instance (r : Surroundings) : Decidable r.IsAmple := inferInstanceAs (Decidable (_ < _))

theorem Halt.faultless_iff {halt : Option Halt} :
    (∀ f, halt ≠ some (.fault f)) ↔ halt = none ∨ halt = some .outOfFuel := by
  rcases halt with - | f | - <;> simp

/-- Ample fuel is enough, and what is not stopped comes out so. -/
def Endures {α : Type} (r : Surroundings) (P : α → Prop) (x : α × Option Halt) : Prop :=
  (r.IsAmple → x.2 ≠ some .outOfFuel) ∧ (x.2 = none → P x.1)

section Endures

variable {α β : Type} {r : Surroundings} {P : α → Prop} {R : β → Prop}

theorem endures_of_none {a : α} (h : P a) : Endures r P (a, none) := ⟨nofun, fun _ => h⟩

/-- What stops a part of the tick stops the whole. -/
theorem Endures.halted {x : α × Option Halt} {b : β} (h : Endures r P x)
    (hx : x.2.isSome = true) : Endures r R (b, x.2) :=
  ⟨h.1, fun hn => absurd hn (Option.isSome_iff_ne_none.mp hx)⟩

end Endures

section Ticks

variable {r : Surroundings} {anchor : Anchor} (hd : Deepens low elapsed low')
include hd

/-- The rounds of emission leave the countdown where it was or further up. -/
theorem Emitter.emitDue_endures {e : Emitter} (hc : ¬e.body.countdown < low) :
    (emitDue anchor r.fuel e).At r (Endures r fun e => ¬e.body.countdown < low) := by
  obtain ⟨-, number⟩ := Scalar.isNumber_of_le hd.counts
  have counts : e.body.countdown.Counts := fun hlt => hc (Scalar.lt_of_lt_of_le hlt hd.counts)
  have climbs := emitDue_always (P := fun e => ¬e.body.countdown < low) (r := r)
    (fun e x he hx => ?_) anchor r.fuel hc
  · exact fun h => ⟨fun ample hl => absurd (rounds_le_of_counts counts hl) (Nat.not_le.mpr ample),
      fun _ => climbs h⟩
  · cases hx with
    | stopped f fills =>
      obtain ⟨⟨new, rfl⟩, -⟩ := fills.adds
      exact he
    | scheduled variance fills =>
      obtain ⟨⟨new, rfl⟩, -⟩ := fills.adds
      exact Scalar.not_lt_add number he (Scalar.le_trans (by decide) (Scalar.one_le_max _))

/-- The particles of the emitter have moved already. -/
theorem Emitter.finish_endures {b : EmitterBody} {ps : List Particle} (hc : ¬b.countdown < low)
    (hp : ∀ p ∈ ps, p.CountsFrom low') :
    ((mk b ps).finish elapsed anchor).At r (Endures r (CountsFrom low')) := by
  let e := mk b (ps.filter fun p => !p.isComplete)
  have left : e.Rears b.scope (fun _ b => ¬b.countdown < low') 0 :=
    ⟨rfl, fun p h => hp p (List.mem_filter.mp h).1⟩
  have rounds : (emitDue anchor r.fuel e).At r (Endures r fun e => ¬e.body.countdown < low) :=
    emitDue_endures hd hc
  have reared := (emitDue_keeps anchor (hd.starts b.scope r) left r.fuel).at
  unfold finish
  dsimp only
  split
  · refine .read (.bind (rounds.and reared) fun x hx => ?_)
    obtain ⟨⟨b', ps'⟩, halt⟩ := x
    obtain ⟨⟨ample, climbs⟩, -, hps⟩ := hx
    cases halt with
    | some why => exact .pure ⟨ample, nofun⟩
    | none => exact .pure (endures_of_none (countsFrom_mk.mpr ⟨hd.falls _ (climbs rfl), hps⟩))
  · exact .pure (endures_of_none (countsFrom_mk.mpr ⟨hd.falls _ hc, left.levelled⟩))

omit hd

mutual

/-- A tick of a particle: everything that it owns moves within its bounds, and what it starts is
new. -/
theorem Particle.advance_endures (hd : Deepens low elapsed low') (scope : SpawnScope)
    (anchor : Anchor) : ∀ p : Particle, p.CountsFrom low →
      (p.advance scope elapsed anchor).At r (Endures r (Particle.CountsFrom low'))
  | .mk body children emitters, hp => by
    obtain ⟨hc, he⟩ := Particle.countsFrom_mk.mp hp
    unfold Particle.advance
    refine .bind (advanceParticles_endures hd scope anchor children hc) fun x hx => ?_
    dsimp only
    split
    next hs => exact .pure (hx.halted hs)
    next hs =>
      have hcs := hx.2 (Option.not_isSome_iff_eq_none.mp hs)
      refine .bind (advanceEmitters_endures hd _ emitters he) fun y hy => ?_
      split
      next hs => exact .pure (hy.halted hs)
      next hs =>
        have hes := hy.2 (Option.not_isSome_iff_eq_none.mp hs)
        refine .bind (Particle.advanceSelf_keeps elapsed anchor (hd.starts scope r)
          (Particle.countsFrom_mk.mpr ⟨fun c h => hcs c (List.mem_filter.mp h).1,
            fun e h => hes e (List.mem_filter.mp h).1⟩)).at fun z hz => ?_
        exact .pure (endures_of_none hz)

/-- A tick of an emitter ends with its rounds, for which ample fuel is enough. -/
theorem Emitter.advance_endures (hd : Deepens low elapsed low') (parent : Option Anchor) :
    ∀ e : Emitter, e.CountsFrom low →
      (e.advance parent elapsed).At r (Endures r (Emitter.CountsFrom low'))
  | .mk body particles, he => by
    obtain ⟨hc, hp⟩ := Emitter.countsFrom_mk.mp he
    unfold Emitter.advance
    refine .bind (EmitterBody.prepare_sameClock _ elapsed).at fun b hb => ?_
    have hc : ¬b.countdown < low := hb.countdown ▸ hc
    refine .bind (advanceParticles_endures hd _ _ particles hp) fun x hx => ?_
    dsimp only
    split
    next hs => exact .pure (hx.halted hs)
    next hs => exact Emitter.finish_endures hd hc (hx.2 (Option.not_isSome_iff_eq_none.mp hs))

theorem advanceParticles_endures (hd : Deepens low elapsed low') (scope : SpawnScope)
    (anchor : Anchor) : ∀ ps : List Particle, (∀ p ∈ ps, p.CountsFrom low) →
      (advanceParticles scope elapsed anchor ps).At r
        (Endures r fun ps => ∀ p ∈ ps, p.CountsFrom low')
  | [], _ => .pure (endures_of_none (by simp))
  | p :: ps, h => by
    obtain ⟨hp, hps⟩ := List.forall_mem_cons.mp h
    unfold advanceParticles
    refine .bind (Particle.advance_endures hd scope anchor p hp) fun x hx => ?_
    dsimp only
    split
    next hs => exact .pure (hx.halted hs)
    next hs =>
      have here := hx.2 (Option.not_isSome_iff_eq_none.mp hs)
      exact .bind (advanceParticles_endures hd scope anchor ps hps) fun y hy =>
        .pure ⟨hy.1, fun hn => List.forall_mem_cons.mpr ⟨here, hy.2 hn⟩⟩

theorem advanceEmitters_endures (hd : Deepens low elapsed low') (parent : Option Anchor) :
    ∀ es : List Emitter, (∀ e ∈ es, e.CountsFrom low) →
      (advanceEmitters parent elapsed es).At r (Endures r fun es => ∀ e ∈ es, e.CountsFrom low')
  | [], _ => .pure (endures_of_none (by simp))
  | e :: es, h => by
    obtain ⟨he, hes⟩ := List.forall_mem_cons.mp h
    unfold advanceEmitters
    refine .bind (Emitter.advance_endures hd parent e he) fun x hx => ?_
    dsimp only
    split
    next hs => exact .pure (hx.halted hs)
    next hs =>
      have here := hx.2 (Option.not_isSome_iff_eq_none.mp hs)
      exact .bind (advanceEmitters_endures hd parent es hes) fun y hy =>
        .pure ⟨hy.1, fun hn => List.forall_mem_cons.mpr ⟨here, hy.2 hn⟩⟩

end

theorem Emitter.ticked_endures {e : Emitter} {t : EmitterTick}
    (hd : Deepens low t.elapsed low') (hc : e.CountsFrom low) :
    Endures t.surroundings (CountsFrom low') (e.ticked t).1 :=
  Emitter.advance_endures hd t.parent e hc t.host

end Ticks

inductive Deepening : Scalar → List EmitterTick → Prop where
  | nil {low : Scalar} : Deepening low []
  | cons {low low' : Scalar} {t : EmitterTick} {ts : List EmitterTick}
      (first : Deepens low t.elapsed low') (rest : Deepening low' ts) : Deepening low (t :: ts)

/-- From where a frame still counts, ticks of a frame or less take no countdown further down. -/
theorem deepens_unit (h : ¬1 < elapsed) : Deepens (-16777216) elapsed (-16777216) where
  counts := by decide
  fresh := by decide
  falls _ hx := Scalar.Counts.sub hx h

/-- Ticks of whole frames take countdowns down by as many, as long as all are exact. -/
theorem deepens_whole {past n : Nat} (hl : low.IsWhole (-past)) (he : elapsed.IsWhole n)
    (small : past + n ≤ 2 ^ 24) :
    Deepens low elapsed (low - elapsed) ∧ (low - elapsed).IsWhole (-(past + n : Nat)) := by
  have next : (low - elapsed).IsWhole (-(past + n : Nat)) := by
    have hs := hl.sub he (by omega)
    rwa [show (-past - n : Int) = -(past + n : Nat) by omega] at hs
  refine ⟨⟨?_, ?_, fun x hx => ?_⟩, next⟩
  · rw [Scalar.isWhole_depth.le_iff hl]
    omega
  · rw [Scalar.isWhole_zero.lt_iff next]
    omega
  · refine Scalar.not_lt_sub next.finite.ne_nan hx ?_
    rw [he.lt_iff he]
    omega

end EffectMachine
