import EffectMachine.Proofs.Particle.Owned
import EffectMachine.Proofs.Particle.SlotFaults
import Mathlib.Algebra.Order.BigOperators.Group.List
import Mathlib.Algebra.Order.Ring.Nat

namespace EffectMachine

def Generator.batchSize (g : Generator) : Nat :=
  if g.flags.batched then max g.batchSlots.toNat 1 else 1

theorem Generator.one_le_batchSize (g : Generator) : 1 ≤ g.batchSize := by
  unfold batchSize
  split
  · exact Nat.le_max_right ..
  · exact Nat.le_refl 1

namespace Particle

/-- A tick of a particle: its batch does not grow, and keeps what each of it keeps. -/
theorem ticked_children {P : Particle → Prop} {g : Generator}
    (ticks : ∀ c, P c → ∀ t, P (c.ticked g t).1.1) (stops : ∀ c, P c → P c.stopEmitters)
    {p : Particle} (hp : ∀ c ∈ p.children, P c) (t : ParticleTick) :
    (p.ticked g t).1.1.children.length ≤ p.children.length ∧
      ∀ c ∈ (p.ticked g t).1.1.children, P c := by
  have hl : (p.movedBatch g t).1.1.length = p.children.length := by
    rw [movedBatch, advanceParticles_eq]
    exact length_inTurn _ _ _
  have hm : ∀ c ∈ (p.movedBatch g t).1.1, P c := by
    rw [movedBatch, advanceParticles_eq]
    exact inTurn_all (fun c hc r h => ticks c hc { t with surroundings := r, host := h })
      p.children hp _ _
  have left : (p.settled g t).children.length ≤ p.children.length :=
    hl ▸ List.length_filter_le _ _
  have hk : ∀ c ∈ (p.settled g t).children, P c := fun c hc => hm c (List.mem_filter.mp hc).1
  rcases ticked_owned (g := g) (p := p) (t := t) with ⟨-, hx⟩ | ⟨-, -, hx⟩ | ⟨-, -, hx⟩
  · rw [hx]
    exact ⟨Nat.le_of_eq hl, hm⟩
  · rw [hx]
    exact ⟨left, hk⟩
  · cases hx with
    | asIs children =>
      rw [children]
      exact ⟨left, hk⟩
    | hushed new children =>
      rw [children, List.length_map]
      refine ⟨left, fun c hc => ?_⟩
      obtain ⟨d, hd, rfl⟩ := List.mem_map.mp hc
      exact stops d (hk d hd)

structure IsSingle (p : Particle) : Prop where
  carrier : p.body.carrier = false
  children : p.children = []

/-- One particle, or a carrier with what is left of its batch. -/
inductive MadeBy (g : Generator) (p : Particle) : Prop where
  | single (alone : p.IsSingle)
  | batch (batched : g.flags.batched = true) (carrier : p.body.carrier = true)
      (size : p.children.length ≤ g.batchSize) (alone : ∀ c ∈ p.children, c.IsSingle)

theorem IsSingle.stopEmitters {p : Particle} (h : p.IsSingle) : p.stopEmitters.IsSingle := by
  obtain ⟨b, cs, es⟩ := p
  obtain rfl : cs = [] := h.children
  rw [Particle.stopEmitters]
  exact ⟨h.carrier, rfl⟩

/-- No tick gives a particle a batch or makes it a carrier. -/
theorem IsSingle.ticked {p : Particle} (h : p.IsSingle) (g : Generator) (t : ParticleTick) :
    (p.ticked g t).1.1.IsSingle := by
  have none : ∀ c ∈ p.children, False := by simp [h.children]
  have hx := ticked_children (P := fun _ => False) (g := g) (fun _ hc => hc.elim) (fun _ hc => hc)
    none t
  exact ⟨(p.ticked_faults g t).2.1.trans h.carrier, List.eq_nil_iff_forall_not_mem.mpr hx.2⟩

variable {g : Generator} {p : Particle}

theorem MadeBy.stopEmitters (h : p.MadeBy g) : p.stopEmitters.MadeBy g := by
  cases h with
  | single alone => exact .single alone.stopEmitters
  | batch batched carrier size alone =>
    obtain ⟨b, cs, es⟩ := p
    rw [Particle.stopEmitters, stopInParticles_eq_map]
    refine .batch batched carrier (by simpa using size) fun c hc => ?_
    obtain ⟨d, hd, rfl⟩ := List.mem_map.mp hc
    exact (alone d hd).stopEmitters

/-- What an emission has made stays one particle or one batch, however often it moves. -/
theorem MadeBy.ticked (h : p.MadeBy g) (t : ParticleTick) : (p.ticked g t).1.1.MadeBy g := by
  cases h with
  | single alone => exact .single (alone.ticked g t)
  | batch batched carrier size alone =>
    obtain ⟨hl, hc⟩ := ticked_children (fun c hc => hc.ticked g) (fun c hc => hc.stopEmitters)
      alone t
    exact .batch batched ((p.ticked_faults g t).2.1.trans carrier) (Nat.le_trans hl size) hc

/-- A particle that is made comes without a batch. -/
theorem spawn_single (scope : SpawnScope) (maxAge : Scalar) (anchor : Anchor) :
    (spawn scope maxAge anchor).Always fun x => ∀ p, x = .ok p → p.IsSingle := by
  have childless : (spawn scope maxAge anchor).Always fun x => ∀ p, x = .ok p → p.children = [] := by
    unfold spawn
    refine .after _ fun birth => ?_
    split
    · refine .bind (startOwned_adds scope _ _) fun p hp => .pure fun q hq => ?_
      obtain ⟨sounds, emitters, rfl⟩ := hp
      cases hq
      rfl
    · refine .after _ fun body => .pure fun q hq => ?_
      cases hq
      rfl
    · exact .pure fun q hq => nomatch hq
  intro r h p hp
  refine ⟨?_, childless r h p hp⟩
  have hs := spawn_spawned scope maxAge anchor r h
  rw [hp] at hs
  generalize scope.definition.atBirth = v at hs
  cases hs with
  | whole _ _ _ _ single => exact single
  | stillborn _ _ _ single => exact single

/-- The particle and its batch hold no more live ones than one emission makes. -/
theorem MadeBy.live_le (h : p.MadeBy g) : (p :: p.children).countP isLive ≤ g.batchSize := by
  cases h with
  | single alone =>
    rw [alone.children]
    exact Nat.le_trans List.countP_le_length g.one_le_batchSize
  | batch batched carrier size alone =>
    rw [List.countP_cons_of_neg (by simp [isLive, carrier])]
    exact Nat.le_trans List.countP_le_length size

end Particle

namespace EmitterBody

theorem spawn_single (e : EmitterBody) (anchor : Anchor) :
    (e.spawn anchor).Always fun x => ∀ p, x = .ok p → p.IsSingle :=
  .after _ fun maxAge => Particle.spawn_single e.scope maxAge anchor

/-- A batch has as many particles as were asked for, each without a batch of its own. -/
theorem spawnBatch_single (e : EmitterBody) (anchor : Anchor) (n : Nat) :
    (e.spawnBatch anchor n).Always fun x =>
      ∀ ps, x = .ok ps → ps.length = n ∧ ∀ p ∈ ps, p.IsSingle := by
  induction n with
  | zero =>
    refine .pure fun ps hp => ?_
    cases hp
    exact ⟨rfl, by simp⟩
  | succ n ih =>
    refine .bind (e.spawn_single anchor) fun x hx => ?_
    split
    next => exact .pure fun ps hp => nomatch hp
    next p =>
      refine .bind ih fun y hy => ?_
      split
      next => exact .pure fun ps hp => nomatch hp
      next ps =>
        refine .pure fun qs hq => ?_
        cases hq
        obtain ⟨hl, hs⟩ := hy ps rfl
        exact ⟨congrArg Nat.succ hl, List.forall_mem_cons.mpr ⟨hx p rfl, hs⟩⟩

end EmitterBody

namespace Emitter

/-- An emitter of a generator holds no more than so many particles, each as the generator makes
them. -/
structure Within (g : Generator) (cap : Nat) (e : Emitter) : Prop where
  definition : e.body.definition = g
  size : e.particles.length ≤ cap
  made : ∀ p ∈ e.particles, p.MadeBy g

variable {g : Generator} {cap : Nat} {e : Emitter}

theorem within_ofBody (b : EmitterBody) (cap : Nat) : (ofBody b).Within b.definition cap :=
  ⟨rfl, Nat.zero_le cap, by simp [ofBody]⟩

/-- A stop leaves an emitter within its cap. -/
theorem Within.stop (h : e.Within g cap) : e.stop.Within g cap := by
  obtain ⟨b, ps⟩ := e
  rw [Emitter.stop, stopInParticles_eq_map]
  refine ⟨h.definition, by simpa using h.size, fun p hp => ?_⟩
  obtain ⟨q, hq, rfl⟩ := List.mem_map.mp hp
  exact (h.made q hq).stopEmitters

/-- One more particle, where there is room. -/
theorem Within.concat {b b' : EmitterBody} {ps : List Particle} {p : Particle}
    (h : (Emitter.mk b ps).Within g cap) (hb : b'.definition = b.definition) (room : ps.length < cap)
    (hp : p.MadeBy g) : (Emitter.mk b' (ps ++ [p])).Within g cap where
  definition := hb.trans h.definition
  size := by
    rw [Emitter.particles_mk, List.length_append]
    exact room
  made q hq := by
    rcases List.mem_append.mp hq with hq | hq
    · exact h.made q hq
    · rw [List.mem_singleton.mp hq]
      exact hp

/-- One emission where there is room adds one particle, or one carrier with a whole batch. -/
theorem emitOne_within (anchor : Anchor) (h : e.Within g cap) (room : e.particles.length < cap) :
    (e.emitOne anchor).Always fun x => x.1.Within g cap := by
  obtain ⟨b, ps⟩ := e
  obtain rfl : b.definition = g := h.definition
  unfold emitOne
  dsimp only
  split
  next hb =>
    refine .bind (b.spawnBatch_single anchor _) fun x hx => ?_
    split
    next => exact .pure h
    next cs =>
      obtain ⟨hl, hs⟩ := hx cs rfl
      refine .pure (h.concat rfl room (.batch hb rfl (Nat.le_of_eq ?_) hs))
      rw [Generator.batchSize, if_pos hb]
      exact hl
  next =>
    refine .bind (b.spawn_single anchor) fun x hx => ?_
    split
    next => exact .pure h
    next p => exact .pure (h.concat rfl room (.single (hx p rfl)))

variable {r : Surroundings} (hc : r.config.maxParticles ≤ cap)
include hc

/-- Emission stops at the cap, and each particle that it adds is as the generator makes them. -/
theorem emit_within (anchor : Anchor) (n : Nat) (h : e.Within g cap) :
    (e.emit anchor n).At r fun x => x.1.Within g cap := by
  induction n generalizing e with
  | zero => exact .pure h
  | succ n ih =>
    refine .read ?_
    split
    · exact .pure h
    next hr =>
      have room : e.particles.length < cap := by
        simp only [hasRoom, Bool.not_eq_true', Bool.not_eq_false, Bool.and_eq_true,
          decide_eq_true_eq] at hr
        exact Nat.lt_of_lt_of_le hr.2 hc
      refine .bind (emitOne_within anchor h room).at fun x hx => ?_
      split
      · exact ih hx
      · exact .pure hx

/-- After every round of a tick that catches up, the cap holds. -/
theorem emitDue_within (anchor : Anchor) (n : Nat) (h : e.Within g cap) :
    (emitDue anchor n e).At r fun x => x.1.Within g cap := by
  induction n generalizing e with
  | zero => exact .pure h
  | succ n ih =>
    unfold emitDue
    split
    · exact .pure h
    · dsimp only
      split
      · exact .pure h
      · refine .bind (emit_within hc anchor _ h) fun x hx => ?_
        split
        · exact .pure hx
        next e' =>
          obtain ⟨b, ps⟩ := e'
          refine .bind (P := fun e : Emitter => e.Within g cap) ?_ fun e he => ih he
          exact .after _ fun variance => .pure ⟨hx.definition, hx.size, hx.made⟩

theorem finish_within (elapsed : Scalar) (anchor : Anchor) (h : e.Within g cap) :
    (e.finish elapsed anchor).At r fun x => x.1.Within g cap := by
  obtain ⟨b, ps⟩ := e
  have left : (mk b (ps.filter fun p => !p.isComplete)).Within g cap :=
    ⟨h.definition, Nat.le_trans (List.length_filter_le _ _) h.size,
      fun p hp => h.made p (List.mem_filter.mp hp).1⟩
  unfold finish
  dsimp only
  split
  · refine .read (.bind (emitDue_within hc anchor _ left) fun x hx => ?_)
    obtain ⟨⟨b', ps'⟩, halt⟩ := x
    cases halt with
    | some why => exact .pure hx
    | none => exact .pure ⟨hx.definition, hx.size, hx.made⟩
  · exact .pure ⟨left.definition, left.size, left.made⟩

omit hc

theorem ticked_within (t : EmitterTick) (hc : t.surroundings.config.maxParticles ≤ cap)
    (h : e.Within g cap) : (e.ticked t).1.1.Within g cap := by
  have moved : (mk (e.prepared t).1 (e.movedParticles t).1.1).Within g cap := by
    refine ⟨(e.prepared_keeps t).definition.trans h.definition, ?_, ?_⟩
    · rw [particles_mk, movedParticles, advanceParticles_eq, length_inTurn]
      exact h.size
    · rw [particles_mk, movedParticles, advanceParticles_eq, ← h.definition]
      refine inTurn_all (fun p hp r host => ?_) e.particles (h.definition ▸ h.made) _ _
      exact hp.ticked { e.particleTick t with surroundings := r, host }
  rw [ticked_eq]
  split
  · exact moved
  · exact finish_within hc _ _ moved _

/-- By induction on the run. -/
theorem after_within (hs : List Happening)
    (hc : ∀ t, .tick t ∈ hs → t.surroundings.config.maxParticles ≤ cap) (h : e.Within g cap) :
    (e.after hs).Within g cap := by
  induction hs generalizing e with
  | nil => exact h
  | cons x hs ih =>
    have rest : ∀ t, .tick t ∈ hs → t.surroundings.config.maxParticles ≤ cap :=
      fun t ht => hc t (List.mem_cons_of_mem _ ht)
    cases x with
    | tick t => exact ih rest (ticked_within t (hc t List.mem_cons_self) h)
    | stop => exact ih rest h.stop

def members (e : Emitter) : List Particle := e.particles.flatMap fun p => p :: p.children

def liveMembers (e : Emitter) : Nat := e.members.countP Particle.isLive

theorem Within.live_le (h : e.Within g cap) : e.liveMembers ≤ cap * g.batchSize := by
  rw [liveMembers, members, List.countP_flatMap]
  refine Nat.le_trans (List.sum_le_card_nsmul _ g.batchSize fun n hn => ?_) ?_
  · obtain ⟨p, hp, rfl⟩ := List.mem_map.mp hn
    exact (h.made p hp).live_le
  · rw [List.length_map, nsmul_eq_mul]
    exact Nat.mul_le_mul_right _ h.size

theorem Within.alone (h : e.Within g cap) : ∀ p ∈ e.particles, ∀ c ∈ p.children, c.IsSingle := by
  intro p hp c hc
  cases h.made p hp with
  | single alone =>
    rw [alone.children] at hc
    cases hc
  | batch _ _ _ alone => exact alone c hc

/-- At any time in the life of an emitter it holds no more particles than the cap, carriers among
them, and a batch has no batches of its own. The live ones are at most so many batches; so they keep
to the cap wherever a batch is one particle. -/
theorem live_members_le (b : EmitterBody) (cap : Nat) (hs : List Happening)
    (hc : ∀ t, .tick t ∈ hs → t.surroundings.config.maxParticles ≤ cap) :
    let e := (ofBody b).after hs
    e.particles.length ≤ cap ∧ (∀ p ∈ e.particles, ∀ c ∈ p.children, c.IsSingle) ∧
      e.liveMembers ≤ cap * b.definition.batchSize ∧
      (b.definition.batchSize = 1 → e.liveMembers ≤ cap) := by
  have h := after_within hs hc (within_ofBody b cap)
  refine ⟨h.size, h.alone, h.live_le, fun hb => ?_⟩
  have hl := h.live_le
  rwa [hb, Nat.mul_one] at hl

end Emitter

def Surroundings.capped (cap : Nat) : Surroundings := { bare with config := { maxParticles := cap } }

def EmitterTick.capped (cap : Nat) : EmitterTick := ⟨none, 1, .capped cap, .fresh⟩

def Generator.twins : Generator :=
  { Generator.plain [] [] with flags := { batched := true }, batchSlots := 2 }

namespace Emitter

theorem lone_keeps_to_cap :
    ((ofBody (.fresh (.plain [] []) .weather)).after
      [.tick (.capped 1), .stop, .tick (.capped 1)]).liveMembers = 1 := by
  refine Nat.le_antisymm ?_ (by decide +kernel)
  refine (live_members_le _ 1 _ fun t ht => ?_).2.2.2 rfl
  simp only [List.mem_cons, List.not_mem_nil, or_false, reduceCtorEq, false_or, or_self,
    Happening.tick.injEq] at ht
  exact Nat.le_of_eq (congrArg (fun t => t.surroundings.config.maxParticles) ht)

/-- A cap of one particle, and two live ones. -/
theorem twins_exceed_cap :
    (EmitterTick.capped 1).surroundings.config.maxParticles = 1 ∧
      ((ofBody (.fresh .twins .weather)).after [.tick (.capped 1)]).liveMembers = 2 := by
  decide +kernel

end Emitter
end EffectMachine
