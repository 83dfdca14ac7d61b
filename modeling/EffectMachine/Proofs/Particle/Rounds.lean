import EffectMachine.Proofs.Particle.Caps

namespace EffectMachine.Emitter

/-- The emitter with more particles, each of them one emission. -/
def adding (e : Emitter) (new : List Particle) : Emitter :=
  let made := new.length * e.body.definition.batchSize
  mk { e.body with emitted := e.body.emitted + UInt32.ofNat made } (e.particles ++ new)

@[simp] theorem particles_adding (e : Emitter) (new : List Particle) :
    (e.adding new).particles = e.particles ++ new := rfl

@[simp] theorem emitted_adding (e : Emitter) (new : List Particle) :
    (e.adding new).body.emitted =
      e.body.emitted + UInt32.ofNat (new.length * e.body.definition.batchSize) := rfl

@[simp] theorem adding_nil (e : Emitter) : e.adding [] = e := by
  obtain ⟨b, ps⟩ := e
  simp [adding]

theorem adding_adding (e : Emitter) (new new' : List Particle) :
    (e.adding new).adding new' = e.adding (new ++ new') := by
  simp [adding, Nat.add_mul, UInt32.ofNat_add, UInt32.add_assoc]

inductive EmitsOne (e : Emitter) : Emitter × Option Halt → Prop where
  | refused (f : Fault) : e.EmitsOne (e, some (.fault f))
  | made (p : Particle) : e.EmitsOne (e.adding [p], none)

/-- An emission is refused by the first particle that is, or adds all that it makes as one. -/
theorem emitOne_emitsOne (e : Emitter) (anchor : Anchor) :
    (e.emitOne anchor).Always e.EmitsOne := by
  obtain ⟨b, ps⟩ := e
  have made {size : Nat} (p : Particle) (hs : b.definition.batchSize = size) :
      (mk b ps).EmitsOne (mk { b with emitted := b.emitted + UInt32.ofNat size } (ps ++ [p]), none) := by
    rw [← hs, ← Nat.one_mul b.definition.batchSize]
    exact .made p
  unfold emitOne
  dsimp only
  split
  next hb =>
    refine .after _ fun x => ?_
    split
    next f => exact .pure (.refused f)
    next cs => exact .pure (made _ (if_pos hb))
  next hb =>
    refine .after _ fun x => ?_
    split
    next f => exact .pure (.refused f)
    next p => exact .pure (made p (if_neg hb))

/-- An emission of up to so many particles: it ends at that number, at the first that there is no
room for, or at a fault. -/
inductive Fills (config : Config) : Nat → Emitter → Emitter × Option Halt → Prop where
  | enough (e : Emitter) : Fills config 0 e (e, none)
  | full {n : Nat} {e : Emitter} (full : e.hasRoom config = false) :
      Fills config (n + 1) e (e, none)
  | refused {n : Nat} {e : Emitter} (f : Fault) (room : e.hasRoom config = true) :
      Fills config (n + 1) e (e, some (.fault f))
  | made {n : Nat} {e : Emitter} {x : Emitter × Option Halt} (p : Particle)
      (room : e.hasRoom config = true) (rest : Fills config n (e.adding [p]) x) :
      Fills config (n + 1) e x

theorem emit_fills (anchor : Anchor) (r : Surroundings) (n : Nat) (e : Emitter) :
    (e.emit anchor n).At r (Fills r.config n e) := by
  induction n generalizing e with
  | zero => exact .pure (.enough e)
  | succ n ih =>
    refine .read ?_
    split
    next hr => exact .pure (.full (by simpa using hr))
    next hr =>
      have room : e.hasRoom r.config = true := by simpa using hr
      refine .bind (e.emitOne_emitsOne anchor).at fun x hx => ?_
      cases hx with
      | refused f => exact .pure (.refused f room)
      | made p => exact (ih _).mono fun x hx => .made p room hx

/-- Emission only adds particles, and stops only at a fault. -/
theorem Fills.adds {config : Config} {n : Nat} {e : Emitter} {x : Emitter × Option Halt}
    (h : Fills config n e x) :
    (∃ new, x.1 = e.adding new) ∧ (x.2 = none ∨ ∃ f, x.2 = some (.fault f)) := by
  induction h with
  | enough e => exact ⟨⟨[], e.adding_nil.symm⟩, .inl rfl⟩
  | full => exact ⟨⟨[], (adding_nil _).symm⟩, .inl rfl⟩
  | refused f => exact ⟨⟨[], (adding_nil _).symm⟩, .inr ⟨f, rfl⟩⟩
  | made p _ _ ih =>
    obtain ⟨⟨new, hx⟩, halt⟩ := ih
    exact ⟨⟨p :: new, hx.trans (adding_adding ..)⟩, halt⟩

def postponed (e : Emitter) (step : Scalar) : Emitter :=
  e.mapBody fun b => { b with countdown := b.countdown + step.max 1 }

/-- Without a variance nothing is drawn. -/
theorem variance_drawn (v : UInt16) :
    (Tick.draw (Draw.variance v)).Always fun variance => v = 0 → variance = 0 := by
  rintro r h rfl
  rfl

theorem schedule_postpones (e : Emitter) :
    e.schedule.Always fun e' => ∃ variance, e' = e.postponed (e.body.interval + variance) ∧
      (e.body.definition.intervalVariance = 0 → variance = 0) := by
  obtain ⟨b, ps⟩ := e
  exact .bind (variance_drawn _) fun variance drawn => .pure ⟨variance, rfl, drawn⟩

/-- Does the emitter go round again? A singleton waits for the particle that is there. -/
def isDue (e : Emitter) : Bool :=
  decide (e.body.countdown ≤ 0) &&
    !(e.body.definition.flags.continuousSingleton && !e.particles.isEmpty)

def round (anchor : Anchor) (e : Emitter) : Tick (Emitter × Option Halt) := do
  match ← e.emit anchor (max e.body.definition.perEmission.toNat 1) with
  | (e, some halt) => return (e, some halt)
  | (e, none) => return (← e.schedule, none)

/-- A round: its emission is stopped by a fault, or the next one is scheduled. -/
inductive GoesRound (config : Config) (e : Emitter) : Emitter × Option Halt → Prop where
  | stopped {e' : Emitter} (f : Fault)
      (fills : Fills config (max e.body.definition.perEmission.toNat 1) e (e', some (.fault f))) :
      e.GoesRound config (e', some (.fault f))
  | scheduled {e' : Emitter} (variance : Scalar)
      (fills : Fills config (max e.body.definition.perEmission.toNat 1) e (e', none))
      (drawn : e.body.definition.intervalVariance = 0 → variance = 0) :
      e.GoesRound config (e'.postponed (e.body.interval + variance), none)

/-- Each round of the loop is stopped by a fault or schedules the next. -/
theorem round_goesRound (anchor : Anchor) (r : Surroundings) (e : Emitter) :
    (e.round anchor).At r (e.GoesRound r.config) := by
  refine .bind (emit_fills anchor r _ e) fun x fills => ?_
  obtain ⟨⟨new, hn⟩, halt⟩ := fills.adds
  obtain ⟨e', halt'⟩ := x
  rcases halt with rfl | ⟨f, rfl⟩
  · refine .bind (schedule_postpones e').at fun e'' he => .pure ?_
    obtain ⟨variance, rfl, drawn⟩ := he
    obtain rfl : e' = e.adding new := hn
    exact .scheduled variance fills drawn
  · exact .pure (.stopped f fills)

/-- The loop, one round at a time. -/
theorem emitDue_succ (anchor : Anchor) (n : Nat) (e : Emitter) :
    emitDue anchor (n + 1) e =
      if e.isDue then do
        match ← e.round anchor with
        | (e, some halt) => return (e, some halt)
        | (e, none) => emitDue anchor n e
      else return (e, none) := by
  rw [emitDue, isDue]
  by_cases hc : e.body.countdown ≤ 0
  case neg => simp [hc]
  simp only [hc, not_true_eq_false, if_false, decide_true, Bool.true_and]
  cases hs : e.body.definition.flags.continuousSingleton && !e.particles.isEmpty with
  | true => rfl
  | false =>
    simp only [Bool.false_eq_true, if_false, Bool.not_false, if_true]
    funext r h
    rw [round, Tick.run_bind, Tick.run_bind, Tick.run_bind]
    obtain ⟨⟨e', halt⟩, h'⟩ := e.emit anchor (max e.body.definition.perEmission.toNat 1) r h
    cases halt <;> rfl

/-- What every round keeps holds after the loop: by induction on the rounds. -/
theorem emitDue_always {P : Emitter → Prop} {r : Surroundings}
    (keeps : ∀ e x, P e → e.GoesRound r.config x → P x.1) (anchor : Anchor) (n : Nat)
    {e : Emitter} (he : P e) : (emitDue anchor n e).At r fun x => P x.1 := by
  induction n generalizing e with
  | zero => exact .pure he
  | succ n ih =>
    rw [emitDue_succ]
    split
    · refine .bind (e.round_goesRound anchor r) fun x hx => ?_
      have hp := keeps e x he hx
      split
      · exact .pure hp
      · exact ih hp
    · exact .pure he

end EffectMachine.Emitter
