import EffectMachine.Proofs.Number.Wholes
import EffectMachine.Proofs.Particle.Countdowns
import EffectMachine.Proofs.Particle.Emissions
import EffectMachine.Proofs.Particle.Timing

namespace EffectMachine

/-- Asks for one particle at a time, at a distance that never changes. -/
structure Generator.IsEven (g : Generator) : Prop where
  singleton : g.flags.continuousSingleton = false
  batched : g.flags.batched = false
  variance : g.intervalVariance = 0
  perEmission : g.perEmission ≤ 1
  ramp : ∀ target frames, .emissionRamp target frames ∉ g.generatorUpdaters

/-- Frames from one emission to the next. -/
def Generator.step (g : Generator) : Nat := max g.interval.toNat 1

theorem Generator.step_pos (g : Generator) : 0 < g.step := Nat.le_max_right ..

theorem Generator.step_lt (g : Generator) : g.step < 2 ^ 16 := by
  have h : g.interval.toNat < 2 ^ 16 := g.interval.toNat_lt
  unfold step
  omega

theorem Generator.isWhole_step (g : Generator) :
    ((Scalar.ofNat g.interval.toNat + 0).max 1).IsWhole g.step := by
  have h : g.interval.toNat < 2 ^ 16 := g.interval.toNat_lt
  have interval : (Scalar.ofNat g.interval.toNat).IsWhole g.interval.toNat :=
    Scalar.isWhole_ofNat (by omega)
  have hw := (interval.add Scalar.isWhole_zero (by omega)).max Scalar.isWhole_one
  rwa [Int.add_zero, show max (g.interval.toNat : Int) 1 = g.step by rw [step]; omega] at hw

structure EmitterBody.IsNew (b : EmitterBody) : Prop where
  lifetime : b.lifetime = 0
  countdown : b.countdown = 0
  interval : b.interval = Scalar.ofNat b.definition.interval.toNat
  emitted : b.emitted = 0
  stopRequested : b.stopRequested = false

theorem EmitterBody.fresh_isNew (g : Generator) (binding : Binding) :
    (fresh g binding).IsNew :=
  ⟨rfl, rfl, rfl, rfl, rfl⟩

namespace Emitter

/-- So many particles are made after so many frames, and the next is due in its time. -/
structure OnSchedule (g : Generator) (made past : Nat) (e : Emitter) : Prop where
  definition : e.body.definition = g
  interval : e.body.interval = Scalar.ofNat g.interval.toNat
  emitted : e.body.emitted.toNat = made
  countdown : e.body.countdown.IsWhole ((made * g.step : Nat) - (past : Nat))

variable {g : Generator} {made past : Nat} {e e' : Emitter}

theorem onSchedule_of_isNew {b : EmitterBody} (hb : b.IsNew) :
    (ofBody b).OnSchedule b.definition 0 0 where
  definition := rfl
  interval := hb.interval
  emitted := by rw [ofBody, body_mk, hb.emitted, UInt32.toNat_zero]
  countdown := by
    have zero := Scalar.isWhole_zero
    rw [← hb.countdown] at zero
    simpa [ofBody] using zero

/-- On schedule, an emission is due as soon as the frames for those before it have passed. -/
theorem OnSchedule.isDue (h : e.OnSchedule g made past) (even : g.IsEven) :
    e.isDue = true ↔ made * g.step ≤ past := by
  rw [Emitter.isDue, h.definition, even.singleton, Bool.false_and, Bool.not_false, Bool.and_true,
    decide_eq_true_eq, h.countdown.le_iff Scalar.isWhole_zero]
  omega

/-- A round with room for a particle makes it. -/
theorem OnSchedule.round (h : e.OnSchedule g made past) (even : g.IsEven) {config : Config}
    (room : e.hasRoom config = true) (due : made * g.step ≤ past) (small : past < 2 ^ 24)
    (hr : e.GoesRound config (e', none)) : e'.OnSchedule g (made + 1) past := by
  have one : max e.body.definition.perEmission.toNat 1 = 1 := by
    rw [h.definition]
    exact Nat.max_eq_right even.perEmission
  cases hr with
  | @scheduled e' variance fills drawn =>
    rw [one] at fills
    rw [drawn (by rw [h.definition]; exact even.variance)]
    cases fills with
    | full full => exact absurd (room.symm.trans full) Bool.noConfusion
    | made p _ rest =>
      cases rest with
      | enough =>
        have batch : e.body.definition.batchSize = 1 := by
          rw [h.definition, Generator.batchSize, even.batched]
          rfl
        have interval : ((e.body.interval + 0).max 1).IsWhole g.step := by
          rw [h.interval]
          exact g.isWhole_step
        have step := g.step_lt
        have countdown := h.countdown.add interval (by omega)
        refine ⟨h.definition, h.interval, ?_, ?_⟩
        · change (e.body.emitted + UInt32.ofNat (1 * e.body.definition.batchSize)).toNat = made + 1
          have few : made ≤ made * g.step := Nat.le_mul_of_pos_right made g.step_pos
          rw [batch, Nat.one_mul, UInt32.toNat_add, h.emitted]
          change (made + 1) % 2 ^ 32 = made + 1
          exact Nat.mod_eq_of_lt (by omega)
        · rwa [show ((made * g.step : Nat) : Int) - past + g.step =
            ((made + 1) * g.step : Nat) - (past : Nat) by rw [Nat.add_mul]; omega] at countdown

/-- The rounds of one tick catch up: by induction on them. -/
theorem OnSchedule.emitDue (h : e.OnSchedule g made past) (even : g.IsEven)
    (behind : made ≤ past / g.step + 1) (small : past < 2 ^ 24) (anchor : Anchor)
    (r : Surroundings) (n : Nat) :
    (emitDue anchor n e).At r fun x =>
      x.2 = none → x.1.particles.length < r.config.maxParticles →
        x.1.OnSchedule g (past / g.step + 1) past := by
  induction n generalizing e made with
  | zero => exact .pure fun out => absurd out (Option.some_ne_none _)
  | succ n ih =>
    by_cases room : e.particles.length < r.config.maxParticles
    case neg =>
      refine (emitDue_emits anchor (n + 1) e).at.mono fun x hx _ left => ?_
      exact absurd (Nat.lt_of_le_of_lt hx.particles.length_le left) room
    rw [emitDue_succ]
    split
    next hd =>
      have due := (h.isDue even).mp hd
      have hasRoom : e.hasRoom r.config = true := by
        simp [Emitter.hasRoom, h.definition, even.singleton, room]
      refine .bind (e.round_goesRound anchor r) fun x hx => ?_
      obtain ⟨e', halt⟩ := x
      cases halt with
      | some why => exact .pure fun halted => absurd halted (Option.some_ne_none _)
      | none =>
        have within : made ≤ past / g.step := (Nat.le_div_iff_mul_le g.step_pos).mpr due
        exact ih (h.round even hasRoom due small hx) (Nat.succ_le_succ within)
    next hd =>
      have ahead : past < made * g.step := Nat.lt_of_not_le fun due => hd ((h.isDue even).mpr due)
      have passed : past / g.step < made := (Nat.div_lt_iff_lt_mul g.step_pos).mpr ahead
      obtain rfl : made = past / g.step + 1 := by omega
      exact .pure fun _ _ => h

/-- The tick runs into no fault, leaves room for more, and does not find the emitter too far away.
Of its fuel it is only asked, where that is not ample, that it lasts. -/
structure Unhindered (e : Emitter) (t : EmitterTick) : Prop where
  faultless : ∀ f, (e.ticked t).1.2 ≠ some (.fault f)
  fuelled : t.surroundings.IsAmple ∨ (e.ticked t).1.2 ≠ some .outOfFuel
  room : (e.ticked t).1.1.particles.length < t.surroundings.config.maxParticles
  near : (e.ticked t).1.1.body.culled = false

instance (e : Emitter) (t : EmitterTick) : Decidable (e.Unhindered t) :=
  have : Decidable (∀ f, (e.ticked t).1.2 ≠ some (.fault f)) :=
    decidable_of_iff' _ Halt.faultless_iff
  decidable_of_iff (_ ∧ _ ∧ _ ∧ _)
    ⟨fun ⟨faultless, fuelled, room, near⟩ => ⟨faultless, fuelled, room, near⟩,
      fun ⟨faultless, fuelled, room, near⟩ => ⟨faultless, fuelled, room, near⟩⟩

/-- The tick comes to its end, leaves room and finds the emitter near. -/
structure Completes (e : Emitter) (t : EmitterTick) : Prop where
  returns : (e.ticked t).1.2 = none
  room : (e.ticked t).1.1.particles.length < t.surroundings.config.maxParticles
  near : (e.ticked t).1.1.body.culled = false

variable {t : EmitterTick} {n : Nat}

/-- From bounded countdowns nothing but a fault keeps a tick from its end. -/
theorem Unhindered.completes (free : e.Unhindered t) {low low' : Scalar}
    (hd : Deepens low t.elapsed low') (hc : e.CountsFrom low) :
    e.Completes t ∧ (e.ticked t).1.1.CountsFrom low' := by
  obtain ⟨ample, bounded⟩ := ticked_endures hd hc
  have fuelled : (e.ticked t).1.2 ≠ some .outOfFuel := free.fuelled.elim ample id
  have returns : (e.ticked t).1.2 = none :=
    (Halt.faultless_iff.mp free.faultless).resolve_right fuelled
  exact ⟨⟨returns, free.room, free.near⟩, bounded returns⟩

/-- Such a tick emits unless the emitter is done. -/
theorem Completes.ends (h : e.Completes t) :
    ((e.prepared t).1.doneEmitting = true ∧
        (e.ticked t).1.1 = (e.readied t).countedDown t.elapsed) ∨
      (e.prepared t).1.doneEmitting = false ∧
        ∃ e', e.emission t t.surroundings.fuel = (e', none) ∧
          (e.ticked t).1.1 = e'.countedDown t.elapsed := by
  obtain ⟨returns, -, near⟩ := h
  have culled := (e.ticked_onlyEmits t).culled
  have ends := e.ticked_ends t
  generalize (e.ticked t).1 = x at ends returns near culled ⊢
  cases ends with
  | moving halted =>
    rw [returns] at halted
    cases halted
  | stopped => cases returns
  | idle rests =>
    have near : (e.prepared t).1.culled = false := culled.symm.trans near
    exact .inl ⟨rests.resolve_left (by simp [near]), rfl⟩
  | emitted _ active emission => exact .inr ⟨active, _, emission, rfl⟩

/-- An emitter keeps to its schedule up to the turn of its emission. -/
theorem OnSchedule.readied (h : e.OnSchedule g made past) (even : g.IsEven) (t : EmitterTick) :
    (e.readied t).OnSchedule g made past where
  definition := (e.prepared_keeps t).definition.trans h.definition
  interval :=
    ((e.readied_sameClock t).interval (h.definition ▸ even.ramp)).trans h.interval
  emitted := (congrArg UInt32.toNat (e.prepared_keeps t).emitted).trans h.emitted
  countdown := by
    rw [(e.readied_sameClock t).countdown]
    exact h.countdown

/-- What a tick takes off the countdown is what has passed. -/
theorem OnSchedule.countedDown (h : e.OnSchedule g (past / g.step + 1) past)
    (whole : t.elapsed.IsWhole n) (small : past + n < 2 ^ 24) :
    (e.countedDown t.elapsed).OnSchedule g (past / g.step + 1) (past + n) := by
  obtain ⟨b, ps⟩ := e
  have next : (past / g.step + 1) * g.step ≤ past + g.step := by
    rw [Nat.add_mul, Nat.one_mul]
    exact Nat.add_le_add_right (Nat.div_mul_le_self ..) _
  have step := g.step_lt
  refine ⟨h.definition, h.interval, h.emitted, ?_⟩
  have countdown := h.countdown.sub whole (by omega)
  rwa [Int.sub_sub, ← Int.natCast_add] at countdown

/-- A tick of an emitter that is not done afterwards. -/
theorem OnSchedule.ticked (h : e.OnSchedule g made past) (even : g.IsEven)
    (behind : made ≤ past / g.step + 1) (free : e.Completes t) (whole : t.elapsed.IsWhole n)
    (small : past + n < 2 ^ 24) (active : (e.ticked t).1.1.doneEmitting = false) :
    (e.ticked t).1.1.OnSchedule g (past / g.step + 1) (past + n) := by
  rcases free.ends with ⟨done, hx⟩ | ⟨-, e', emission, hx⟩
  · rw [hx, doneEmitting_countedDown] at active
    exact absurd (done.symm.trans active) Bool.noConfusion
  · have left := free.room
    have caught : (e.emission t t.surroundings.fuel).2 = none →
        (e.emission t t.surroundings.fuel).1.particles.length < t.surroundings.config.maxParticles →
          (e.emission t t.surroundings.fuel).1.OnSchedule g (past / g.step + 1) past :=
      (h.readied even t).emitDue even behind (by omega) (e.particleTick t).anchor t.surroundings _ _
    rw [hx, particles_countedDown] at left
    rw [emission] at caught
    rw [hx]
    exact (caught rfl left).countedDown whole small

def Throughout (P : Emitter → EmitterTick → Prop) : Emitter → List EmitterTick → Prop
  | _, [] => True
  | e, t :: ts => P e t ∧ (e.ticked t).1.1.Throughout P ts

instance Throughout.decide {P : Emitter → EmitterTick → Prop} [∀ e t, Decidable (P e t)] :
    (e : Emitter) → (ts : List EmitterTick) → Decidable (e.Throughout P ts)
  | _, [] => inferInstanceAs (Decidable True)
  | e, t :: ts =>
    have := Throughout.decide (P := P) (e.ticked t).1.1 ts
    inferInstanceAs (Decidable (_ ∧ _))

def RunsFreely (e : Emitter) (ts : List EmitterTick) : Prop := e.Throughout Unhindered ts

instance (e : Emitter) (ts : List EmitterTick) : Decidable (e.RunsFreely ts) :=
  Throughout.decide e ts

/-- A run that is free comes to its end, however often the ticks go round, as long as countdowns
stay where a frame counts. -/
theorem RunsFreely.completes {ts : List EmitterTick} {low : Scalar} (deep : Deepening low ts)
    (hc : e.CountsFrom low) (free : e.RunsFreely ts) : e.Throughout Completes ts := by
  induction deep generalizing e with
  | nil => trivial
  | cons first _ ih =>
    obtain ⟨completes, bounded⟩ := free.1.completes first hc
    exact ⟨completes, ih bounded free.2⟩

def afterTicks (e : Emitter) (ts : List EmitterTick) : Emitter := e.after (ts.map .tick)

/-- An emitter that is done is still so in a tick, whatever its length. -/
theorem prepared_done (whole : t.elapsed.IsWhole n) (hd : e.doneEmitting = true) :
    (e.prepared t).1.doneEmitting = true := by
  rw [prepared_doneEmitting]
  simp only [Emitter.doneEmitting, EmitterBody.doneEmitting, Bool.or_eq_true, Bool.and_eq_true,
    decide_eq_true_eq] at hd ⊢
  refine hd.imp_right fun h => ⟨⟨h.1.1, ?_⟩, h.2⟩
  exact Scalar.lt_add_of_lt h.1.2 whole (Int.natCast_nonneg n)

theorem Completes.of_done (free : e.Completes t) (done : (e.prepared t).1.doneEmitting = true) :
    (e.ticked t).1.1.doneEmitting = true ∧ (e.ticked t).1.1.body.emitted = e.body.emitted := by
  rcases free.ends with ⟨-, hx⟩ | ⟨active, -⟩
  · rw [hx, doneEmitting_countedDown]
    exact ⟨done, (e.prepared_keeps t).emitted⟩
  · exact absurd (done.symm.trans active) Bool.noConfusion

/-- Ticks of whole numbers of frames. -/
def LastFor (ts : List EmitterTick) (ns : List Nat) : Prop :=
  List.Forall₂ (fun t n => t.elapsed.IsWhole (n : Nat)) ts ns

variable {ts : List EmitterTick} {ns : List Nat}

/-- An emitter that is done makes nothing more in any of its ticks. -/
theorem Throughout.of_done (free : e.Throughout Completes ts) (whole : LastFor ts ns)
    (done : e.doneEmitting = true) :
    (e.afterTicks ts).doneEmitting = true ∧
      (e.afterTicks ts).body.emitted = e.body.emitted := by
  induction whole generalizing e with
  | nil => exact ⟨done, rfl⟩
  | @cons t n ts ns hn _ ih =>
    obtain ⟨done', emitted⟩ := free.1.of_done (prepared_done hn done)
    obtain ⟨done'', emitted'⟩ := ih free.2 done'
    exact ⟨done'', emitted'.trans emitted⟩

/-- Whole frames take the countdowns down by as many as have passed. -/
theorem LastFor.deepening (whole : LastFor ts ns) {low : Scalar} (hl : low.IsWhole (-past))
    (small : past + ns.sum ≤ 2 ^ 24) : Deepening low ts := by
  induction whole generalizing low past with
  | nil => exact .nil
  | cons hn _ ih =>
    rw [List.sum_cons] at small
    obtain ⟨first, next⟩ := deepens_whole hl hn (by omega)
    exact .cons first (ih next (by omega))

theorem deepening_unit (unit : ∀ t ∈ ts, t.elapsed.IsWhole 1) : Deepening (-16777216) ts := by
  induction ts with
  | nil => exact .nil
  | cons t ts ih =>
    obtain ⟨first, rest⟩ := List.forall_mem_cons.mp unit
    refine .cons (deepens_unit ?_) (ih rest)
    rw [Scalar.isWhole_one.lt_iff first]
    decide

/-- By induction on the run: all ticks but the last are in the past of the last emission. -/
theorem OnSchedule.afterTicks (h : e.OnSchedule g made past) (even : g.IsEven)
    (behind : made ≤ past / g.step + 1) (whole : LastFor ts ns)
    (free : e.Throughout Completes ts) (nonempty : ns ≠ []) (small : past + ns.sum < 2 ^ 24)
    (active : (e.afterTicks ts).doneEmitting = false) :
    (e.afterTicks ts).OnSchedule g ((past + ns.dropLast.sum) / g.step + 1) (past + ns.sum) := by
  induction whole generalizing e made past with
  | nil => exact absurd rfl nonempty
  | @cons t n ts ns hn rest ih =>
    rw [List.sum_cons] at small ⊢
    have active' : (e.ticked t).1.1.doneEmitting = false := by
      by_contra done
      have done' := (free.2.of_done rest (eq_true_of_ne_false done)).1
      exact absurd (done'.symm.trans active) Bool.noConfusion
    have first := h.ticked even behind free.1 hn (by omega) active'
    cases rest with
    | nil => exact first
    | cons hm rest =>
      have later : past / g.step + 1 ≤ (past + n) / g.step + 1 :=
        Nat.succ_le_succ (Nat.div_le_div_right (Nat.le_add_right ..))
      have all := ih first later free.2 (by simp) (by omega) active
      rwa [Nat.add_assoc, Nat.add_assoc] at all

end Emitter

namespace EmitterBody

/-- Not told to stop, so many frames old, with a window of so many. -/
structure HasWindow (window past : Nat) (b : EmitterBody) : Prop where
  stopRequested : b.stopRequested = false
  autoRun : b.definition.flags.autoRun = false
  maxLifetime : b.maxLifetime.IsWhole window
  lifetime : b.lifetime.IsWhole past

variable {window past : Nat}

/-- A window closes once it has passed and a particle was made in it. -/
theorem HasWindow.doneEmitting {b : EmitterBody} (h : b.HasWindow window past) :
    b.doneEmitting = true ↔ window < past ∧ 1 ≤ b.emitted := by
  rw [EmitterBody.doneEmitting, h.stopRequested, h.autoRun]
  simp only [Bool.false_or, Bool.not_false, Bool.true_or, Bool.true_and, Bool.and_eq_true,
    decide_eq_true_eq, h.maxLifetime.lt_iff h.lifetime, Int.ofNat_lt]

variable {e : Emitter}

theorem HasWindow.prepared (h : e.body.HasWindow window past) {t : EmitterTick} {n : Nat}
    (whole : t.elapsed.IsWhole n) (small : past + n ≤ 2 ^ 24) :
    (e.prepared t).1.HasWindow window (past + n) := by
  have keeps := e.prepared_keeps t
  have clock : SameClock _ _ (e.prepared t).1 := e.readied_sameClock t
  refine ⟨keeps.stopRequested.trans h.stopRequested, ?_, ?_, ?_⟩
  · rw [keeps.definition]
    exact h.autoRun
  · rw [clock.maxLifetime]
    exact h.maxLifetime
  · rw [clock.lifetime]
    exact h.lifetime.add whole (by omega)

/-- A window does not move: over a run only the emitter grows older. -/
theorem HasWindow.afterTicks (h : e.body.HasWindow window past) {ts : List EmitterTick}
    {ns : List Nat} (whole : Emitter.LastFor ts ns) (small : past + ns.sum ≤ 2 ^ 24) :
    (e.afterTicks ts).body.HasWindow window (past + ns.sum) := by
  induction whole generalizing e past with
  | nil => exact h
  | @cons t n ts ns hn _ ih =>
    rw [List.sum_cons] at small ⊢
    have first : (e.ticked t).1.1.body.HasWindow window (past + n) := by
      rw [e.ticked_onlyEmits t]
      obtain ⟨stopRequested, autoRun, maxLifetime, lifetime⟩ := h.prepared hn (by omega)
      exact ⟨stopRequested, autoRun, maxLifetime, lifetime⟩
    have all := ih first (by omega)
    rwa [Nat.add_assoc] at all

end EmitterBody

namespace Emitter

variable {e : Emitter}

theorem afterTicks_append (e : Emitter) (ts us : List EmitterTick) :
    e.afterTicks (ts ++ us) = (e.afterTicks ts).afterTicks us := by
  induction ts generalizing e with
  | nil => rfl
  | cons t ts ih => exact ih (e.ticked t).1.1

/-- What holds throughout a run holds throughout both of its parts. -/
theorem Throughout.append {P : Emitter → EmitterTick → Prop} {ts us : List EmitterTick}
    (h : e.Throughout P (ts ++ us)) : e.Throughout P ts ∧ (e.afterTicks ts).Throughout P us := by
  induction ts generalizing e with
  | nil => exact ⟨trivial, h⟩
  | cons t ts ih =>
    obtain ⟨first, rest⟩ := h
    exact ⟨⟨first, (ih rest).1⟩, (ih rest).2⟩

theorem lastFor_unit {ts : List EmitterTick} (h : ∀ t ∈ ts, t.elapsed.IsWhole 1) :
    LastFor ts (List.replicate ts.length 1) := by
  induction ts with
  | nil => exact .nil
  | cons t ts ih =>
    exact .cons (h t List.mem_cons_self) (ih fun t ht => h t (List.mem_cons_of_mem _ ht))

/-- Past its window, an emitter that has made a particle makes no more. -/
theorem past_window {window : Nat} (h : e.body.HasWindow window window) (small : window < 2 ^ 24)
    (made : 1 ≤ e.body.emitted) {ts : List EmitterTick} (unit : ∀ t ∈ ts, t.elapsed.IsWhole 1)
    (free : e.Throughout Completes ts) :
    (e.afterTicks ts).body.emitted = e.body.emitted ∧
      (ts ≠ [] → (e.afterTicks ts).doneEmitting = true) := by
  cases ts with
  | nil => exact ⟨rfl, fun h => absurd rfl h⟩
  | cons t ts =>
    have late : (e.prepared t).1.HasWindow window (window + 1) :=
      h.prepared (n := 1) (unit t List.mem_cons_self) small
    have done : (e.prepared t).1.doneEmitting = true :=
      late.doneEmitting.mpr ⟨Nat.lt_succ_self window, (e.prepared_keeps t).emitted ▸ made⟩
    obtain ⟨done', emitted⟩ := free.1.of_done done
    obtain ⟨done'', emitted'⟩ := free.2.of_done
      (lastFor_unit fun t ht => unit t (List.mem_cons_of_mem _ ht)) done'
    exact ⟨emitted'.trans emitted, fun _ => done''⟩

section New

variable {b : EmitterBody} {ts : List EmitterTick}

theorem countsFrom_of_isNew (new : b.IsNew) {low : Scalar} (h : ¬0 < low) :
    (ofBody b).CountsFrom low :=
  countsFrom_mk.mpr ⟨new.countdown.symm ▸ h, by simp⟩

/-- Of the ticks so far only the last has no part in the schedule. -/
theorem emitted_of_active (new : b.IsNew) (even : b.definition.IsEven)
    (free : (ofBody b).Throughout Completes ts) {ns : List Nat} (whole : LastFor ts ns) (nonempty : ns ≠ [])
    (small : ns.sum < 2 ^ 24) (active : ((ofBody b).afterTicks ts).doneEmitting = false) :
    ((ofBody b).afterTicks ts).body.emitted.toNat = ns.dropLast.sum / b.definition.step + 1 := by
  have schedule := (onSchedule_of_isNew new).afterTicks even (Nat.zero_le _) whole free nonempty
    (by omega) active
  rw [schedule.emitted, Nat.zero_add]

/-- When its window closes the emitter is not done, and has kept to the schedule. -/
theorem emitted_in_window (new : b.IsNew) (even : b.definition.IsEven)
    (free : (ofBody b).Throughout Completes ts) (whole : b.maxLifetime.IsWhole ts.length)
    (autoRun : b.definition.flags.autoRun = false) (nonempty : ts ≠ [])
    (small : ts.length < 2 ^ 24) (unit : ∀ t ∈ ts, t.elapsed.IsWhole 1) :
    ((ofBody b).afterTicks ts).body.HasWindow ts.length ts.length ∧
      ((ofBody b).afterTicks ts).body.emitted.toNat = (ts.length - 1) / b.definition.step + 1 := by
  have units := lastFor_unit unit
  have sum : (List.replicate ts.length 1).sum = ts.length := by simp
  have opens : (ofBody b).body.HasWindow ts.length 0 :=
    ⟨new.stopRequested, autoRun, whole, new.lifetime ▸ Scalar.isWhole_zero⟩
  have closes := opens.afterTicks units (by omega)
  rw [sum, Nat.zero_add] at closes
  have active : ((ofBody b).afterTicks ts).doneEmitting = false := by
    by_contra done
    exact Nat.lt_irrefl _ (closes.doneEmitting.mp (eq_true_of_ne_false done)).1
  have made := emitted_of_active new even free units (by simpa using nonempty) (by omega) active
  rw [List.dropLast_replicate, List.sum_replicate_nat, Nat.mul_one] at made
  exact ⟨closes, made⟩

end New

/-- A new emitter of even steps that runs freely has made one particle more than there are steps in
the ticks before the last, as long as it is not done. In unit ticks, it makes one for each step that
begins in its window, and then it is done. -/
theorem emits_on_schedule (b : EmitterBody) (new : b.IsNew) (even : b.definition.IsEven)
    (ts : List EmitterTick) (free : (ofBody b).RunsFreely ts) :
    let e := (ofBody b).afterTicks ts
    let step := b.definition.step
    (∀ ns, LastFor ts ns → ns ≠ [] → ns.sum < 2 ^ 24 → e.doneEmitting = false →
      e.body.emitted.toNat = ns.dropLast.sum / step + 1) ∧
    ∀ window : Nat, b.maxLifetime.IsWhole window → 1 ≤ window → window < 2 ^ 24 →
      b.definition.flags.autoRun = false → (∀ t ∈ ts, t.elapsed.IsWhole 1) →
      window ≤ ts.length →
        e.body.emitted.toNat = (window + step - 1) / step ∧
          (window < ts.length → e.doneEmitting = true) := by
  intro e step
  constructor
  · intro ns whole nonempty small active
    have start : (0 : Scalar).IsWhole (-(0 : Nat)) := Scalar.isWhole_zero
    have deep : Deepening 0 ts := whole.deepening start (by omega)
    have completes := free.completes deep (countsFrom_of_isNew new (by decide))
    exact emitted_of_active new even completes whole nonempty small active
  intro window whole positive small autoRun unit enough
  have completes := free.completes (deepening_unit unit) (countsFrom_of_isNew new (by decide))
  -- The ticks of the window come first, and then those after it.
  obtain ⟨first, rest, rfl, rfl⟩ : ∃ first rest, ts = first ++ rest ∧ window = first.length :=
    ⟨ts.take window, ts.drop window, (List.take_append_drop ..).symm, by simp [enough]⟩
  obtain ⟨freeFirst, freeRest⟩ := completes.append
  obtain ⟨closes, made⟩ := emitted_in_window new even freeFirst whole autoRun
    (List.ne_nil_of_length_pos positive) small fun t ht => unit t (List.mem_append_left _ ht)
  have some_made : 1 ≤ ((ofBody b).afterTicks first).body.emitted := by
    rw [UInt32.le_iff_toNat_le, made]
    exact Nat.le_add_left ..
  obtain ⟨emitted, done⟩ := past_window closes small some_made
    (fun t ht => unit t (List.mem_append_right _ ht)) freeRest
  have split : e = ((ofBody b).afterTicks first).afterTicks rest := afterTicks_append ..
  have steps : (first.length - 1) / step + 1 = (first.length + step - 1) / step := by
    rw [← Nat.add_div_right _ b.definition.step_pos]
    congr 1
    omega
  rw [split]
  refine ⟨(emitted ▸ made).trans steps, fun longer => done ?_⟩
  rintro rfl
  simp at longer

end Emitter

/-- Makes a particle every other frame, for three frames. -/
def Generator.alternate : Generator :=
  { Generator.plain [] [] with interval := 2, maxAge := 3 }

namespace Emitter

/-- Three frames with a step of two: one emission in the first frame and one in the third. -/
theorem alternate_emits_twice :
    let e := ofBody (.fresh .alternate .weather)
    let t := EmitterTick.capped 9
    (e.afterTicks [t, t, t]).body.emitted = 2 ∧ (e.afterTicks [t, t, t, t]).body.emitted = 2 ∧
      (e.afterTicks [t, t, t, t]).doneEmitting = true := by
  intro e t
  have even : Generator.alternate.IsEven :=
    ⟨rfl, rfl, rfl, by decide, by simp [Generator.alternate, Generator.plain]⟩
  have new : (EmitterBody.fresh .alternate .weather).IsNew := EmitterBody.fresh_isNew _ _
  have unit : t.elapsed.IsWhole (1 : Nat) := Scalar.isWhole_one
  have window : (EmitterBody.fresh .alternate .weather).maxLifetime.IsWhole (3 : Nat) :=
    Scalar.isWhole_ofNat (by decide)
  obtain ⟨during, -⟩ := emits_on_schedule _ new even [t, t, t] (by decide +kernel)
  obtain ⟨-, whole⟩ := emits_on_schedule _ new even [t, t, t, t] (by decide +kernel)
  obtain ⟨emitted, done⟩ := whole 3 window (by decide) (by decide) rfl
    (by simpa using unit) (by decide)
  have during := during [1, 1, 1] (.cons unit (.cons unit (.cons unit .nil))) (by decide) (by decide)
    (by decide +kernel)
  exact ⟨UInt32.toNat_inj.mp during, UInt32.toNat_inj.mp emitted, done (by decide)⟩

end Emitter
end EffectMachine
