import EffectMachine.Proofs.Number.Wholes
import EffectMachine.Proofs.Particle.Timing
import Mathlib.Order.WellFounded

namespace EffectMachine

namespace Scalar

variable {x y low step : Scalar}

theorem not_lt_add (hl : low.IsNumber) (hx : ¬x < low) (hy : 0 ≤ y) : ¬x + y < low := by
  intro hlt
  have hn := (isNumber_of_lt hlt).1
  have hnx := (isNumber_of_add hn).1
  exact (not_lt_iff hn hl).mpr
    (le_trans ((not_lt_iff hnx hl).mp hx) (le_add_of_nonneg hnx hy hn)) hlt

theorem not_lt_sub (hl : (low - step).IsNumber) (hx : ¬x < low) (hy : ¬step < y) :
    ¬x - y < low - step := by
  intro hlt
  have hn := (isNumber_of_lt hlt).1
  obtain ⟨hnx, hny⟩ := isNumber_of_sub hn
  obtain ⟨hnl, hns⟩ := isNumber_of_sub hl
  have hle := sub_le_sub ((not_lt_iff hnx hnl).mp hx) ((not_lt_iff hns hny).mp hy) hl hn
  exact (not_lt_iff hn hl).mpr hle hlt

/-- No further down than two to the 24th: up from there, one more is one more. -/
def Counts (x : Scalar) : Prop := ¬x < -16777216

theorem isWhole_depth : (-16777216 : Scalar).IsWhole (-16777216) := by
  have h : (-16777216 : Scalar).number = .finite .negative (2 ^ 23) 1 (Nat.two_pow_pos 23) := rfl
  refine ⟨?_, by rw [h]; rfl⟩
  rw [h]
  exact .finite _ _ _ _ 150 rfl ⟨by decide, by decide, .inl (Nat.le_refl _)⟩

theorem Counts.le (h : x.Counts) (hx : x.IsNumber) : -16777216 ≤ x :=
  (not_lt_iff hx isWhole_depth.finite.ne_nan).mp h

theorem Counts.add (h : x.Counts) (hy : 1 ≤ y) : (x + y).Counts :=
  not_lt_add isWhole_depth.finite.ne_nan h (le_trans (by decide) hy)

/-- One below the depth is rounded back to it. -/
theorem Counts.sub (h : x.Counts) (hy : ¬1 < y) : (x - y).Counts := by
  have back : (-16777216 : Scalar) - 1 = -16777216 := by decide +kernel
  have hsub : ¬x - y < -16777216 - 1 :=
    not_lt_sub (by rw [back]; exact isWhole_depth.finite.ne_nan) h hy
  rwa [back] at hsub

end Scalar

namespace Emitter

variable {anchor : Anchor} {r : Surroundings}

/-- A loop that runs out goes round first. -/
theorem round_of_outOfFuel {n : Nat} {e : Emitter} {h : Host}
    (hl : (emitDue anchor (n + 1) e r h).1.2 = some .outOfFuel) :
    e.isDue = true ∧ ∃ e' h', e.GoesRound r.config (e', none) ∧
      ∀ m, emitDue anchor (m + 1) e r h = emitDue anchor m e' r h' := by
  rw [emitDue_succ] at hl
  split at hl
  case isFalse => cases hl
  next hd =>
    refine ⟨hd, ?_⟩
    have hr := e.round_goesRound anchor r h
    cases hx : e.round anchor r h with
    | mk x h' =>
      obtain ⟨e', halt⟩ := x
      rw [hx] at hr
      rw [Tick.run_bind, hx] at hl
      cases halt with
      | none => exact ⟨e', h', hr, fun m => by rw [emitDue_succ, if_pos hd, Tick.run_bind, hx]⟩
      | some why =>
        cases hr
        cases hl

/-- The loop with one round more, as long as it runs out: by induction on the rounds before. -/
theorem lastRound_of_outOfFuel {n : Nat} {e : Emitter} {h : Host}
    (hl : (emitDue anchor (n + 1) e r h).1.2 = some .outOfFuel) :
    (emitDue anchor n e r h).1.2 = some .outOfFuel ∧
      (emitDue anchor n e r h).1.1.isDue = true ∧
      (emitDue anchor n e r h).1.1.GoesRound r.config
        ((emitDue anchor (n + 1) e r h).1.1, none) := by
  induction n generalizing e h with
  | zero =>
    obtain ⟨hd, e', h', hr, hm⟩ := round_of_outOfFuel hl
    rw [hm 0]
    exact ⟨rfl, hd, hr⟩
  | succ n ih =>
    obtain ⟨-, e', h', -, hm⟩ := round_of_outOfFuel hl
    rw [hm (n + 1)] at hl
    rw [hm n, hm (n + 1)]
    exact ih hl

/-- A round adds one or more to the countdown. -/
theorem GoesRound.countdown {config : Config} {e e' : Emitter} (h : e.GoesRound config (e', none)) :
    ∃ step, 1 ≤ step ∧ e'.body.countdown = e.body.countdown + step := by
  cases h with
  | @scheduled e' variance fills =>
    obtain ⟨⟨new, rfl⟩, -⟩ := fills.adds
    exact ⟨_, Scalar.one_le_max _, rfl⟩

theorem countdown_of_isDue {e : Emitter} (h : e.isDue = true) : e.body.countdown ≤ 0 := by
  simp only [isDue, Bool.and_eq_true, decide_eq_true_eq] at h
  exact h.1

/-- A loop that runs out has gone round that often on the way. -/
theorem outOfFuel_of_le {m n : Nat} (hmn : m ≤ n) {e : Emitter} {h : Host}
    (hl : (emitDue anchor n e r h).1.2 = some .outOfFuel) :
    (emitDue anchor m e r h).1.2 = some .outOfFuel := by
  induction hmn with
  | refl => exact hl
  | step _ ih => exact ih (lastRound_of_outOfFuel hl).1

/-- From no further down than a whole number the loop goes round once for each one up to zero, and
once more: by induction on that number. -/
theorem emitDue_of_whole_le {n : Nat} (hn : n ≤ 16777217) {e : Emitter} {w : Scalar}
    (hw : w.IsWhole (1 - n)) (hle : e.body.countdown.IsNumber → w ≤ e.body.countdown) (h : Host) :
    (emitDue anchor (n + 1) e r h).1.2 ≠ some .outOfFuel := by
  intro hl
  obtain ⟨hd, e', h', hr, hm⟩ := round_of_outOfFuel hl
  have hc := countdown_of_isDue hd
  have hwc := hle (Scalar.isNumber_of_le hc).1
  cases n with
  | zero =>
    exact absurd ((hw.le_iff Scalar.isWhole_zero).mp (Scalar.le_trans hwc hc)) (by decide)
  | succ n =>
    obtain ⟨step, hs, he⟩ := hr.countdown
    have hw' : (w + 1).IsWhole (1 - n) := by
      have hsum := hw.add Scalar.isWhole_one (by omega)
      rwa [show (1 : Int) - (n + 1 : Nat) + 1 = 1 - n by omega] at hsum
    rw [hm (n + 1)] at hl
    refine emitDue_of_whole_le (by omega) hw' (fun hn' => ?_) h' hl
    rw [he] at hn' ⊢
    exact Scalar.add_le_add hwc hs hw'.finite.ne_nan hn'

theorem rounds_le_of_counts {n : Nat} {e : Emitter} (hc : e.body.countdown.Counts) {h : Host}
    (hl : (emitDue anchor n e r h).1.2 = some .outOfFuel) : n ≤ 16777217 := by
  by_contra hn
  have hlow : (emitDue anchor (16777217 + 1) e r h).1.2 = some .outOfFuel :=
    outOfFuel_of_le (by omega) hl
  exact emitDue_of_whole_le (Nat.le_refl _) Scalar.isWhole_depth
    hc.le h hlow

def Ends (loop : Nat → Emitter × Option Halt) : Prop :=
  ∃ most, ∀ n, (loop n).2 = some .outOfFuel → n ≤ most

/-- From some round on the loop goes round and its countdown gains nothing more. -/
def Stalls (loop : Nat → Emitter × Option Halt) : Prop :=
  ∃ k, ∀ n, k ≤ n → (loop n).2 = some .outOfFuel ∧
    ¬(loop n).1.body.countdown < (loop (n + 1)).1.body.countdown

/-- In a loop that goes round for ever the countdown stays at zero or below, and does not fall. -/
theorem countdown_climbs {e : Emitter} {h : Host}
    (hl : ∀ n, (emitDue anchor n e r h).1.2 = some .outOfFuel) (n : Nat) :
    (emitDue anchor n e r h).1.1.body.countdown ≤ 0 ∧
      (emitDue anchor n e r h).1.1.body.countdown ≤
        (emitDue anchor (n + 1) e r h).1.1.body.countdown := by
  obtain ⟨-, due, hr⟩ := lastRound_of_outOfFuel (hl (n + 1))
  obtain ⟨-, due', -⟩ := lastRound_of_outOfFuel (hl (n + 1 + 1))
  obtain ⟨step, hs, he⟩ := hr.countdown
  have hc := countdown_of_isDue due
  have hc' := (Scalar.isNumber_of_le (countdown_of_isDue due')).1
  refine ⟨hc, ?_⟩
  rw [he] at hc' ⊢
  exact Scalar.le_add_of_nonneg (Scalar.isNumber_of_le hc).1
    (Scalar.le_trans (by decide) hs) hc'

/-- A countdown that climbs for ever, and never above zero, comes to a place where it stays. -/
theorem stalls_of_climbs {loop : Nat → Emitter × Option Halt}
    (out : ∀ n, (loop n).2 = some .outOfFuel)
    (climbs : ∀ n, (loop n).1.body.countdown ≤ 0 ∧
      (loop n).1.body.countdown ≤ (loop (n + 1)).1.body.countdown) : Stalls loop := by
  let place (n : Nat) : Int := Scalar.place (loop n).1.body.countdown.number
  have number (n : Nat) : (loop n).1.body.countdown.IsNumber :=
    (Scalar.isNumber_of_le (climbs n).1).1
  have low (n : Nat) : place n ≤ 0 :=
    (Scalar.le_iff_place (number n) Scalar.isWhole_zero.finite.ne_nan).mp (climbs n).1
  have mono : Monotone place := monotone_nat_of_le_succ fun n =>
    (Scalar.le_iff_place (number n) (number (n + 1))).mp (climbs n).2
  -- The round with the least way left to go is the last one that gains anything.
  obtain ⟨k, least⟩ : ∃ k, ∀ n, (place k).natAbs ≤ (place n).natAbs :=
    ⟨_, fun n => Function.argmin_le (fun n => (place n).natAbs) n⟩
  refine ⟨k, fun n hn => ⟨out n, ?_⟩⟩
  rw [Scalar.lt_iff_place (number n) (number (n + 1))]
  change ¬place n < place (n + 1)
  have before : place k ≤ place n := mono hn
  have after := least (n + 1)
  have low' := low (n + 1)
  omega

theorem stalls_iff (anchor : Anchor) (r : Surroundings) (e : Emitter) (h : Host) :
    Ends (fun n => (emitDue anchor n e r h).1) ↔ ¬Stalls fun n => (emitDue anchor n e r h).1 := by
  constructor
  · rintro ⟨most, hm⟩ ⟨k, hk⟩
    have hle := hm (max k (most + 1)) (hk _ (Nat.le_max_left ..)).1
    omega
  · intro hs
    by_contra he
    refine hs (stalls_of_climbs (fun n => ?_) fun n => countdown_climbs (fun n => ?_) n)
    all_goals
      simp only [Ends, not_exists, not_forall] at he
      obtain ⟨m, hl, hm⟩ := he n
      exact outOfFuel_of_le (Nat.le_of_lt (Nat.lt_of_not_le hm)) hl

/-- A round does not take the countdown further down. -/
theorem GoesRound.counts {config : Config} {e : Emitter} {x : Emitter × Option Halt}
    (h : e.GoesRound config x) (hc : e.body.countdown.Counts) : x.1.body.countdown.Counts := by
  cases h with
  | stopped f fills =>
    obtain ⟨⟨new, rfl⟩, -⟩ := fills.adds
    exact hc
  | @scheduled e' variance fills =>
    obtain ⟨⟨new, rfl⟩, -⟩ := fills.adds
    exact hc.add (Scalar.one_le_max _)

theorem readied_counts {e : Emitter} (hc : e.body.countdown.Counts) (t : EmitterTick) :
    (e.readied t).body.countdown.Counts := by
  rw [(e.readied_sameClock t).countdown]
  exact hc

theorem countedDown_counts {e : Emitter} (hc : e.body.countdown.Counts) {elapsed : Scalar}
    (h : ¬1 < elapsed) : (e.countedDown elapsed).body.countdown.Counts := by
  obtain ⟨b, ps⟩ := e
  exact hc.sub h

theorem ticked_counts {e : Emitter} (hc : e.body.countdown.Counts) (t : EmitterTick)
    (ht : ¬1 < t.elapsed) : (e.ticked t).1.1.body.countdown.Counts := by
  have emission : (e.emission t t.surroundings.fuel).1.body.countdown.Counts :=
    emitDue_always (P := fun e => e.body.countdown.Counts) (fun _ _ he hx => hx.counts he) _ _
      (readied_counts hc t) _
  have ends := e.ticked_ends t
  generalize (e.ticked t).1 = x at ends ⊢
  cases ends with
  | moving => exact readied_counts hc t
  | idle => exact countedDown_counts (readied_counts hc t) ht
  | stopped hx => rwa [hx] at emission
  | emitted _ _ hx =>
    rw [hx] at emission
    exact countedDown_counts emission ht

/-- A run of ticks of no more than one frame leaves the countdown where a frame counts. -/
theorem after_counts {e : Emitter} (hc : e.body.countdown.Counts) (hs : List Happening)
    (ht : ∀ t, .tick t ∈ hs → ¬1 < t.elapsed) : (e.after hs).body.countdown.Counts := by
  induction hs generalizing e with
  | nil => exact hc
  | cons x hs ih =>
    have rest : ∀ t, .tick t ∈ hs → ¬1 < t.elapsed := fun t h => ht t (List.mem_cons_of_mem _ h)
    cases x with
    | tick t => exact ih (ticked_counts hc t (ht t List.mem_cons_self)) rest
    | stop =>
      refine ih (e := e.stop) ?_ rest
      obtain ⟨b, ps⟩ := e
      exact hc

/-- Emission goes round in a tick without an end exactly when its countdown comes to gain nothing
more. It does not when the countdown is no further down than two to the 24th; and so never after
ticks of no more than a frame each, however long this one is. -/
theorem emission_ends (b : EmitterBody) (hb : b.countdown = 0) (hs : List Happening)
    (t : EmitterTick) :
    let e := (ofBody b).after hs
    (Ends (e.emission t) ↔ ¬Stalls (e.emission t)) ∧
      (¬e.body.countdown < -16777216 →
        ∀ n, (e.emission t n).2 = some .outOfFuel → n ≤ 16777217) ∧
      ((∀ t, .tick t ∈ hs → ¬1 < t.elapsed) → Ends (e.emission t)) := by
  intro e
  have bound : e.body.countdown.Counts →
      ∀ n, (e.emission t n).2 = some .outOfFuel → n ≤ 16777217 :=
    fun hc n => rounds_le_of_counts (readied_counts hc t)
  refine ⟨stalls_iff _ _ _ _, bound, fun ht => ⟨16777217, bound (after_counts ?_ hs ht)⟩⟩
  change ¬b.countdown < -16777216
  rw [hb]
  decide

/-- Without room nothing is filled. -/
theorem Fills.of_full {config : Config} {n : Nat} {e : Emitter} {x : Emitter × Option Halt}
    (full : e.hasRoom config = false) (h : Fills config n e x) : x = (e, none) := by
  cases h with
  | enough | full => rfl
  | refused _ room | made _ room => exact absurd (room.symm.trans full) Bool.noConfusion

/-- With no room and an interval that is lost in rounding, a round changes nothing. -/
theorem emitDue_of_lost {e : Emitter} {r : Surroundings} (due : e.isDue = true)
    (full : e.hasRoom r.config = false) (steady : e.body.definition.intervalVariance = 0)
    (lost : e.body.countdown + (e.body.interval + 0).max 1 = e.body.countdown) (anchor : Anchor)
    (n : Nat) (h : Host) : (emitDue anchor n e r h).1.2 = some .outOfFuel := by
  induction n generalizing h with
  | zero => rfl
  | succ n ih =>
    have hr := e.round_goesRound anchor r h
    rw [emitDue_succ, if_pos due, Tick.run_bind]
    cases hx : e.round anchor r h with
    | mk x h' =>
      rw [hx] at hr
      cases hr with
      | stopped f fills => cases fills.of_full full
      | @scheduled e' variance fills drawn =>
        cases fills.of_full full
        have same : e.postponed (e.body.interval + variance) = e := by
          rw [drawn steady]
          obtain ⟨b, ps⟩ := e
          exact congrArg (fun c => mk { b with countdown := c } ps) lost
        rw [same]
        exact ih h'

end Emitter

def Generator.tireless : Generator :=
  { Generator.plain [] [] with flags := { autoRun := true } }

namespace Emitter

theorem tireless_emission_ends :
    let e := (ofBody (.fresh .tireless .weather)).after [.tick (.capped 1)]
    let t := EmitterTick.capped 1
    ¬Stalls (e.emission t) ∧ ∀ n, (e.emission t n).2 = some .outOfFuel → n ≤ 16777217 := by
  obtain ⟨stalls, bound, short⟩ := emission_ends (.fresh .tireless .weather) rfl
    [.tick (.capped 1)] (.capped 1)
  refine ⟨stalls.mp (short fun t ht => ?_), bound (by decide +kernel)⟩
  obtain rfl : t = .capped 1 := by simpa using ht
  decide

/-- After one tick of two to the 25th frames, the next comes to its emission and stays there. -/
theorem emission_never_ends :
    let e := (ofBody (.fresh .tireless .weather)).after
      [.tick { EmitterTick.capped 1 with elapsed := 33554432 }]
    let t := EmitterTick.capped 1
    (e.movedParticles t).1.2 = none ∧ (e.prepared t).1.culled = false ∧
      (e.prepared t).1.doneEmitting = false ∧ ∀ n, (e.emission t n).2 = some .outOfFuel := by
  intro e t
  refine ⟨by decide +kernel, by decide +kernel, by decide +kernel, fun n => ?_⟩
  exact emitDue_of_lost (by decide +kernel) (by decide +kernel) (by decide +kernel)
    (by decide +kernel) _ n _

end Emitter
end EffectMachine
