import EffectMachine.Proofs.Particle.Caps
import EffectMachine.Proofs.Particle.Stopped

namespace EffectMachine

def ExpirationHandler.times : ExpirationHandler → Nat
  | .restart times => times.toNat
  | _ => 0

def mostRestarts (handlers : List (Slotted ExpirationHandler)) : Nat :=
  handlers.foldr (fun h most => max h.op.times most) 0

def Generator.mostRestarts (g : Generator) : Nat := EffectMachine.mostRestarts g.expiration

/-- By induction on the handlers: one of them is enough. -/
theorem ParticleBody.restartsAgain_iff {p : ParticleBody}
    {handlers : List (Slotted ExpirationHandler)} :
    p.restartsAgain handlers = true ↔ p.restarts.toNat < mostRestarts handlers := by
  induction handlers with
  | nil => simp [restartsAgain, mostRestarts]
  | cons h handlers ih =>
    have hx : p.restartsAgain (h :: handlers) = true ↔
        p.restarts.toNat < h.op.times ∨ p.restartsAgain handlers = true := by
      obtain ⟨o, op⟩ := h
      cases op <;> simp [restartsAgain, ExpirationHandler.times, UInt32.lt_iff_toNat_lt]
    rw [hx, ih]
    exact lt_max_iff.symm

/-- The counter holds as many restarts as any handler can ask for. -/
theorem mostRestarts_lt (handlers : List (Slotted ExpirationHandler)) :
    mostRestarts handlers < UInt32.size := by
  induction handlers with
  | nil => decide
  | cons h handlers ih =>
    obtain ⟨o, op⟩ := h
    refine max_lt ?_ ih
    cases op with
    | restart times => exact times.toNat_lt
    | _ => exact Nat.two_pow_pos 32

namespace Particle

variable {g : Generator} {p : Particle} {t : ParticleTick}

/-- The particle as its handlers find it. Its emitters are told to stop. -/
def dying (p : Particle) : Particle :=
  mk { p.stopEmitters.body with expirationHandled := true } p.stopEmitters.children
    p.stopEmitters.emitters

def revived (p : Particle) : Particle :=
  mk { p.body with restarts := p.body.restarts + 1, age := 0, expirationHandled := false }
    p.children p.emitters

theorem body_dying (p : Particle) :
    p.dying.body = { p.body with expirationHandled := true } := by
  rw [dying, body_mk, body_stopEmitters]

theorem endTick_of_dying (hx : p.isExpired = true) (hh : p.body.expirationHandled = false)
    (hf : p.body.forcedExpired = false) (scope : SpawnScope) :
    p.endTick scope = runHandlers scope p.dying scope.definition.expiration >>= fun q =>
      pure (if p.body.restartsAgain scope.definition.expiration then q.revived else q) := by
  have hs := p.body_stopEmitters
  rw [endTick, hx, hh, Bool.not_false, Bool.and_self, if_pos rfl, dying]
  generalize p.stopEmitters = q at hs ⊢
  obtain ⟨b, cs, es⟩ := q
  obtain rfl : b = p.body := hs
  rw [expire]
  dsimp only [body_mk, children_mk, emitters_mk]
  rw [hf, if_neg Bool.false_ne_true]
  refine congrArg (runHandlers scope _ _ >>= ·) (funext fun q => ?_)
  obtain ⟨b', cs', es'⟩ := q
  exact (apply_ite pure _ _ _).symm

structure HandlerRun where
  /-- The particle as the handlers find it. -/
  before : Particle
  /-- As they leave it. -/
  after : Particle
  /-- What the tick leaves of it. -/
  left : Particle

/-- The run that a tick brings, if it brings one. A particle that a fault has ended gets none. -/
def run? (g : Generator) (p : Particle) (t : ParticleTick) : Option HandlerRun :=
  if p.expires g t && !(p.grown g t).1.body.forcedExpired then
    let before := (p.grown g t).1.dying
    some ⟨before,
      (runHandlers (t.scope g) before g.expiration t.surroundings (p.grown g t).2).1,
      (p.ticked g t).1.1⟩
  else none

def runs (g : Generator) : Particle → List Happening → List HandlerRun
  | _, [] => []
  | p, .tick t :: hs => (p.run? g t).toList ++ runs g (p.ticked g t).1.1 hs
  | p, .hush :: hs => runs g p.stopEmitters hs

theorem grown_keeps (g : Generator) (p : Particle) (t : ParticleTick) :
    (p.grown g t).1.body.restarts = p.body.restarts ∧
      (p.grown g t).1.body.carrier = p.body.carrier := by
  rw [grown]
  split
  · exact ⟨rfl, rfl⟩
  · have hp := ((p.settled g t).hearing (p.movedEmitters g t).2).body.grow_passed g t.elapsed
      t.anchor t.surroundings (p.movedEmitters g t).2
    exact ⟨hp.restarts, hp.carrier⟩

theorem isExpired_of_single (h : p.body.carrier = false) :
    p.isExpired = (p.body.forcedExpired || decide (p.body.maxAge ≤ p.body.age)) := by
  rw [isExpired, h, if_neg Bool.false_ne_true]

/-- What a run of the handlers leaves: they start sounds and emitters, and then there is another
life for the particle or there is none. -/
structure HandlerRun.Follows (g : Generator) (p : Particle) (x : HandlerRun) : Prop where
  expired : x.before.isExpired = true
  unforced : x.before.body.forcedExpired = false
  restarts : x.before.body.restarts = p.body.restarts
  handled : x.before.body.expirationHandled = true
  adds : x.before.Adds x.after
  left : x.left = if p.body.restarts.toNat < g.mostRestarts then x.after.revived else x.after

/-- A run that a tick brings leaves what the tick leaves. -/
theorem run?_follows {x : HandlerRun} (h : p.run? g t = some x) :
    x.left = (p.ticked g t).1.1 ∧ x.Follows g p := by
  rw [run?] at h
  split at h
  case isFalse => cases h
  case isTrue hx =>
    cases h
    simp only [expires, Bool.and_eq_true, Bool.not_eq_true'] at hx
    obtain ⟨⟨⟨⟨ho, hc⟩, hd⟩, hh⟩, hf⟩ := hx
    obtain ⟨hr, hk⟩ := p.grown_keeps g t
    have hb := (p.grown g t).1.body_dying
    have ha := runHandlers_adds (t.scope g) (p.grown g t).1.dying g.expiration t.surroundings
      (p.grown g t).2
    refine ⟨rfl, ?_, by rw [hb, hf], by rw [hb, ← hr], by rw [hb], ha, ?_⟩
    · rw [isExpired_of_single (by rw [hb, hk, hc]), hb]
      rwa [isExpired_of_single (hk.trans hc)] at hd
    · dsimp only
      rw [ticked_of_single ho hc, endTick_of_dying hd hh hf, Tick.run_bind]
      simp only [Tick.run_pure, ParticleBody.restartsAgain_iff, hr]
      rfl

/-- A tick without a run starts nothing at its end. -/
theorem ticked_of_run?_none (ho : p.ownedMoved g t = true) (hc : p.body.carrier = false)
    (h : p.run? g t = none) :
    p.ticked g t = (((p.grown g t).1, none), (p.grown g t).2) ∨
      (p.grown g t).1.body.forcedExpired = true ∧
        p.ticked g t = (((p.grown g t).1.dying, none), (p.grown g t).2) := by
  rw [ticked_of_single ho hc]
  cases hd : (p.grown g t).1.isExpired && !(p.grown g t).1.body.expirationHandled with
  | false =>
    refine .inl ?_
    rw [endTick, hd, if_neg Bool.false_ne_true]
    rfl
  | true =>
    have hx : p.expires g t = true := by
      rw [expires, ho, hc, Bool.and_assoc, hd]
      rfl
    have hf : (p.grown g t).1.body.forcedExpired = true := by
      cases hf : (p.grown g t).1.body.forcedExpired with
      | true => rfl
      | false => simp [run?, hx, hf] at h
    have hh : (p.grown g t).1.body.expirationHandled = false := by
      simpa using (Bool.and_eq_true_iff.mp hd).2
    refine .inr ⟨hf, ?_⟩
    rw [endTick_of_forced hf, laidOut, hh]
    rfl

/-- Expired for good: a fault has ended the particle, or its handlers have run and it was not
started again. -/
structure IsOver (p : Particle) : Prop where
  single : p.IsSingle
  expired : p.isExpired = true
  closed : p.body.forcedExpired = true ∨ p.body.expirationHandled = true

theorem endTick_of_closed
    (h : p.body.forcedExpired = true ∨ p.body.expirationHandled = true) (scope : SpawnScope) :
    p.endTick scope = pure p.laidOut := by
  rcases h with hf | hh
  · exact endTick_of_forced hf scope
  · rw [endTick, laidOut, hh, Bool.not_true, Bool.and_false, if_neg Bool.false_ne_true, if_pos rfl]

theorem body_laidOut (p : Particle) :
    p.laidOut.body = { p.body with expirationHandled := true } := by
  obtain ⟨b, cs, es⟩ := p
  rw [laidOut]
  split
  next hh =>
    obtain ⟨⟩ := b
    cases hh
    rfl
  next => rw [body_mk, body_stopEmitters]

theorem emitters_laidOut_eq_nil : p.laidOut.emitters = [] ↔ p.emitters = [] := by
  rw [laidOut]
  split
  · exact Iff.rfl
  · rw [emitters_mk, emitters_stopEmitters, List.map_eq_nil_iff]

namespace IsOver

theorem isExpired_settled (h : p.IsOver) (g : Generator) (t : ParticleTick) :
    (p.settled g t).isExpired = true := by
  have hx := h.expired
  rw [isExpired_of_single h.single.carrier] at hx
  rw [isExpired_of_single (p := p.settled g t) h.single.carrier]
  exact hx

theorem grown_eq (h : p.IsOver) (g : Generator) (t : ParticleTick) :
    p.grown g t = ((p.settled g t).hearing (p.movedEmitters g t).2, (p.movedEmitters g t).2) := by
  rw [grown, if_pos (h.isExpired_settled g t)]
  rfl

/-- Of itself such a particle does nothing: its tick moves what it owns. -/
theorem ticked_eq (h : p.IsOver) (ho : p.ownedMoved g t = true) :
    p.ticked g t = ((((p.settled g t).hearing (p.movedEmitters g t).2).laidOut, none),
      (p.movedEmitters g t).2) := by
  have hq : ((p.settled g t).hearing (p.movedEmitters g t).2).body.forcedExpired = true ∨
      ((p.settled g t).hearing (p.movedEmitters g t).2).body.expirationHandled = true := h.closed
  rw [ticked_of_single ho h.single.carrier, h.grown_eq]
  dsimp only
  rw [endTick_of_closed hq]
  rfl

/-- What is over stays over in every tick. -/
theorem ticked (h : p.IsOver) (g : Generator) (t : ParticleTick) : (p.ticked g t).1.1.IsOver := by
  have hs := h.single.ticked g t
  have hx := h.expired
  rw [isExpired_of_single h.single.carrier] at hx
  cases ho : p.ownedMoved g t with
  | false =>
    have hb := (ticked_of_not_ownedMoved ho).1
    exact ⟨hs, by rw [isExpired_of_single hs.carrier, hb, hx], by rw [hb]; exact h.closed⟩
  | true =>
    have hb : (p.ticked g t).1.1.body =
        { ((p.settled g t).hearing (p.movedEmitters g t).2).body with
          expirationHandled := true } := by
      rw [h.ticked_eq ho, body_laidOut]
    exact ⟨hs, by rw [isExpired_of_single hs.carrier, hb]; exact hx, .inr (by rw [hb])⟩

theorem stopEmitters (h : p.IsOver) : p.stopEmitters.IsOver := by
  have hs := h.single.stopEmitters
  have hx := h.expired
  rw [isExpired_of_single h.single.carrier, ← body_stopEmitters, ← isExpired_of_single hs.carrier]
    at hx
  exact ⟨hs, hx, by rw [body_stopEmitters]; exact h.closed⟩

theorem pass? (h : p.IsOver) (g : Generator) (t : ParticleTick) : p.pass? g t = none := by
  rw [Particle.pass?, isGrowing, h.isExpired_settled, Bool.not_true, Bool.and_false, Bool.and_false,
    if_neg Bool.false_ne_true]

/-- A particle that is over gets no further run. -/
theorem run? (h : p.IsOver) (g : Generator) (t : ParticleTick) : p.run? g t = none := by
  rw [Particle.run?, expires, h.grown_eq]
  rcases h.closed with hf | hh
  · have hf : ((p.settled g t).hearing (p.movedEmitters g t).2).body.forcedExpired = true := hf
    rw [hf, Bool.not_true, Bool.and_false, if_neg Bool.false_ne_true]
  · have hh : ((p.settled g t).hearing (p.movedEmitters g t).2).body.expirationHandled = true := hh
    rw [hh, Bool.not_true, Bool.and_false, Bool.false_and, if_neg Bool.false_ne_true]

/-- By induction on what happens to it. -/
theorem after (h : p.IsOver) (g : Generator) (hs : List Happening) :
    (p.after g hs).IsOver ∧ p.passes g hs = [] ∧ p.runs g hs = [] := by
  induction hs generalizing p with
  | nil => exact ⟨h, rfl, rfl⟩
  | cons x hs ih =>
    cases x with
    | tick t =>
      rw [Particle.after, passes, runs, h.pass?, h.run?]
      exact ih (h.ticked g t)
    | hush => exact ih h.stopEmitters

theorem isComplete_iff (h : p.IsOver) (hh : p.body.expirationHandled = true) :
    p.isComplete = true ↔ p.emitters = [] ∧ p.body.sounds = [] := by
  simp [isComplete, h.expired, hh, h.single.children]

/-- The tick that finds all emitters and sounds of it at an end completes it. -/
theorem isComplete_ticked (h : p.IsOver) (ho : p.ownedMoved g t = true) :
    (p.ticked g t).1.1.isComplete = true ↔
      (∀ e ∈ (p.movedEmitters g t).1.1, e.isExpired = true) ∧
        ∀ sound ∈ p.body.sounds, (p.movedEmitters g t).2.stage.isPlaying sound = false := by
  have hl : (p.ticked g t).1.1 = ((p.settled g t).hearing (p.movedEmitters g t).2).laidOut := by
    rw [h.ticked_eq ho]
  have hh : (p.ticked g t).1.1.body.expirationHandled = true := by rw [hl, body_laidOut]
  rw [(h.ticked g t).isComplete_iff hh, hl, emitters_laidOut_eq_nil, body_laidOut]
  simp [settled, hearing]

end IsOver

/-- What holds of a particle from its last run of the handlers on, or from the fault that ends it,
whatever happens to it: it stays expired, no updater and no handler of it runs, and the tick that
finds all its emitters and sounds at an end completes it. -/
structure Over (g : Generator) (p : Particle) : Prop where
  expired : ∀ hs, (p.after g hs).isExpired = true
  passes : ∀ hs, p.passes g hs = []
  runs : ∀ hs, p.runs g hs = []
  rests : ∀ hs t, let q := p.after g hs
    q.ownedMoved g t = true → q.ticked g t =
      ((((q.settled g t).hearing (q.movedEmitters g t).2).laidOut, none), (q.movedEmitters g t).2)
  completes : ∀ hs t, let q := p.after g hs
    q.ownedMoved g t = true → ((q.ticked g t).1.1.isComplete = true ↔
      (∀ e ∈ (q.movedEmitters g t).1.1, e.isExpired = true) ∧
        ∀ sound ∈ q.body.sounds, (q.movedEmitters g t).2.stage.isPlaying sound = false)

/-- A particle that is over stays expired over any run, and runs no handler in it. -/
theorem IsOver.over (h : p.IsOver) (g : Generator) : p.Over g where
  expired hs := (h.after g hs).1.expired
  passes hs := (h.after g hs).2.1
  runs hs := (h.after g hs).2.2
  rests hs _ := (h.after g hs).1.ticked_eq
  completes hs _ := (h.after g hs).1.isComplete_ticked

/-- A particle that is not a carrier, with no more restarts than its handlers allow. -/
structure Lives (g : Generator) (p : Particle) : Prop where
  single : p.IsSingle
  restarts : p.body.restarts.toNat ≤ g.mostRestarts
  handled : p.body.expirationHandled = true → p.isExpired = true

theorem Lives.isOver (h : p.Lives g)
    (hc : p.body.forcedExpired = true ∨ p.body.expirationHandled = true) : p.IsOver :=
  ⟨h.single, hc.elim isExpired_of_forced h.handled, hc⟩

theorem Lives.stopEmitters (h : p.Lives g) : p.stopEmitters.Lives g := by
  have hs := h.single.stopEmitters
  have hh := h.handled
  rw [isExpired_of_single h.single.carrier, ← body_stopEmitters, ← isExpired_of_single hs.carrier]
    at hh
  exact ⟨hs, by rw [body_stopEmitters]; exact h.restarts, hh⟩

/-- A tick that brings no run of the handlers. -/
theorem Lives.unhandled (h : p.Lives g) (hr : p.run? g t = none) :
    (p.ticked g t).1.1.body.restarts = p.body.restarts ∧ (p.ticked g t).1.1.Lives g := by
  have hs := h.single.ticked g t
  suffices hx : (p.ticked g t).1.1.body.restarts = p.body.restarts ∧
      ((p.ticked g t).1.1.body.expirationHandled = true →
        (p.ticked g t).1.1.body.forcedExpired = true ∨ p.body.expirationHandled = true) by
    refine ⟨hx.1, hs, hx.1 ▸ h.restarts, fun hh => ?_⟩
    rcases hx.2 hh with hf | hh
    · exact isExpired_of_forced hf
    · exact ((h.isOver (.inr hh)).ticked g t).expired
  obtain ⟨hk, -⟩ := p.grown_keeps g t
  cases ho : p.ownedMoved g t with
  | false =>
    rw [(ticked_of_not_ownedMoved ho).1]
    exact ⟨rfl, .inr⟩
  | true =>
    rcases ticked_of_run?_none ho h.single.carrier hr with hq | ⟨hf, hq⟩
    · rw [hq, ← expirationHandled_grown g p t]
      exact ⟨hk, .inr⟩
    · rw [hq, body_dying]
      exact ⟨hk, fun _ => .inl hf⟩

/-- A run of the handlers that starts the particle again. The counter has room for it. -/
theorem Lives.again (h : p.Lives g) {x : HandlerRun} (hx : p.run? g t = some x)
    (hr : p.body.restarts.toNat < g.mostRestarts) :
    x.left = x.after.revived ∧ x.left.body.restarts.toNat = p.body.restarts.toNat + 1 ∧
      x.left.Lives g := by
  obtain ⟨hl, hf⟩ := run?_follows hx
  have hq : x.left = x.after.revived := by rw [hf.left, if_pos hr]
  have hn : x.left.body.restarts.toNat = p.body.restarts.toNat + 1 := by
    obtain ⟨sounds, emitters, ha⟩ := hf.adds
    have hb : x.left.body.restarts = p.body.restarts + 1 := by
      rw [hq, ha, ← hf.restarts]
      rfl
    have hm : g.mostRestarts < UInt32.size := mostRestarts_lt g.expiration
    rw [hb, UInt32.toNat_add, Nat.mod_eq_of_lt]
    · rfl
    · exact Nat.lt_of_le_of_lt hr hm
  refine ⟨hq, hn, hl ▸ h.single.ticked g t, hn ▸ hr, fun hh => ?_⟩
  rw [hq] at hh
  cases hh

/-- A run of the handlers that does not is the last. -/
theorem Lives.last (h : p.Lives g) {x : HandlerRun} (hx : p.run? g t = some x)
    (hr : ¬p.body.restarts.toNat < g.mostRestarts) :
    x.left = x.after ∧ x.left.body.expirationHandled = true ∧
      x.left.body.restarts = p.body.restarts ∧ x.left.IsOver := by
  obtain ⟨hl, hf⟩ := run?_follows hx
  have hs := h.single.ticked g t
  rw [← hl] at hs
  have hq : x.left = x.after := by rw [hf.left, if_neg hr]
  have hx := hf.expired
  obtain ⟨sounds, emitters, ha⟩ := hf.adds
  have hh : x.left.body.expirationHandled = true := by rw [hq, ha, body_mk, hf.handled]
  have hc : x.before.body.carrier = false := by
    have hc := hs.carrier
    rwa [hq, ha] at hc
  refine ⟨hq, hh, by rw [hq, ha, body_mk, hf.restarts], hs, ?_, .inr hh⟩
  rw [isExpired_of_single hc] at hx
  rw [isExpired_of_single hs.carrier, hq, ha]
  exact hx

/-- The run that finds so many restarts made: it makes one more as long as the handlers allow it,
and is the last run otherwise. -/
structure HandlerRun.Nth (g : Generator) (n : Nat) (x : HandlerRun) : Prop where
  due : x.before.isExpired = true ∧ x.before.body.forcedExpired = false ∧
    x.before.body.restarts.toNat = n
  again : n < g.mostRestarts → x.left = x.after.revived ∧ x.left.body.restarts.toNat = n + 1
  last : g.mostRestarts ≤ n →
    x.left = x.after ∧ x.left.body.expirationHandled = true ∧ x.left.Over g

theorem Lives.nth (h : p.Lives g) {x : HandlerRun} (hx : p.run? g t = some x) :
    x.Nth g p.body.restarts.toNat where
  due :=
    have hf := (run?_follows hx).2
    ⟨hf.expired, hf.unforced, by rw [hf.restarts]⟩
  again hr := ⟨(h.again hx hr).1, (h.again hx hr).2.1⟩
  last hr :=
    have hl := h.last hx (Nat.not_lt.mpr hr)
    ⟨hl.1, hl.2.1, hl.2.2.2.over g⟩

/-- The runs of the handlers after some that have been counted. -/
structure Counts (g : Generator) (p : Particle) (hs : List Happening) : Prop where
  length : p.body.restarts.toNat + (p.runs g hs).length ≤ g.mostRestarts + 1
  restarts : (p.after g hs).body.restarts.toNat =
    min (p.body.restarts.toNat + (p.runs g hs).length) g.mostRestarts
  lives : (p.after g hs).Lives g
  nth : ∀ i (x : HandlerRun), (p.runs g hs)[i]? = some x → x.Nth g (p.body.restarts.toNat + i)

/-- By induction on what happens to the particle. A run that starts it again leaves one run less to
come, and after one that does not there is none. -/
theorem Lives.counts (h : p.Lives g) (hs : List Happening) : p.Counts g hs := by
  induction hs generalizing p with
  | nil =>
    have hr := h.restarts
    refine ⟨?_, ?_, h, by simp [runs]⟩
    · rw [runs, List.length_nil]
      omega
    · rw [runs, List.length_nil, Nat.add_zero, Nat.min_eq_left hr]
      rfl
  | cons y hs ih =>
    cases y with
    | hush =>
      obtain ⟨hl, hr, hq, hn⟩ := ih h.stopEmitters
      rw [body_stopEmitters] at hl hr hn
      exact ⟨hl, hr, hq, hn⟩
    | tick t =>
      cases hx : p.run? g t with
      | none =>
        obtain ⟨hk, hq⟩ := h.unhandled hx
        obtain ⟨hl, hr, hq, hn⟩ := ih hq
        rw [hk] at hl hr hn
        have hruns : p.runs g (.tick t :: hs) = runs g (p.ticked g t).1.1 hs := by
          rw [runs, hx]
          rfl
        exact ⟨hruns ▸ hl, hruns ▸ hr, hq, hruns ▸ hn⟩
      | some x =>
        have hruns : p.runs g (.tick t :: hs) = x :: runs g (p.ticked g t).1.1 hs := by
          rw [runs, hx]
          rfl
        have first := h.nth hx
        have hxl := (run?_follows hx).1
        by_cases hm : p.body.restarts.toNat < g.mostRestarts
        · obtain ⟨-, hk, hq⟩ := h.again hx hm
          rw [hxl] at hk hq
          obtain ⟨hl, hr, hq, hn⟩ := ih hq
          rw [hk] at hl hr hn
          refine ⟨?_, ?_, hq, fun i z hz => ?_⟩
          · rw [hruns, List.length_cons]
            omega
          · rw [hruns, List.length_cons, after, hr, Nat.add_right_comm, Nat.add_assoc]
          · rw [hruns] at hz
            cases i with
            | zero => exact Option.some.inj hz ▸ first
            | succ i => exact Nat.add_right_comm _ 1 i ▸ hn i z hz
        · obtain ⟨-, -, hk, hover⟩ := h.last hx hm
          rw [hxl] at hk hover
          have hmost := h.restarts
          obtain ⟨-, hr, hq, -⟩ := ih ⟨hover.single, hk ▸ hmost, fun _ => hover.expired⟩
          rw [(hover.after g hs).2.2, hk] at hr
          rw [(hover.after g hs).2.2] at hruns
          refine ⟨?_, ?_, hq, fun i z hz => ?_⟩
          · rw [hruns, List.length_singleton]
            omega
          · rw [hruns, List.length_singleton, after, hr, List.length_nil]
            omega
          · rw [hruns] at hz
            cases i with
            | zero => exact Option.some.inj hz ▸ first
            | succ i => cases hz

/-- A new particle has had no restart. -/
theorem spawn_lives {scope : SpawnScope} {maxAge : Scalar} {anchor : Anchor} {r : Surroundings}
    {h : Host} (hp : (spawn scope maxAge anchor r h).1 = .ok p) :
    p.body.restarts = 0 ∧ p.Lives scope.definition := by
  have single := spawn_single scope maxAge anchor r h p hp
  have hs := spawn_spawned scope maxAge anchor r h
  rw [hp] at hs
  generalize scope.definition.atBirth = v at hs
  suffices hx : p.body.restarts = 0 ∧ p.body.expirationHandled = false by
    refine ⟨hx.1, single, ?_, fun hh => absurd hh (by simp [hx.2])⟩
    rw [hx.1]
    exact Nat.zero_le _
  cases hs with
  | whole _ _ _ unhandled _ _ unspent => exact ⟨unspent, unhandled⟩
  | stillborn _ _ unhandled _ _ unspent => exact ⟨unspent, unhandled⟩

/-- The handlers of a particle run at most once more than the largest number of restarts that one of
them allows, and a tick without a run starts nothing at its end. Each run up to that number starts
the particle again, at age zero and ready to expire, and counts one restart; the counter holds
exactly those. The run after them is the last, and from it on, or from a fault on, the particle is
over for ever. Its emitter or batch lets go of it in the tick that completes it. -/
theorem expiration_bounded (g : Generator) (binding : Binding) (depth : UInt8) (maxAge : Scalar)
    (anchor : Anchor) (r : Surroundings) (h : Host) (p : Particle)
    (hp : (spawn ⟨g, binding, depth⟩ maxAge anchor r h).1 = .ok p) (hs : List Happening) :
    (p.runs g hs).length ≤ g.mostRestarts + 1 ∧
      (∀ i (x : HandlerRun), (p.runs g hs)[i]? = some x →
        (x.before.isExpired = true ∧ x.before.body.forcedExpired = false ∧
          x.before.body.restarts.toNat = i) ∧
        (i < g.mostRestarts → x.left = x.after.revived ∧ x.left.body.age = 0 ∧
          x.left.body.expirationHandled = false ∧ x.left.body.restarts.toNat = i + 1) ∧
        (g.mostRestarts ≤ i → x.left = x.after ∧ x.left.body.expirationHandled = true ∧
          x.left.Over g)) ∧
      (let q := p.after g hs;
        q.body.restarts.toNat = min (p.runs g hs).length g.mostRestarts ∧
        (q.body.forcedExpired = true ∨ q.body.expirationHandled = true → q.Over g) ∧
        (q.body.expirationHandled = true →
          (q.isComplete = true ↔ q.emitters = [] ∧ q.body.sounds = [])) ∧
        ∀ t, q.ownedMoved g t = true → q.run? g t = none →
          q.ticked g t = (((q.grown g t).1, none), (q.grown g t).2) ∨
            (q.grown g t).1.body.forcedExpired = true ∧
              q.ticked g t = (((q.grown g t).1.dying, none), (q.grown g t).2)) ∧
      (∀ (e : Emitter) parent elapsed r h, (e.advance parent elapsed r h).1.2 = none →
        e.CarriesOn elapsed r (e.advance parent elapsed r h).1.1) ∧
      ∀ (b : Particle) (t : ParticleTick), b.body.carrier = true → (b.ticked g t).1.2 = none →
        ∃ moved, EachTicked g t.elapsed t.surroundings b.children moved ∧
          (b.ticked g t).1.1.children = moved.filter fun c => !c.isComplete := by
  obtain ⟨hz, hl⟩ := spawn_lives hp
  obtain ⟨hn, hr, hq, hruns⟩ := hl.counts hs
  have hz : p.body.restarts.toNat = 0 := by rw [hz]; rfl
  rw [hz, Nat.zero_add] at hn hr
  refine ⟨hn, fun i x hx => ?_, ⟨hr, fun hc => (hq.isOver hc).over g,
    fun hh => (hq.isOver (.inr hh)).isComplete_iff hh,
    fun _ ho => ticked_of_run?_none ho hq.single.carrier⟩,
    fun e parent elapsed r h => e.advance_carriesOn parent elapsed r h, fun _ _ => batch_carriesOn⟩
  have hx := hruns i x hx
  rw [hz, Nat.zero_add] at hx
  refine ⟨hx.due, fun hi => ?_, hx.last⟩
  obtain ⟨hv, hc⟩ := hx.again hi
  exact ⟨hv, by rw [hv]; rfl, by rw [hv]; rfl, hc⟩

end Particle

/-- Gives its particles a second life, and starts itself with each end. -/
def Generator.phoenix : Generator :=
  { Generator.plain [] [] with
    expiration := [⟨0, .spawnGenerator ⟨1, 0, 0, 0⟩⟩, ⟨0, .restart 1⟩, ⟨0, .restart 0⟩] }

example : Generator.phoenix.mostRestarts = 1 := by decide

namespace Particle

/-- Two runs, and a third tick that brings none. -/
theorem phoenix_rises_once : ∃ p, (spawn ⟨.phoenix, .weather, 0⟩ 1 Anchor.identity .bare
    .fresh).1 = .ok p ∧ (p.runs .phoenix [.tick .bare, .tick .bare, .tick .bare]).length = 2 ∧
      (p.after .phoenix [.tick .bare, .tick .bare, .tick .bare]).Over .phoenix := by
  refine ⟨_, rfl, by decide +kernel, ?_⟩
  have hx := expiration_bounded .phoenix .weather 0 1 Anchor.identity .bare .fresh _ rfl
    [.tick .bare, .tick .bare, .tick .bare]
  exact hx.2.2.1.2.1 (.inr (by decide +kernel))

end Particle
end EffectMachine
