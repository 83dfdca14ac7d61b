import EffectMachine.Proofs.Particle.Moves

namespace EffectMachine

def SlotMap.hasAll (m : SlotMap) (us : List (Slotted Updater)) : Bool :=
  us.all fun u => m.has u.offset u.op.needed?

theorem ParticleBody.Holds.hasAll {p : ParticleBody} {m : SlotMap} (h : p.Holds m)
    (us : List (Slotted Updater)) : p.hasAll us = m.hasAll us := by
  simp only [ParticleBody.hasAll, SlotMap.hasAll, h.has]

structure Pass where
  before : ParticleBody
  after : ParticleBody
  /-- The fault that ended the particle, if one did. -/
  fault? : Option Fault

namespace Particle

variable {g : Generator} {p : Particle} {t : ParticleTick}

def pass? (g : Generator) (p : Particle) (t : ParticleTick) : Option Pass :=
  if p.ownedMoved g t && (p.settled g t).isGrowing then
    let h := (p.movedEmitters g t).2
    let before := ((p.settled g t).hearing h).body.older t.elapsed
    some ⟨before, (before.applyUpdaters g t.elapsed g.updaters t.surroundings h).1,
      before.updaterFault? g t.elapsed t.surroundings g.updaters h⟩
  else none

def passes (g : Generator) : Particle → List Happening → List Pass
  | _, [] => []
  | p, .tick t :: hs => (p.pass? g t).toList ++ passes g (p.ticked g t).1.1 hs
  | p, .hush :: hs => passes g p.stopEmitters hs

theorem pass?_isSome : (p.pass? g t).isSome = (p.ownedMoved g t && (p.settled g t).isGrowing) := by
  rw [pass?]
  split
  next h => simp [h]
  next h => simp [h]

/-- One tick: a pass ends the particle unless all its updaters have their slots. -/
theorem ticked_faults (p : Particle) (g : Generator) (t : ParticleTick) :
    (p.ticked g t).1.1.body.forcedExpired =
        (p.body.forcedExpired || ((p.pass? g t).isSome && !p.body.hasAll g.updaters)) ∧
      (p.ticked g t).1.1.body.carrier = p.body.carrier ∧
      (p.ticked g t).1.1.body.slots.kind? = p.body.slots.kind? := by
  rw [pass?_isSome]
  cases ho : p.ownedMoved g t with
  | false =>
    rw [(ticked_of_not_ownedMoved ho).1]
    exact ⟨by simp, rfl, rfl⟩
  | true =>
    rw [ticked_of_ownedMoved ho, Bool.true_and]
    have hm := (p.settled g t).advanceSelf_moved (t.scope g) t.elapsed t.anchor t.surroundings
      (p.movedEmitters g t).2
    exact ⟨hm.forcedExpired, hm.carrier, hm.kind?⟩

/-- A pass faults where a slot is not of the kind that is needed, and that ends the particle. -/
theorem faults_of_pass {x : Pass} (h : p.pass? g t = some x) :
    p.body.forcedExpired = false ∧ x.fault?.isSome = !p.body.hasAll g.updaters ∧
      x.after.forcedExpired = x.fault?.isSome ∧ ∀ f, x.fault? = some f → f.isFatal = false := by
  rw [pass?] at h
  split at h
  next hr =>
    cases h
    simp only [Bool.and_eq_true] at hr
    have hlive : p.body.forcedExpired = false := by
      have hg := hr.2
      simp only [isGrowing, isExpired, Bool.and_eq_true, Bool.not_eq_true', Bool.or_eq_false_iff]
        at hg
      exact hg.2.1
    let before := ((p.settled g t).hearing (p.movedEmitters g t).2).body.older t.elapsed
    have hp := before.applyUpdaters_passed g t.elapsed g.updaters t.surroundings
      (p.movedEmitters g t).2
    have hf := before.updaterFault?_spec g t.elapsed t.surroundings g.updaters
      (p.movedEmitters g t).2
    have hb : before.forcedExpired = false := hlive
    refine ⟨hlive, hf.1, ?_, hf.2⟩
    rw [hp.forcedExpired, hb, Bool.false_or]
    exact hf.1.symm
  next => cases h

theorem pass?_of_expired (hf : p.body.forcedExpired = true) : p.pass? g t = none := by
  cases hx : p.pass? g t with
  | none => rfl
  | some x =>
    rw [(faults_of_pass hx).1] at hf
    cases hf

/-- What a fault has ended stays so, and runs no pass. -/
theorem after_of_expired (hs : List Happening) (hf : p.body.forcedExpired = true) :
    (p.after g hs).body.forcedExpired = true ∧ p.passes g hs = [] := by
  induction hs generalizing p with
  | nil => exact ⟨hf, rfl⟩
  | cons x hs ih =>
    cases x with
    | tick t =>
      have hx : (p.ticked g t).1.1.body.forcedExpired = true := by
        rw [(p.ticked_faults g t).1, hf, Bool.true_or]
      rw [after, passes, pass?_of_expired hf]
      exact ih hx
    | hush => exact ih (p.steady_stopEmitters.forcedExpired.trans hf)

theorem after_kind? (g : Generator) (p : Particle) (hs : List Happening) :
    (p.after g hs).body.slots.kind? = p.body.slots.kind? := by
  induction hs generalizing p with
  | nil => rfl
  | cons x hs ih =>
    cases x with
    | tick t => exact (ih _).trans (p.ticked_faults g t).2.2
    | hush => exact (ih _).trans p.steady_stopEmitters.kind?

theorem hasAll_of_kind? {p q : Particle} (h : q.body.slots.kind? = p.body.slots.kind?)
    (us : List (Slotted Updater)) : q.body.hasAll us = p.body.hasAll us := by
  simp only [ParticleBody.hasAll, ParticleBody.has, h]

/-- By induction on the run: with all slots in place no pass faults. -/
theorem after_of_hasAll (hs : List Happening) (hf : p.body.forcedExpired = false)
    (ha : p.body.hasAll g.updaters = true) :
    (p.after g hs).body.forcedExpired = false ∧ ∀ x ∈ p.passes g hs, x.fault? = none := by
  induction hs generalizing p with
  | nil => exact ⟨hf, by simp [passes]⟩
  | cons x hs ih =>
    cases x with
    | hush =>
      have hq := p.steady_stopEmitters
      exact ih (hq.forcedExpired.trans hf) ((hasAll_of_kind? hq.kind? _).trans ha)
    | tick t =>
      obtain ⟨hx, _, hk⟩ := p.ticked_faults g t
      rw [hf, ha, Bool.not_true, Bool.and_false, Bool.or_false] at hx
      obtain ⟨hend, hrest⟩ := ih hx ((hasAll_of_kind? hk _).trans ha)
      refine ⟨hend, fun y hy => ?_⟩
      rw [passes, List.mem_append, Option.mem_toList] at hy
      rcases hy with hy | hy
      · have hn := (faults_of_pass hy).2.1
        rw [ha] at hn
        exact Option.not_isSome_iff_eq_none.mp (by simp [hn])
      · exact hrest y hy

/-- By induction on the run: with a slot missing the first pass is the last. -/
theorem after_of_not_hasAll (hs : List Happening) (hf : p.body.forcedExpired = false)
    (ha : p.body.hasAll g.updaters = false) :
    ((p.after g hs).body.forcedExpired = false ∧ p.passes g hs = []) ∨
      (p.after g hs).body.forcedExpired = true ∧ ∃ x, x.fault?.isSome = true ∧ p.passes g hs = [x] := by
  induction hs generalizing p with
  | nil => exact .inl ⟨hf, rfl⟩
  | cons x hs ih =>
    cases x with
    | hush =>
      have hq := p.steady_stopEmitters
      exact ih (hq.forcedExpired.trans hf) ((hasAll_of_kind? hq.kind? _).trans ha)
    | tick t =>
      obtain ⟨hx, _, hk⟩ := p.ticked_faults g t
      rw [hf, ha, Bool.not_false, Bool.and_true, Bool.false_or] at hx
      rw [after, passes]
      cases hp : p.pass? g t with
      | none =>
        rw [hp] at hx
        exact ih hx ((hasAll_of_kind? hk _).trans ha)
      | some y =>
        rw [hp] at hx
        obtain ⟨hend, hnone⟩ := after_of_expired hs hx
        rw [hnone]
        refine .inr ⟨hend, y, ?_, rfl⟩
        rw [(faults_of_pass hp).2.1, ha]
        rfl

/-- Whether and when updaters end a particle that was born whole. -/
theorem after_faults (hs : List Happening) (hf : p.body.forcedExpired = false) :
    ((p.after g hs).body.forcedExpired = true ↔
        p.passes g hs ≠ [] ∧ p.body.hasAll g.updaters = false) ∧
      ∀ i x, (p.passes g hs)[i]? = some x →
        (x.fault?.isSome = true ↔ i = 0 ∧ p.body.hasAll g.updaters = false) := by
  cases ha : p.body.hasAll g.updaters with
  | true =>
    obtain ⟨hend, hall⟩ := after_of_hasAll hs hf ha
    refine ⟨by simp [hend], fun i x hx => ?_⟩
    simp [hall x (List.mem_of_getElem? hx)]
  | false =>
    rcases after_of_not_hasAll hs hf ha with ⟨hend, hnone⟩ | ⟨hend, y, hy, hone⟩
    · exact ⟨by simp [hend, hnone], by simp [hnone]⟩
    · refine ⟨by simp [hend, hone], fun i x hx => ?_⟩
      rw [hone] at hx
      cases i with
      | zero =>
        obtain rfl : y = x := by simpa using hx
        simp [hy]
      | succ i => simp at hx

/-- What the scan says of a generator, its particles do: a second allocation at one offset refuses
them, a jitter or gravity without a velocity ends them at birth, and an updater without its slot
ends them in the first pass of updaters. The kinds of the slots never change, and no allocation
overwrites a slot. -/
theorem slot_faults_decided (g : Generator) (binding : Binding) (depth : UInt8) (maxAge : Scalar)
    (anchor : Anchor) (r : Surroundings) (h : Host) :
    let x := (spawn ⟨g, binding, depth⟩ maxAge anchor r h).1
    (∀ f, x = .error f ↔ ∃ o, f = .duplicateAllocation o ∧ g.atBirth = .refused o) ∧
      (∀ p, x = .ok p →
        (p.body.forcedExpired = true ↔ g.atBirth = .stillborn) ∧
        (∀ hs, (p.after g hs).body.slots.kind? = p.body.slots.kind?) ∧
        (p.body.forcedExpired = true → ∀ hs, p.passes g hs = []) ∧
        ∀ m, g.atBirth = .whole m → p.body.slots.kind? = m.kind? ∧ ∀ hs,
          ((p.after g hs).body.forcedExpired = true ↔
            p.passes g hs ≠ [] ∧ m.hasAll g.updaters = false) ∧
          ∀ i pass, (p.passes g hs)[i]? = some pass →
            (pass.fault?.isSome = true ↔ i = 0 ∧ m.hasAll g.updaters = false)) ∧
      ∀ (s s' : Slots) (o o' : UInt32) (data d : SlotData), s.allocate o data = .ok s' →
        s.entries.lookup o' = some d → s'.entries.lookup o' = some d := by
  have hs := spawn_spawned ⟨g, binding, depth⟩ maxAge anchor r h
  dsimp only at hs ⊢
  generalize (spawn ⟨g, binding, depth⟩ maxAge anchor r h).1 = x at hs ⊢
  generalize g.atBirth = v at hs ⊢
  refine ⟨fun f => ?_, fun p hp => ?_, fun _ _ _ _ _ _ ha => Slots.lookup_of_allocate ha⟩
  · cases hs with
    | whole | stillborn => simp
    | refused o => simp [eq_comm]
  · subst hp
    refine ⟨?_, after_kind? g p, fun hf hs => (after_of_expired hs hf).2, fun m hm => ?_⟩
    · cases hs with
      | whole m p live => simp [live]
      | stillborn body expired => simp [expired]
    · subst hm
      cases hs with
      | whole m p live unhandled single holds =>
        refine ⟨holds, fun hs => ?_⟩
        rw [← holds.hasAll]
        exact after_faults hs live

end Particle

def Generator.plain (initializers : List (Slotted Initializer))
    (updaters : List (Slotted Updater)) : Generator where
  id := ⟨1, 0, 0, 0⟩
  origin := ResourcePath.root
  attach := .none
  sourceJoint := 0
  targetJoint := 0
  flags := {}
  interval := 1
  intervalVariance := 0
  perEmission := 1
  batchSlots := 0
  maxAge := 10
  maxAgeVariance := 0
  provider := ResourceId.none
  zoneLink := ResourceId.none
  baseScale := 1
  generatorUpdaters := []
  initializers := initializers
  updaters := updaters
  expiration := []

/-- Moves with a velocity, and asks for a spin in the slot of the velocity. -/
def Generator.lopsided : Generator :=
  .plain [⟨0, .velocity Vec3.zero⟩] [⟨0, .applyVelocity⟩, ⟨0, .applyAngularVelocity⟩]

def ParticleTick.bare : ParticleTick := ⟨.weather, 0, 1, Anchor.identity, .bare, .fresh⟩

example : Generator.lopsided.atBirth = .whole [(0, .velocity)] := by decide

namespace Particle

theorem lopsided_faults_first : ∃ p, (spawn ⟨.lopsided, .weather, 0⟩ 10 Anchor.identity .bare
    .fresh).1 = .ok p ∧ p.body.forcedExpired = false ∧
      (p.after .lopsided [.tick .bare, .tick .bare]).body.forcedExpired = true := by
  refine ⟨_, rfl, rfl, ?_⟩
  have hd := slot_faults_decided .lopsided .weather 0 10 Anchor.identity .bare .fresh
  obtain ⟨_, _, _, hm⟩ := hd.2.1 _ rfl
  refine ((hm [(0, .velocity)] rfl).2 [.tick .bare, .tick .bare]).1.mpr ⟨?_, rfl⟩
  intro hn
  have hl := congrArg List.length hn
  revert hl
  decide +kernel

end Particle
end EffectMachine
