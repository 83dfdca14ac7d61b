import EffectMachine.Proofs.Particle.Slots

namespace EffectMachine

abbrev SlotMap := List (UInt32 × SlotKind)

inductive BirthVerdict where
  | whole (slots : SlotMap)
  /-- A slot fault ends the particle at once. -/
  | stillborn
  /-- A second allocation at one offset. -/
  | refused (offset : UInt32)
deriving DecidableEq

namespace SlotMap

def kind? (m : SlotMap) (o : UInt32) : Option SlotKind := m.lookup o

def has (m : SlotMap) (o : UInt32) (needed? : Option SlotKind) : Bool :=
  needed?.all fun kind => m.kind? o = some kind

def scan : SlotMap → List (Slotted Initializer) → BirthVerdict
  | m, [] => .whole m
  | m, i :: is =>
    match i.op.allocated? with
    | some kind =>
      if (m.kind? i.offset).isSome then .refused i.offset else scan (m ++ [(i.offset, kind)]) is
    | none => if m.has i.offset i.op.needed? then scan m is else .stillborn

end SlotMap

theorem Draw.run_bind {α β : Type} (x : Draw α) (f : α → Draw β) (rng : Rng) :
    (x >>= f) rng = f (x rng).1 (x rng).2 := rfl

/-- What a scan of its initializers says of a generator. -/
def Generator.atBirth (g : Generator) : BirthVerdict := SlotMap.scan [] g.initializers

namespace ParticleBody

def Holds (p : ParticleBody) (m : SlotMap) : Prop := p.slots.kind? = m.kind?

theorem Holds.has {p : ParticleBody} {m : SlotMap} (h : p.Holds m) (o : UInt32)
    (needed? : Option SlotKind) : p.has o needed? = m.has o needed? := by
  simp only [ParticleBody.has, SlotMap.has, show p.slots.kind? = m.kind? from h]

/-- A run of initializers ends as the scan says. -/
inductive Bears (p : ParticleBody) : BirthVerdict → Birth → Prop where
  | whole (m : SlotMap) (q : ParticleBody) (same : p.Same q) (holds : q.Holds m) :
      p.Bears (.whole m) (.whole q)
  | terminated (q : ParticleBody) (f : Fault) (same : p.Same q) (mild : f.isFatal = false) :
      p.Bears .stillborn (.terminated q f)
  | refused (o : UInt32) : p.Bears (.refused o) (.refused (.duplicateAllocation o))

variable {p q : ParticleBody} {m : SlotMap}

theorem Bears.of_same {v : BirthVerdict} {b : Birth} (h : p.Same q) (hb : q.Bears v b) :
    p.Bears v b := by
  cases hb with
  | whole m r same holds => exact .whole m r (h.trans same) holds
  | terminated r f same mild => exact .terminated r f (h.trans same) mild
  | refused o => exact .refused o

/-- An allocation succeeds where the map has nothing yet. -/
theorem initialized_allocates (hm : p.Holds m) (g : Generator) {i : Slotted Initializer}
    {kind : SlotKind} (ha : i.op.allocated? = some kind) (hf : m.kind? i.offset = none)
    (rng : Rng) : ∃ q, (p.initialized g i rng).1 = .ok q ∧ p.Same q ∧
      q.Holds (m ++ [(i.offset, kind)]) := by
  obtain ⟨data, hk, hx⟩ := p.initialized_of_allocated g ha rng
  have hfree : p.slots.kind? i.offset = none := (congrFun hm i.offset).trans hf
  refine ⟨{ p with slots := ⟨p.slots.entries ++ [(i.offset, data)]⟩ }, ?_, ⟨rfl, rfl, rfl, rfl, rfl⟩, ?_⟩
  · rw [hx, allocate, Slots.allocate_of_free hfree]
    rfl
  · funext o'
    have ho : p.slots.kind? o' = m.kind? o' := congrFun hm o'
    rw [Slots.kind?_concat hfree, hk, ho]
    exact (lookup_concat hf kind o').symm

theorem initialized_of_taken (hm : p.Holds m) (g : Generator) {i : Slotted Initializer}
    {kind : SlotKind} (ha : i.op.allocated? = some kind) (ht : (m.kind? i.offset).isSome = true)
    (rng : Rng) : (p.initialized g i rng).1 = .error (.duplicateAllocation i.offset) := by
  obtain ⟨data, _, hx⟩ := p.initialized_of_allocated g ha rng
  have htaken : (p.slots.kind? i.offset).isSome = true := by
    rw [show p.slots.kind? = m.kind? from hm]
    exact ht
  rw [hx, allocate, Slots.allocate_of_taken htaken]
  rfl

/-- By induction on the initializers, with the slots allocated so far in the map. -/
theorem initializedAll_bears (g : Generator) (is : List (Slotted Initializer)) (hm : p.Holds m)
    (rng : Rng) : p.Bears (m.scan is) (p.initializedAll g is rng).1 := by
  induction is generalizing p m rng with
  | nil => exact .whole m p (.refl p) hm
  | cons i is ih =>
    rw [initializedAll, Draw.run_bind, SlotMap.scan]
    cases ha : i.op.allocated? with
    | some kind =>
      dsimp only
      split
      next ht =>
        rw [initialized_of_taken hm g ha ht]
        exact .refused i.offset
      next hf =>
        have hf : m.kind? i.offset = none := by simpa using hf
        obtain ⟨q, hq, hs, hh⟩ := initialized_allocates hm g ha hf rng
        rw [hq]
        exact .of_same hs (ih hh _)
    | none =>
      have hr := p.initialized_runs g ha rng
      rw [hm.has] at hr
      dsimp only
      cases hv : (p.initialized g i rng).1 with
      | ok q =>
        rw [hv] at hr
        cases hr with
        | through _ slot keeps =>
          rw [if_pos slot]
          exact .of_same keeps.toSame (ih (keeps.kind?.trans hm) _)
      | error f =>
        rw [hv] at hr
        cases hr with
        | fault _ slot mild =>
          rw [if_neg (by simp [slot])]
          dsimp only
          rw [mild, if_neg Bool.false_ne_true]
          exact .terminated p f (.refl p) mild

end ParticleBody

namespace Particle

@[simp] theorem body_mk (b : ParticleBody) (cs : List Particle) (es : List Emitter) :
    (mk b cs es).body = b := rfl

@[simp] theorem children_mk (b : ParticleBody) (cs : List Particle) (es : List Emitter) :
    (mk b cs es).children = cs := rfl

@[simp] theorem emitters_mk (b : ParticleBody) (cs : List Particle) (es : List Emitter) :
    (mk b cs es).emitters = es := rfl

def Adds (p q : Particle) : Prop :=
  ∃ sounds emitters, q = mk { p.body with sounds := p.body.sounds ++ sounds } p.children
    (p.emitters ++ emitters)

theorem Adds.refl (p : Particle) : p.Adds p := by
  obtain ⟨b, cs, es⟩ := p
  exact ⟨[], [], by simp⟩

theorem Adds.trans {p q r : Particle} (h : p.Adds q) (h' : q.Adds r) : p.Adds r := by
  obtain ⟨sounds, emitters, rfl⟩ := h
  obtain ⟨sounds', emitters', rfl⟩ := h'
  exact ⟨sounds ++ sounds', emitters ++ emitters', by simp⟩

theorem adds_emitters (b : ParticleBody) (cs : List Particle) (es new : List Emitter) :
    (mk b cs es).Adds (mk b cs (es ++ new)) :=
  ⟨[], new, by simp⟩

theorem adds_sounds (b : ParticleBody) (cs : List Particle) (es : List Emitter)
    (new : List SoundHandle) :
    (mk b cs es).Adds (mk { b with sounds := b.sounds ++ new } cs es) :=
  ⟨new, [], by simp⟩

theorem startOwned_adds (scope : SpawnScope) (p : Particle) (is : List (Slotted Initializer)) :
    (ParticleBody.startOwned scope p is).Always p.Adds := by
  induction is generalizing p with
  | nil => exact .pure (.refl p)
  | cons i is ih =>
    obtain ⟨b, cs, es⟩ := p
    unfold ParticleBody.startOwned
    split
    · exact .after _ fun emitter => (ih _).mono fun _ => (adds_emitters ..).trans
    · exact .after _ fun handle => (ih _).mono fun _ => (adds_sounds ..).trans
    · exact ih _

/-- A new particle is what the scan of its generator says. -/
inductive Spawned : BirthVerdict → Except Fault Particle → Prop where
  | whole (m : SlotMap) (p : Particle) (live : p.body.forcedExpired = false)
      (unhandled : p.body.expirationHandled = false) (single : p.body.carrier = false)
      (holds : p.body.Holds m) (unspent : p.body.restarts = 0) : Spawned (.whole m) (.ok p)
  | stillborn (body : ParticleBody) (expired : body.forcedExpired = true)
      (unhandled : body.expirationHandled = false) (single : body.carrier = false)
      (silent : body.sounds = []) (unspent : body.restarts = 0) :
      Spawned .stillborn (.ok (mk body [] []))
  | refused (o : UInt32) : Spawned (.refused o) (.error (.duplicateAllocation o))

/-- What comes of a spawn is what the scan of the generator says. -/
theorem spawn_spawned (scope : SpawnScope) (maxAge : Scalar) (anchor : Anchor) :
    (spawn scope maxAge anchor).Always (Spawned scope.definition.atBirth) := by
  intro r h
  have hb := ParticleBody.initializedAll_bears (p := .blank scope.definition maxAge anchor) (m := [])
    scope.definition scope.definition.initializers rfl h.rng
  rw [spawn, Tick.run_bind]
  change (ParticleBody.blank scope.definition maxAge anchor).Bears scope.definition.atBirth
    (Tick.draw _ r h).1 at hb
  generalize Tick.draw _ r h = x at hb ⊢
  generalize scope.definition.atBirth = v at hb ⊢
  obtain ⟨birth, h'⟩ := x
  cases hb with
  | whole m q same holds =>
    have ha := startOwned_adds scope (mk (q.recompute anchor) [] []) scope.definition.initializers
      r h'
    obtain ⟨sounds, emitters, ha⟩ := ha
    dsimp only
    rw [Tick.run_bind, Tick.run_pure, ha]
    exact .whole m _ same.forcedExpired same.expirationHandled same.carrier holds same.restarts
  | terminated q f same mild =>
    exact .stillborn _ rfl same.expirationHandled same.carrier same.sounds same.restarts
  | refused o => exact .refused o

end Particle
end EffectMachine
