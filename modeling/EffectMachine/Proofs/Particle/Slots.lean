import EffectMachine.Particle.Advance
import EffectMachine.Proofs.Tick

namespace EffectMachine

def Initializer.needed? : Initializer → Option SlotKind
  | velocityJitter _ => some .velocity
  | gravity _ => some .velocity
  | _ => none

/-- One more entry, under a key that was free. -/
theorem lookup_concat {β : Type} {entries : List (UInt32 × β)} {o : UInt32}
    (h : entries.lookup o = none) (b : β) (o' : UInt32) :
    (entries ++ [(o, b)]).lookup o' = if o' = o then some b else entries.lookup o' := by
  rw [List.lookup_append]
  by_cases ho : o' = o
  · subst ho
    simp [h]
  · have hb : (o' == o) = false := by simpa using ho
    cases entries.lookup o' <;> simp [List.lookup_cons, hb, ho]

namespace Slots

variable {s : Slots} {o : UInt32} {data : SlotData}

def kind? (s : Slots) (o : UInt32) : Option SlotKind := (s.entries.lookup o).map SlotData.kind

theorem allocate_of_taken (h : (s.kind? o).isSome = true) :
    s.allocate o data = .error (.duplicateAllocation o) := by
  have hl : (s.entries.lookup o).isSome = true := by simpa [kind?] using h
  rw [allocate, if_pos hl]

theorem allocate_of_free (h : s.kind? o = none) (data : SlotData) :
    s.allocate o data = .ok ⟨s.entries ++ [(o, data)]⟩ := by
  have hl : s.entries.lookup o = none := by simpa [kind?] using h
  have hn : ¬(s.entries.lookup o).isSome = true := by simp [hl]
  rw [allocate, if_neg hn]

/-- A free slot is filled, and no other changes. -/
theorem kind?_concat (h : s.kind? o = none) (data : SlotData) (o' : UInt32) :
    (Slots.mk (s.entries ++ [(o, data)])).kind? o' =
      if o' = o then some data.kind else s.kind? o' := by
  have hl : s.entries.lookup o = none := by simpa [kind?] using h
  simp only [kind?, lookup_concat hl]
  split <;> rfl

/-- Whatever succeeds in allocating leaves every slot that was taken as it was. -/
theorem lookup_of_allocate {s' : Slots} (h : s.allocate o data = .ok s') {o' : UInt32}
    {d : SlotData} (hd : s.entries.lookup o' = some d) : s'.entries.lookup o' = some d := by
  cases hk : s.kind? o with
  | some kind =>
    rw [allocate_of_taken (by simp [hk])] at h
    cases h
  | none =>
    rw [allocate_of_free hk] at h
    cases h
    rw [List.lookup_append, hd]
    rfl

/-- A write changes the data at its own offset and only where there is a slot. -/
theorem lookup_set (s : Slots) (o : UInt32) (data : SlotData) (o' : UInt32) :
    (s.set o data).entries.lookup o' =
      if o' = o then (s.entries.lookup o).map fun _ => data else s.entries.lookup o' := by
  obtain ⟨entries⟩ := s
  simp only [set]
  induction entries with
  | nil => simp
  | cons e entries ih =>
    obtain ⟨a, d⟩ := e
    by_cases ha : a = o
    · subst ha
      by_cases ho : o' = a
      · subst ho
        simp
      · have hb : (o' == a) = false := by simpa using ho
        simpa [List.lookup_cons, hb, ho] using ih
    · by_cases ho : o' = a
      · subst ho
        simp [ha]
      · have hb : (o' == a) = false := by simpa using ho
        have hb' : (o == a) = false := by simpa using Ne.symm ha
        simpa [List.lookup_cons, ha, hb, hb'] using ih

/-- A write to a slot of its kind changes no kind. -/
theorem kind?_set (h : s.kind? o = some data.kind) : (s.set o data).kind? = s.kind? := by
  funext o'
  simp only [kind?, lookup_set]
  split
  next ho =>
    subst ho
    cases hl : s.entries.lookup o' with
    | none => simp [kind?, hl] at h
    | some found => simpa [kind?, hl] using h.symm
  next => rfl

/-- What comes of an access to a slot that has to hold a kind. -/
inductive Accessed (s : Slots) (o : UInt32) {α : Type} (kind : SlotKind) :
    Except Fault α → Prop where
  | found (a : α) (slot : s.kind? o = some kind) : s.Accessed o kind (.ok a)
  | missing (free : s.kind? o = none) : s.Accessed o kind (.error (.missingSlot o))
  | other (found : SlotKind) (slot : s.kind? o = some found) (mismatch : found ≠ kind) :
      s.Accessed o kind (.error (.slotKind o kind found))

structure Readable (s : Slots) (o : UInt32) : Prop where
  velocity : s.Accessed o .velocity (s.velocity o)
  angularVelocity : s.Accessed o .angularVelocity (s.angularVelocity o)
  scaleVelocity : s.Accessed o .scaleVelocity (s.scaleVelocity o)
  colorTransform : s.Accessed o .colorTransform (s.colorTransform o)
  keyFrames : s.Accessed o .keyFrames (s.keyFrames o)
  orbit : s.Accessed o .orbit (s.orbit o)

/-- Every access to a slot either finds its kind or faults, at every offset. -/
theorem readable (s : Slots) (o : UInt32) : s.Readable o := by
  cases hl : s.entries.lookup o with
  | none =>
    have hk : s.kind? o = none := by simp [kind?, hl]
    constructor
    all_goals
      simp only [velocity, angularVelocity, scaleVelocity, colorTransform, keyFrames, orbit, get, hl]
      exact .missing hk
  | some data =>
    have hk : s.kind? o = some data.kind := by simp [kind?, hl]
    constructor
    all_goals
      simp only [velocity, angularVelocity, scaleVelocity, colorTransform, keyFrames, orbit, get, hl]
      cases data with
      | velocity | angularVelocity | scaleVelocity | colorTransform | keyFrames | orbit =>
        first
          | exact .found _ hk
          | exact .other _ hk (by simp [SlotData.kind])

end Slots

namespace ParticleBody

/-- The particle is still what it was, and owns the same sounds. -/
structure Same (p q : ParticleBody) : Prop where
  forcedExpired : q.forcedExpired = p.forcedExpired
  expirationHandled : q.expirationHandled = p.expirationHandled
  carrier : q.carrier = p.carrier
  sounds : q.sounds = p.sounds
  restarts : q.restarts = p.restarts

theorem Same.refl (p : ParticleBody) : p.Same p := ⟨rfl, rfl, rfl, rfl, rfl⟩

theorem Same.trans {p q r : ParticleBody} (h : p.Same q) (h' : q.Same r) : p.Same r :=
  ⟨h'.forcedExpired.trans h.forcedExpired, h'.expirationHandled.trans h.expirationHandled,
    h'.carrier.trans h.carrier, h'.sounds.trans h.sounds, h'.restarts.trans h.restarts⟩

/-- No slot has come or gone either, and none has changed its kind. -/
structure Keeps (p q : ParticleBody) : Prop extends p.Same q where
  kind? : q.slots.kind? = p.slots.kind?

theorem Keeps.trans {p q r : ParticleBody} (h : p.Keeps q) (h' : q.Keeps r) : p.Keeps r :=
  ⟨h.toSame.trans h'.toSame, h'.kind?.trans h.kind?⟩

/-- An instruction that needs a kind of slot runs where it has it; elsewhere it faults, and the
fault ends no more than the particle. -/
inductive Runs (p : ParticleBody) (met : Bool) : Except Fault ParticleBody → Prop where
  | through (q : ParticleBody) (slot : met = true) (keeps : p.Keeps q) : p.Runs met (.ok q)
  | fault (f : Fault) (slot : met = false) (mild : f.isFatal = false) : p.Runs met (.error f)

def has (p : ParticleBody) (o : UInt32) (needed? : Option SlotKind) : Bool :=
  needed?.all fun kind => p.slots.kind? o = some kind

variable {p : ParticleBody} {o : UInt32} {kind : SlotKind}

/-- What succeeds with a slot of its kind runs just where there is one. -/
theorem runs_of_accessed {α : Type} {x : Except Fault α} (hx : p.slots.Accessed o kind x)
    {f : α → Except Fault ParticleBody}
    (hf : ∀ a, p.slots.kind? o = some kind → ∃ q, f a = .ok q ∧ p.Keeps q) :
    p.Runs (p.has o (some kind)) (x >>= f) := by
  cases hx with
  | found a slot =>
    obtain ⟨q, hq, hk⟩ := hf a slot
    change p.Runs _ (f a)
    rw [hq]
    exact .through q (by simp [has, slot]) hk
  | missing free => exact .fault _ (by simp [has, free]) rfl
  | other found slot mismatch => exact .fault _ (by simp [has, slot, mismatch]) rfl

/-- Writing to the slot that was read. -/
theorem keeps_set {data : SlotData} (h : p.slots.kind? o = some data.kind) :
    p.Keeps { p with slots := p.slots.set o data } :=
  ⟨⟨rfl, rfl, rfl, rfl, rfl⟩, Slots.kind?_set h⟩

/-- An initializer that allocates nothing. -/
theorem initialized_runs (p : ParticleBody) (g : Generator) {i : Slotted Initializer}
    (ha : i.op.allocated? = none) (rng : Rng) :
    p.Runs (p.has i.offset i.op.needed?) (p.initialized g i rng).1 := by
  obtain ⟨o, op⟩ := i
  cases op with
  | velocity | angularVelocity | scaleVelocity | colorTransform | keyFrames | orbit => cases ha
  | velocityJitter extent =>
    refine runs_of_accessed (p.slots.readable o).velocity fun motion slot => ?_
    exact ⟨_, rfl, keeps_set slot⟩
  | gravity acceleration =>
    refine runs_of_accessed (p.slots.readable o).velocity fun motion slot => ?_
    exact ⟨_, rfl, keeps_set slot⟩
  | _ => exact .through _ rfl ⟨⟨rfl, rfl, rfl, rfl, rfl⟩, rfl⟩

/-- An initializer that allocates asks for a free slot. -/
theorem initialized_of_allocated (p : ParticleBody) (g : Generator) {i : Slotted Initializer}
    {kind : SlotKind} (ha : i.op.allocated? = some kind) (rng : Rng) :
    ∃ data : SlotData, data.kind = kind ∧
      (p.initialized g i rng).1 = p.allocate i.offset data := by
  obtain ⟨o, op⟩ := i
  cases op with
  | velocity | angularVelocity | scaleVelocity | colorTransform | keyFrames | orbit =>
    refine ⟨_, ?_, rfl⟩
    exact Option.some.inj ha
  | _ => cases ha

/-- Every updater that looks nothing up runs just where its slot is of the kind it needs. -/
theorem updated_runs (p : ParticleBody) (elapsed : Scalar) {u : Slotted Updater}
    (hu : u.op ≠ .applyKeyFrames) : p.Runs (p.has u.offset u.op.needed?) (p.updated elapsed u) := by
  obtain ⟨o, op⟩ := u
  have slots := p.slots.readable o
  cases op with
  | applyKeyFrames => exact absurd rfl hu
  | applyVelocity =>
    refine runs_of_accessed slots.velocity fun motion slot => ⟨_, rfl, ?_⟩
    exact ⟨⟨rfl, rfl, rfl, rfl, rfl⟩, Slots.kind?_set slot⟩
  | damping factor =>
    exact runs_of_accessed slots.velocity fun motion slot => ⟨_, rfl, keeps_set slot⟩
  | applyAngularVelocity =>
    exact runs_of_accessed slots.angularVelocity fun rate _ => ⟨_, rfl, ⟨⟨rfl, rfl, rfl, rfl, rfl⟩, rfl⟩⟩
  | applyScaleVelocity =>
    exact runs_of_accessed slots.scaleVelocity fun rate _ => ⟨_, rfl, ⟨⟨rfl, rfl, rfl, rfl, rfl⟩, rfl⟩⟩
  | applyColorTransform =>
    refine runs_of_accessed slots.colorTransform fun transform slot => ⟨_, rfl, ?_⟩
    exact ⟨⟨rfl, rfl, rfl, rfl, rfl⟩, Slots.kind?_set slot⟩
  | applyOrbit =>
    refine runs_of_accessed slots.orbit fun orbit slot => ⟨_, rfl, ?_⟩
    exact ⟨⟨rfl, rfl, rfl, rfl, rfl⟩, Slots.kind?_set slot⟩
  | fadeOut | fadeIn => exact .through _ rfl ⟨⟨rfl, rfl, rfl, rfl, rfl⟩, rfl⟩

theorem applyChannel_keeps (p : ParticleBody) (channel : KeyFrameChannel) (value : Scalar) :
    p.Keeps (p.applyChannel channel value) := by
  cases channel <;> exact ⟨⟨rfl, rfl, rfl, rfl, rfl⟩, rfl⟩

/-- The key frames of a slot run just where it holds a key-frame set. -/
theorem applyKeyFrames_runs (p : ParticleBody) (g : Generator) (o : UInt32) :
    (p.applyKeyFrames g o).Always (p.Runs (p.has o (some .keyFrames))) := by
  have slot := (p.slots.readable o).keyFrames
  unfold applyKeyFrames
  cases hx : p.slots.keyFrames o with
  | error f =>
    rw [hx] at slot
    have hn : p.has o (some .keyFrames) = false := by
      cases slot with
      | missing free => simp [has, free]
      | other found slot mismatch => simp [has, slot, mismatch]
    refine .pure (.fault f hn ?_)
    cases slot <;> rfl
  | ok track =>
    rw [hx] at slot
    cases slot with
    | found _ slot =>
      have hm : p.has o (some .keyFrames) = true := by simp [has, slot]
      refine .after _ fun track => ?_
      have hk : p.Keeps { p with slots := p.slots.set o (.keyFrames track) } := keeps_set slot
      dsimp only
      split
      · exact .pure (.through _ hm (hk.trans (applyChannel_keeps _ _ _)))
      · exact .pure (.through _ hm hk)

/-- An updater runs where its slot is of the kind that it needs. -/
theorem applyUpdater_runs (p : ParticleBody) (g : Generator) (elapsed : Scalar)
    (u : Slotted Updater) :
    (p.applyUpdater g elapsed u).Always (p.Runs (p.has u.offset u.op.needed?)) := by
  unfold applyUpdater
  split
  next hu =>
    rw [hu]
    exact p.applyKeyFrames_runs g u.offset
  next hu => exact .pure (p.updated_runs elapsed hu)

end ParticleBody
end EffectMachine
