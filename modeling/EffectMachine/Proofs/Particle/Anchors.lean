import EffectMachine.Proofs.Particle.AnchorNotices
import EffectMachine.Proofs.Particle.Timing

namespace EffectMachine

structure Mooring where
  anchor : Anchor
  resolved : Bool
  /-- A missing anchor was noted. -/
  noted : Bool

namespace Mooring

def next (snapshot : Bool) (m : Mooring) (found? : Option Anchor) : Mooring :=
  if m.resolved && snapshot then m
  else
    match found? with
    | some anchor => { m with anchor, resolved := true }
    | none => { m with noted := true }

variable {snapshot : Bool} {m : Mooring} {found? : Option Anchor}

theorem next_of_kept (hm : (m.resolved && snapshot) = true) : m.next snapshot found? = m :=
  if_pos hm

theorem next_some (hm : ¬(m.resolved && snapshot) = true) (anchor : Anchor) :
    m.next snapshot (some anchor) = { m with anchor, resolved := true } :=
  if_neg hm

theorem next_none (hm : ¬(m.resolved && snapshot) = true) :
    m.next snapshot none = { m with noted := true } :=
  if_neg hm

@[simp] theorem resolved_next :
    (m.next snapshot found?).resolved = (m.resolved || found?.isSome) := by
  by_cases hm : (m.resolved && snapshot) = true
  · rw [next_of_kept hm, (Bool.and_eq_true_iff.mp hm).1, Bool.true_or]
  · cases found? with
    | some anchor => rw [next_some hm, Option.isSome_some, Bool.or_true]
    | none => rw [next_none hm, Option.isSome_none, Bool.or_false]

theorem anchor_next (hm : snapshot = false ∨ m.resolved = false) :
    (m.next snapshot found?).anchor = found?.getD m.anchor := by
  have hn : ¬(m.resolved && snapshot) = true := by
    rcases hm with hm | hm <;> simp [hm]
  cases found? with
  | some anchor => rw [next_some hn, Option.getD_some]
  | none => rw [next_none hn, Option.getD_none]

/-- By induction on the ticks: what was resolved for a snapshot stays. -/
theorem foldl_next_of_resolved (hm : m.resolved = true) (founds : List (Option Anchor)) :
    founds.foldl (next true) m = m := by
  induction founds with
  | nil => rfl
  | cons found? founds ih => rw [List.foldl_cons, next_of_kept (by rw [hm, Bool.and_true]), ih]

theorem noted_next (hm : m.noted = true) : (m.next snapshot found?).noted = true := by
  by_cases hk : (m.resolved && snapshot) = true
  · rw [next_of_kept hk, hm]
  · cases found? with
    | some anchor => rw [next_some hk, hm]
    | none => rw [next_none hk]

theorem noted_foldl (hm : m.noted = true) (founds : List (Option Anchor)) :
    (founds.foldl (next snapshot) m).noted = true := by
  induction founds generalizing m with
  | nil => exact hm
  | cons found? founds ih => exact ih (noted_next hm)

end Mooring

namespace EmitterBody

def isSnapshot (e : EmitterBody) : Bool :=
  let context := e.binding.context
  context.snapshotPosition || (context.snapshotJoints && e.definition.attach.usesJoints) ||
    e.definition.generatorUpdaters.contains .snapshotAnchor

def mooring (e : EmitterBody) : Mooring := ⟨e.anchor, e.anchorResolved, e.anchorMissingNoted⟩

def sighted? (e : EmitterBody) (t : EmitterTick) : Option Anchor :=
  { e with lifetime := e.lifetime + t.elapsed }.resolved? t.surroundings

theorem frozen_eq (e : EmitterBody) : e.frozen = (e.mooring.resolved && e.isSnapshot) := rfl

def withMooring (e : EmitterBody) (m : Mooring) : EmitterBody :=
  { e with anchor := m.anchor, anchorResolved := m.resolved, anchorMissingNoted := m.noted }

/-- Attached as before, with this mooring. -/
structure MooredAt (e : EmitterBody) (m : Mooring) (e' : EmitterBody) : Prop where
  definition : e'.definition = e.definition
  binding : e'.binding = e.binding
  follow : e'.follow = e.follow
  parentAnchor : e'.parentAnchor = e.parentAnchor
  mooring : e'.mooring = m

/-- The notice that is left when the anchor is missing and that was not noted before. -/
def complaint (e : EmitterBody) (m : Mooring) : Log :=
  if !e.mooring.noted && m.noted then [.anchorMissing e.definition.id e.definition.attach] else []

variable {e e' e'' : EmitterBody} {m m' : Mooring} {r : Surroundings}

theorem MooredAt.refl (e : EmitterBody) : e.MooredAt e.mooring e := ⟨rfl, rfl, rfl, rfl, rfl⟩

theorem MooredAt.trans (h : e.MooredAt m e') (h' : e'.MooredAt m' e'') : e.MooredAt m' e'' where
  definition := h'.definition.trans h.definition
  binding := h'.binding.trans h.binding
  follow := h'.follow.trans h.follow
  parentAnchor := h'.parentAnchor.trans h.parentAnchor
  mooring := h'.mooring

theorem MooredAt.isSnapshot (h : e.MooredAt m e') : e'.isSnapshot = e.isSnapshot := by
  simp only [EmitterBody.isSnapshot, h.binding, h.definition]

theorem mooredAt_withMooring (e : EmitterBody) (m : Mooring) : e.MooredAt m (e.withMooring m) :=
  ⟨rfl, rfl, rfl, rfl, rfl⟩

theorem complaint_self (e : EmitterBody) : e.complaint e.mooring = [] := by
  simp [complaint]

theorem complaint_of_noted (hn : e.mooring.noted = true) (m : Mooring) : e.complaint m = [] := by
  simp [complaint, hn]

theorem length_complaint (e : EmitterBody) (m : Mooring) :
    (e.complaint m).length + e.anchorMissingNoted.toNat ≤ 1 := by
  unfold complaint
  split
  next hn =>
    have hf : e.anchorMissingNoted = false :=
      (Bool.not_eq_true' _).mp (Bool.and_eq_true_iff.mp hn).1
    rw [hf]
    rfl
  next => simpa using Bool.toNat_le _

theorem filter_complaint (e : EmitterBody) (m : Mooring) :
    (e.complaint m).filter Notice.isAnchorMissing = e.complaint m := by
  unfold complaint
  split <;> rfl

/-- What is noted once is not told again. -/
theorem MooredAt.complaint_append (h : e.MooredAt m e')
    (he : e.mooring.noted = true → m.noted = true) (hm : m.noted = true → m'.noted = true) :
    e'.complaint m' ++ e.complaint m = e.complaint m' := by
  simp only [complaint, h.definition, h.mooring]
  cases hn : m.noted with
  | true => simp [hm hn]
  | false =>
    have hf : e.mooring.noted = false := by
      rw [← Bool.not_eq_true] at hn ⊢
      exact mt he hn
    simp [hf]

theorem updateAnchor_of_frozen (free : e.parentAnchor = none) (hf : e.frozen = true) (h : Host) :
    e.updateAnchor r h = (e, h) := by
  rw [updateAnchor, free]
  dsimp only
  rw [if_pos hf]
  rfl

theorem updateAnchor_of_some (free : e.parentAnchor = none) (hf : e.frozen ≠ true)
    {anchor : Anchor} (hr : e.resolved? r = some anchor) (h : Host) :
    e.updateAnchor r h = ({ e with anchor, anchorResolved := true }, h) := by
  rw [updateAnchor, free]
  dsimp only
  rw [if_neg hf, Tick.run_read_bind, hr, ← free]
  rfl

/-- A tick that finds no anchor keeps the last one, and tells of it the first time. -/
theorem updateAnchor_of_none (free : e.parentAnchor = none) (hf : e.frozen ≠ true)
    (hr : e.resolved? r = none) (h : Host) :
    e.updateAnchor r h =
      ({ e with anchorMissingNoted := true },
        { h with log := e.complaint { e.mooring with noted := true } ++ h.log }) := by
  rw [updateAnchor, free]
  dsimp only
  rw [if_neg hf, Tick.run_read_bind, hr]
  dsimp only
  rw [← free]
  by_cases hn : e.anchorMissingNoted = true
  · have same : { e with anchorMissingNoted := true } = e := by rw [← hn]
    rw [if_pos hn, complaint_of_noted hn, same]
    rfl
  · rw [if_neg hn, complaint, mooring, Bool.eq_false_iff.mpr hn]
    rfl

/-- How an emitter looks for its anchor, without a parent anchor. -/
theorem updateAnchor_eq (free : e.parentAnchor = none) (r : Surroundings) (h : Host) :
    let m := e.mooring.next e.isSnapshot (e.resolved? r)
    e.updateAnchor r h = (e.withMooring m, { h with log := e.complaint m ++ h.log }) := by
  dsimp only
  by_cases hf : e.frozen = true
  · have hm : (e.mooring.resolved && e.isSnapshot) = true := e.frozen_eq ▸ hf
    rw [Mooring.next_of_kept hm, updateAnchor_of_frozen free hf, complaint_self]
    rfl
  · have hm : ¬(e.mooring.resolved && e.isSnapshot) = true := e.frozen_eq ▸ hf
    cases hr : e.resolved? r with
    | some anchor =>
      rw [Mooring.next_some hm, updateAnchor_of_some free hf hr, complaint, Bool.not_and_self]
      rfl
    | none =>
      rw [Mooring.next_none hm, updateAnchor_of_none free hf hr]
      rfl

theorem applyUpdater_moored (e : EmitterBody) (elapsed : Scalar) (u : GeneratorUpdater) :
    (e.applyUpdater elapsed u).Always (e.MooredAt e.mooring) := by
  cases u with
  | distanceCull | baseJitter => exact .after _ fun _ => .pure ⟨rfl, rfl, rfl, rfl, rfl⟩
  | _ => exact .pure ⟨rfl, rfl, rfl, rfl, rfl⟩

theorem applyUpdaters_moored (elapsed : Scalar) (us : List GeneratorUpdater) (e : EmitterBody) :
    (us.foldlM (fun (e : EmitterBody) u => e.applyUpdater elapsed u) e).Always
      (e.MooredAt e.mooring) :=
  .foldlM (fun d u h => (d.applyUpdater_moored elapsed u).mono fun _ hd =>
    h.trans (h.mooring ▸ hd)) us (.refl e)

/-- The emitter's own part of a tick looks for the anchor once. -/
theorem prepare_moored (free : e.parentAnchor = none) (t : EmitterTick) :
    let m := e.mooring.next e.isSnapshot (e.sighted? t)
    let x := e.prepare t.elapsed t.surroundings t.host
    e.MooredAt m x.1 ∧
      HostOrder.reticent.rel { t.host with log := e.complaint m ++ t.host.log } x.2 := by
  intro m
  let older := { e with lifetime := e.lifetime + t.elapsed }
  let us := e.definition.generatorUpdaters
  have run : e.prepare t.elapsed t.surroundings t.host =
      us.foldlM (fun (e : EmitterBody) u => e.applyUpdater t.elapsed u) (older.withMooring m)
        t.surroundings { t.host with log := e.complaint m ++ t.host.log } := by
    have found := updateAnchor_eq (e := older) free t.surroundings t.host
    have first : e.prepare t.elapsed = (older.updateAnchor >>= fun e =>
      e.definition.generatorUpdaters.foldlM
        (fun (e : EmitterBody) u => e.applyUpdater t.elapsed u) e) := rfl
    rw [first, Tick.run_bind, found]
    rfl
  dsimp only
  rw [run]
  refine ⟨?_, ?_⟩
  · have kept := (older.withMooring m).applyUpdaters_moored t.elapsed us t.surroundings
    exact { (older.mooredAt_withMooring m).trans (kept _) with }
  · exact reticent_applyUpdaters t.elapsed us _ _

end EmitterBody

namespace Emitter

def noticed (e : Emitter) (t : EmitterTick) : Log :=
  (e.ticked t).2.log.take ((e.ticked t).2.log.length - t.host.log.length)

def notices : Emitter → List Happening → Log
  | _, [] => []
  | e, .tick t :: hs => (e.ticked t).1.1.notices hs ++ e.noticed t
  | e, .stop :: hs => e.stop.notices hs

def sightings : Emitter → List Happening → List (Option Anchor)
  | _, [] => []
  | e, .tick t :: hs => e.body.sighted? t :: (e.ticked t).1.1.sightings hs
  | e, .stop :: hs => e.stop.sightings hs

def Happening.IsFree : Happening → Prop
  | .tick t => t.parent = none
  | .stop => True

def mooringAfter (e : Emitter) (hs : List Happening) : Mooring :=
  (e.sightings hs).foldl (Mooring.next e.body.isSnapshot) e.body.mooring

variable {e : Emitter} {t : EmitterTick} {hs : List Happening}

theorem OnlyEmits.mooredAt {b b' : EmitterBody} (h : OnlyEmits b b') : b.MooredAt b.mooring b' := by
  rw [h]
  exact ⟨rfl, rfl, rfl, rfl, rfl⟩

/-- Without any parent anchor, the emitter's own part of a tick begins with the emitter as it is. -/
theorem prepared_of_free (free : e.body.parentAnchor = none) (ht : t.parent = none) :
    e.prepared t = e.body.prepare t.elapsed t.surroundings t.host := by
  rw [prepared, ht, free, Option.none_or, ← free]

/-- A tick looks for the anchor once, and tells of a missing one only then. -/
theorem ticked_moored (free : e.body.parentAnchor = none) (ht : t.parent = none) :
    let m := e.body.mooring.next e.body.isSnapshot (e.body.sighted? t)
    e.body.MooredAt m (e.ticked t).1.1.body ∧ (e.ticked t).2.log = e.noticed t ++ t.host.log ∧
      (e.noticed t).filter Notice.isAnchorMissing = e.body.complaint m := by
  intro m
  obtain ⟨moored, told⟩ := EmitterBody.prepare_moored free t
  rw [← prepared_of_free free ht] at moored told
  obtain ⟨new, log, quiet⟩ := HostOrder.reticent.trans told (e.reticent_ticked t)
  dsimp only at log
  have hn : e.noticed t = new ++ e.body.complaint m := by
    rw [noticed, log, ← List.append_assoc, List.length_append, Nat.add_sub_cancel, List.take_left]
  refine ⟨?_, ?_, ?_⟩
  · have emits := (e.ticked_onlyEmits t).mooredAt
    rw [moored.mooring] at emits
    exact moored.trans emits
  · rw [hn, log, List.append_assoc]
  · have hq : new.filter Notice.isAnchorMissing = [] :=
      List.filter_eq_nil_iff.mpr fun n hn => Bool.eq_false_iff.mp (quiet n hn)
    rw [hn, List.filter_append, hq, List.nil_append, EmitterBody.filter_complaint]

theorem stop_moored (e : Emitter) : e.body.MooredAt e.body.mooring e.stop.body := by
  rw [body_stop]
  exact ⟨rfl, rfl, rfl, rfl, rfl⟩

/-- What is left of a run begins with the mooring that has been reached. -/
theorem mooringAfter_of_moored {e' : Emitter} {m : Mooring} (h : e.body.MooredAt m e'.body)
    (hs : List Happening) :
    e'.mooringAfter hs = (e'.sightings hs).foldl (Mooring.next e.body.isSnapshot) m := by
  rw [mooringAfter, h.mooring, h.isSnapshot]

/-- By induction on what happens: the mooring is made by what the ticks find, and by nothing
else. -/
theorem after_moored (free : e.body.parentAnchor = none) (hf : ∀ h ∈ hs, Happening.IsFree h) :
    e.body.MooredAt (e.mooringAfter hs) (e.after hs).body := by
  induction hs generalizing e with
  | nil => exact .refl e.body
  | cons h hs ih =>
    obtain ⟨hh, hfs⟩ := List.forall_mem_cons.mp hf
    cases h with
    | tick t =>
      have step := (ticked_moored free hh).1
      have rest := ih (step.parentAnchor.trans free) hfs
      rw [mooringAfter_of_moored step] at rest
      exact step.trans rest
    | stop =>
      have rest := ih (e.stop_moored.parentAnchor.trans free) hfs
      rw [mooringAfter_of_moored e.stop_moored] at rest
      exact e.stop_moored.trans rest

/-- By induction on what happens: that the anchor is missing is told when it is noted. -/
theorem filter_notices (free : e.body.parentAnchor = none) (hf : ∀ h ∈ hs, Happening.IsFree h) :
    (e.notices hs).filter Notice.isAnchorMissing = e.body.complaint (e.mooringAfter hs) := by
  induction hs generalizing e with
  | nil => exact e.body.complaint_self.symm
  | cons h hs ih =>
    obtain ⟨hh, hfs⟩ := List.forall_mem_cons.mp hf
    cases h with
    | tick t =>
      obtain ⟨step, -, told⟩ := ticked_moored free hh
      have rest := ih (step.parentAnchor.trans free) hfs
      rw [mooringAfter_of_moored step] at rest
      rw [notices, List.filter_append, told, rest]
      exact step.complaint_append Mooring.noted_next (Mooring.noted_foldl · _)
    | stop =>
      have rest := ih (e.stop_moored.parentAnchor.trans free) hfs
      rw [mooringAfter_of_moored e.stop_moored] at rest
      have told : e.stop.body.complaint (e.mooringAfter (.stop :: hs)) ++
          e.body.complaint e.body.mooring = e.body.complaint (e.mooringAfter (.stop :: hs)) :=
        e.stop_moored.complaint_append id (Mooring.noted_foldl · _)
      rw [EmitterBody.complaint_self, List.append_nil] at told
      exact rest.trans told

def Comes (e : Emitter) (hs : List Happening) (d : Emitter) (t : EmitterTick) : Prop :=
  ∃ past later, hs = past ++ .tick t :: later ∧ d = e.after past

/-- How an emitter keeps to its anchor over a run. -/
structure KeepsAnchor (e : Emitter) (hs : List Happening) : Prop where
  binding : (e.after hs).body.binding = e.body.binding
  definition : (e.after hs).body.definition = e.body.definition
  /-- A tick in which the surroundings give an anchor resolves it, for good. -/
  resolves : ∀ d t, e.Comes hs d t → (d.ticked t).1.1.body.anchorResolved =
    (d.body.anchorResolved || (d.body.sighted? t).isSome)
  /-- From when it is resolved the anchor of a snapshot never changes. -/
  stays : e.body.isSnapshot = true → ∀ past later, hs = past ++ later →
    (e.after past).body.anchorResolved = true →
      (e.after hs).body.anchor = (e.after past).body.anchor
  /-- Any other emitter, and a snapshot that has none yet, takes the anchor that the surroundings
  give. Where they give none it stays as it was. -/
  takes : ∀ d t, e.Comes hs d t → e.body.isSnapshot = false ∨ d.body.anchorResolved = false →
    (d.ticked t).1.1.body.anchor = (d.body.sighted? t).getD d.body.anchor
  logs : ∀ d t, e.Comes hs d t → (d.ticked t).2.log = d.noticed t ++ t.host.log
  /-- It is told once at most that the anchor is missing, and not at all if that was told before. -/
  tells : ((e.notices hs).filter Notice.isAnchorMissing).length +
    e.body.anchorMissingNoted.toNat ≤ 1

theorem after_append (e : Emitter) (hs hs' : List Happening) :
    e.after (hs ++ hs') = (e.after hs).after hs' := by
  induction hs generalizing e with
  | nil => rfl
  | cons h hs ih => cases h <;> exact ih _

/-- What a tick of a run finds, and what it leaves. -/
theorem Comes.moored {d : Emitter} (hd : e.Comes hs d t) (free : e.body.parentAnchor = none)
    (hf : ∀ h ∈ hs, Happening.IsFree h) :
    e.body.MooredAt (d.body.mooring.next e.body.isSnapshot (d.body.sighted? t))
        (d.ticked t).1.1.body ∧
      (d.ticked t).2.log = d.noticed t ++ t.host.log := by
  obtain ⟨past, later, rfl, rfl⟩ := hd
  obtain ⟨hpast, hnow⟩ := List.forall_mem_append.mp hf
  obtain ⟨ht, -⟩ := List.forall_mem_cons.mp hnow
  have before := after_moored free hpast
  obtain ⟨step, log, -⟩ := ticked_moored (before.parentAnchor.trans free) ht
  rw [before.isSnapshot] at step
  exact ⟨before.trans step, log⟩

/-- Over any run without anchors from outside, an emitter keeps to what its ticks sight. -/
theorem keepsAnchor (free : e.body.parentAnchor = none) (hf : ∀ h ∈ hs, Happening.IsFree h) :
    e.KeepsAnchor hs where
  binding := (after_moored free hf).binding
  definition := (after_moored free hf).definition
  resolves d t hd := by
    have left := congrArg Mooring.resolved (hd.moored free hf).1.mooring
    exact left.trans Mooring.resolved_next
  stays hs past later hl hr := by
    subst hl
    obtain ⟨hpast, hlater⟩ := List.forall_mem_append.mp hf
    have before := after_moored free hpast
    have rest := (after_moored (before.parentAnchor.trans free) hlater).mooring
    rw [mooringAfter, before.isSnapshot, hs, Mooring.foldl_next_of_resolved hr] at rest
    rw [after_append]
    exact congrArg Mooring.anchor rest
  takes d t hd hs := by
    have left := congrArg Mooring.anchor (hd.moored free hf).1.mooring
    exact left.trans (Mooring.anchor_next hs)
  logs d t hd := (hd.moored free hf).2
  tells := by
    rw [filter_notices free hf]
    exact e.body.length_complaint _

end Emitter
end EffectMachine
