import EffectMachine.Proofs.Agreement
import EffectMachine.Proofs.Particle.Owners
import EffectMachine.Proofs.Particle.Stillness
import EffectMachine.Proofs.Sequence.Conduct
import Mathlib.Data.List.Forall2

namespace EffectMachine

section Lists

variable {α β : Type} {R : α → β → Prop} {xs : List α} {ys : List β}

/-- Two lists are related element by element exactly if they are so at every position. -/
theorem forall₂_iff_getElem? :
    List.Forall₂ R xs ys ↔ ∀ i : Nat, Option.Rel R xs[i]? ys[i]? := by
  constructor
  · intro h
    induction h with
    | nil => exact fun _ => .none
    | cons hx _ ih =>
      intro i
      cases i with
      | zero => exact .some hx
      | succ i => exact ih i
  · intro h
    induction xs generalizing ys with
    | nil =>
      cases ys with
      | nil => exact .nil
      | cons => cases h 0
    | cons x xs ih =>
      cases ys with
      | nil => cases h 0
      | cons y ys =>
        have first : Option.Rel R (some x) (some y) := h 0
        cases first with
        | some hx => exact .cons hx (ih fun i => h (i + 1))

theorem isEmpty_of_forall₂ (h : List.Forall₂ R xs ys) : ys.isEmpty = xs.isEmpty := by
  cases h <;> rfl

end Lists

inductive Emitter.Alike (ρ : Pairing) (e : Emitter) : Emitter → Prop where
  | intro (owner : Option SequenceId) (owned : Option.Rel ρ.rel e.body.owner owner) :
      Alike ρ e (e.withOwner owner)

/-- The same sequence but for names. -/
inductive SequenceBody.Alike (ρ : Pairing) (s : SequenceBody) : SequenceBody → Prop where
  | intro (id : SequenceId) (blockers : List SequenceId) (emitters : List Emitter)
      (named : ρ.rel s.id id) (blocked : List.Forall₂ ρ.rel s.blockers blockers)
      (owned : List.Forall₂ (Emitter.Alike ρ) s.emitters emitters) :
      Alike ρ s { s with id, blockers, emitters }

namespace Sequence

/-- Two sequences have the same places below them, and what stands there is related. -/
def Matches (R : SequenceBody → SequenceBody → Prop) (s s' : Sequence) : Prop :=
  ∀ path, Option.Rel (fun q q' => R q.body q'.body) (s.at? path) (s'.at? path)

def Alike (ρ : Pairing) : Sequence → Sequence → Prop := Matches (SequenceBody.Alike ρ)

variable {R : SequenceBody → SequenceBody → Prop} {b b' : SequenceBody} {cs cs' : List Sequence}

/-- Trees match when their roots do and their children match in order. -/
theorem matches_mk :
    (mk b cs).Matches R (mk b' cs') ↔ R b b' ∧ List.Forall₂ (Matches R) cs cs' := by
  rw [forall₂_iff_getElem?]
  constructor
  · intro h
    have here : Option.Rel (fun q q' => R q.body q'.body) (some (mk b cs)) (some (mk b' cs')) :=
      h []
    refine ⟨by cases here; assumption, fun i => ?_⟩
    have below (path : List Nat) := h (i :: path)
    simp only [at?_cons, children_mk] at below
    cases hc : cs[i]? with
    | none =>
      cases hc' : cs'[i]? with
      | none => exact .none
      | some c' =>
        rw [hc, hc'] at below
        cases below []
    | some c =>
      cases hc' : cs'[i]? with
      | none =>
        rw [hc, hc'] at below
        cases below []
      | some c' =>
        rw [hc, hc'] at below
        exact .some below
  · intro ⟨hb, hc⟩ path
    cases path with
    | nil => exact .some hb
    | cons i path =>
      have hi := hc i
      simp only [at?_cons, children_mk]
      generalize cs[i]? = c at hi ⊢
      generalize cs'[i]? = c' at hi ⊢
      cases hi with
      | none => exact .none
      | some h => exact h path

/-- Matching is by the relation at each place, so a weaker one matches too. -/
theorem Matches.mono {S : SequenceBody → SequenceBody → Prop} {s s' : Sequence}
    (h : s.Matches R s') (hs : ∀ b b', R b b' → S b b') : s.Matches S s' := by
  intro path
  have hp := h path
  generalize s.at? path = q at hp ⊢
  generalize s'.at? path = q' at hp ⊢
  cases hp with
  | none => exact .none
  | some h => exact .some (hs _ _ h)

end Sequence

section Mono

variable {ρ σ : Pairing} (hρ : ρ ≤ σ)
include hρ

theorem Emitter.Alike.mono {e e' : Emitter} (h : e.Alike ρ e') : e.Alike σ e' := by
  obtain ⟨owner, owned⟩ := h
  refine ⟨owner, ?_⟩
  generalize e.body.owner = o at owned ⊢
  cases owned with
  | none => exact .none
  | some h => exact .some (hρ _ _ h)

theorem SequenceBody.Alike.mono {s s' : SequenceBody} (h : s.Alike ρ s') : s.Alike σ s' := by
  obtain ⟨id, blockers, emitters, named, blocked, owned⟩ := h
  exact ⟨id, blockers, emitters, hρ _ _ named, blocked.imp hρ, owned.imp fun _ _ h => h.mono hρ⟩

end Mono

namespace Emitter.Alike

variable {ρ : Pairing} {e e' : Emitter}

theorem isExpired (h : e.Alike ρ e') : e'.isExpired = e.isExpired := by
  obtain ⟨owner, -⟩ := h
  cases e; rfl

theorem definition (h : e.Alike ρ e') : e'.body.definition = e.body.definition := by
  obtain ⟨owner, -⟩ := h
  cases e; rfl

theorem owner (h : e.Alike ρ e') : Option.Rel ρ.rel e.body.owner e'.body.owner := by
  obtain ⟨owner, owned⟩ := h
  cases e; exact owned

theorem stop (h : e.Alike ρ e') : e.stop.Alike ρ e'.stop := by
  obtain ⟨owner, owned⟩ := h
  cases e; exact ⟨owner, owned⟩

end Emitter.Alike

structure SequenceBody.IsStill (s : SequenceBody) : Prop where
  routine : s.routine.IsStill
  queue : ∀ p ∈ s.queue, p.effect.isStill = true
  emitters : ∀ e ∈ s.emitters, e.Still

structure SequenceBody.Twin (ρ : Pairing) (s s' : SequenceBody) : Prop where
  alike : s.Alike ρ s'
  still : s.IsStill

theorem SequenceBody.isStill_fresh {routine : Routine} (hr : routine.IsStill) (id : SequenceId)
    (binding : Binding) (rate : Scalar) (depth : UInt8) :
    (fresh id routine binding rate depth).IsStill where
  routine := hr
  queue p hp := by
    obtain ⟨e, he, rfl⟩ := List.mem_map.mp hp
    exact hr.effects e he
  emitters e he := by cases he

namespace SequenceBody.Twin

variable {ρ σ : Pairing} {s s' : SequenceBody}

theorem mono (hρ : ρ ≤ σ) (h : s.Twin ρ s') : s.Twin σ s' := ⟨h.alike.mono hρ, h.still⟩

theorem fresh {id id' : SequenceId} (hid : ρ.rel id id') {routine : Routine}
    (hr : routine.IsStill) (binding : Binding) (rate : Scalar) (depth : UInt8) :
    (fresh id routine binding rate depth).Twin ρ (.fresh id' routine binding rate depth) :=
  ⟨⟨id', [], [], hid, .nil, .nil⟩, isStill_fresh hr id binding rate depth⟩

theorem id (h : s.Twin ρ s') : ρ.rel s.id s'.id := by
  obtain ⟨⟨id, blockers, emitters, named, blocked, owned⟩, still⟩ := h
  exact named

theorem failure (h : s.Twin ρ s') : s'.failure = s.failure := by
  obtain ⟨⟨id, blockers, emitters, named, blocked, owned⟩, still⟩ := h
  rfl

theorem budget (h : s.Twin ρ s') : s'.budget = s.budget := by
  obtain ⟨⟨id, blockers, emitters, named, blocked, owned⟩, still⟩ := h
  rfl

theorem stopped (h : s.Twin ρ s') : s'.stopped = s.stopped := by
  obtain ⟨⟨id, blockers, emitters, named, blocked, owned⟩, still⟩ := h
  rfl

theorem control (h : s.Twin ρ s') : s'.control = s.control := by
  obtain ⟨⟨id, blockers, emitters, named, blocked, owned⟩, still⟩ := h
  rfl

theorem routine (h : s.Twin ρ s') : s'.routine = s.routine := by
  obtain ⟨⟨id, blockers, emitters, named, blocked, owned⟩, still⟩ := h
  rfl

theorem queue (h : s.Twin ρ s') : s'.queue = s.queue := by
  obtain ⟨⟨id, blockers, emitters, named, blocked, owned⟩, still⟩ := h
  rfl

theorem isFailed (h : s.Twin ρ s') : s'.isFailed = s.isFailed := by
  rw [SequenceBody.isFailed, SequenceBody.isFailed, h.failure]

theorem isDoneExecuting (h : s.Twin ρ s') : s'.isDoneExecuting = s.isDoneExecuting := by
  obtain ⟨⟨id, blockers, emitters, named, blocked, owned⟩, still⟩ := h
  simp only [SequenceBody.isDoneExecuting, isEmpty_of_forall₂ blocked]

theorem emitters (h : s.Twin ρ s') : List.Forall₂ (Emitter.Alike ρ) s.emitters s'.emitters := by
  obtain ⟨⟨id, blockers, emitters, named, blocked, owned⟩, still⟩ := h
  exact owned

theorem blockers_isEmpty (h : s.Twin ρ s') : s'.blockers.isEmpty = s.blockers.isEmpty := by
  obtain ⟨⟨id, blockers, emitters, named, blocked, owned⟩, still⟩ := h
  exact isEmpty_of_forall₂ blocked

theorem emitters_isEmpty (h : s.Twin ρ s') : s'.emitters.isEmpty = s.emitters.isEmpty :=
  isEmpty_of_forall₂ h.emitters

/-- Emitters of the two that are picked in the same way end emission. -/
theorem stopWhere (h : s.Twin ρ s') (pick pick' : EmitterBody → Bool)
    (hp : ∀ e e' : Emitter, e.Alike ρ e' → pick' e'.body = pick e.body) :
    (s.stopWhere pick).Twin ρ (s'.stopWhere pick') := by
  obtain ⟨⟨id, blockers, emitters, named, blocked, owned⟩, still⟩ := h
  refine ⟨⟨id, blockers, _, named, blocked, List.rel_map (fun e e' he => ?_) owned⟩,
    still.routine, still.queue, fun e he => ?_⟩
  · rw [hp e e' he]
    split
    · exact he.stop
    · exact he
  · obtain ⟨e, hm, rfl⟩ := List.mem_map.mp he
    split
    · exact (still.emitters e hm).stop
    · exact still.emitters e hm

theorem stopEmitters {es es' : List Emitter} (h : List.Forall₂ (Emitter.Alike ρ) es es') :
    List.Forall₂ (Emitter.Alike ρ) (stopEmitters es) (stopEmitters es') := by
  rw [stopEmitters_eq_map, stopEmitters_eq_map]
  exact List.rel_map (fun e e' he => he.stop) h

theorem still_stopEmitters {es : List Emitter} (h : ∀ e ∈ es, e.Still) :
    ∀ e ∈ EffectMachine.stopEmitters es, e.Still := by
  rw [stopEmitters_eq_map]
  intro e he
  obtain ⟨e, hm, rfl⟩ := List.mem_map.mp he
  exact (h e hm).stop

theorem halted (h : s.Twin ρ s') : s.halted.Twin ρ s'.halted := by
  obtain ⟨⟨id, blockers, emitters, named, blocked, owned⟩, still⟩ := h
  exact ⟨⟨id, [], _, named, .nil, stopEmitters owned⟩, still.routine,
    List.forall_mem_nil _, still_stopEmitters still.emitters⟩

theorem failedWith (h : s.Twin ρ s') (f : Fault) : (s.failedWith f).Twin ρ (s'.failedWith f) := by
  obtain ⟨⟨id, blockers, emitters, named, blocked, owned⟩, still⟩ := h
  exact ⟨⟨id, [], _, named, .nil, stopEmitters owned⟩, still.routine,
    List.forall_mem_nil _, still_stopEmitters still.emitters⟩

theorem capBudget (h : s.Twin ρ s') : s.capBudget.Twin ρ s'.capBudget := by
  obtain ⟨⟨id, blockers, emitters, named, blocked, owned⟩, still⟩ := h
  exact ⟨⟨id, blockers, emitters, named, blocked, owned⟩, still.routine, still.queue,
    still.emitters⟩

theorem withQueue (h : s.Twin ρ s') {queue : List Pending}
    (hq : ∀ p ∈ queue, p.effect.isStill = true) :
    ({ s with queue } : SequenceBody).Twin ρ { s' with queue } := by
  obtain ⟨⟨id, blockers, emitters, named, blocked, owned⟩, still⟩ := h
  exact ⟨⟨id, blockers, emitters, named, blocked, owned⟩, still.routine, hq, still.emitters⟩

theorem withEmitters (h : s.Twin ρ s') {es es' : List Emitter}
    (he : List.Forall₂ (Emitter.Alike ρ) es es') (hs : ∀ e ∈ es, e.Still) :
    ({ s with emitters := es } : SequenceBody).Twin ρ { s' with emitters := es' } := by
  obtain ⟨⟨id, blockers, emitters, named, blocked, owned⟩, still⟩ := h
  exact ⟨⟨id, blockers, es', named, blocked, he⟩, still.routine, still.queue, hs⟩

theorem unfilled (h : s.Twin ρ s') :
    ({ s with refilled := false } : SequenceBody).Twin ρ { s' with refilled := false } := by
  obtain ⟨⟨id, blockers, emitters, named, blocked, owned⟩, still⟩ := h
  exact ⟨⟨id, blockers, emitters, named, blocked, owned⟩, still.routine, still.queue,
    still.emitters⟩

theorem unblocked (h : s.Twin ρ s') :
    ({ s with blockers := [] } : SequenceBody).Twin ρ { s' with blockers := [] } := by
  obtain ⟨⟨id, blockers, emitters, named, blocked, owned⟩, still⟩ := h
  exact ⟨⟨id, [], emitters, named, .nil, owned⟩, still.routine, still.queue, still.emitters⟩

theorem unscheduled (h : s.Twin ρ s') : ({ s with
      queue := [], scheduledStart := none, blockers := [] } : SequenceBody).Twin ρ
      { s' with queue := [], scheduledStart := none, blockers := [] } := by
  obtain ⟨⟨id, blockers, emitters, named, blocked, owned⟩, still⟩ := h
  exact ⟨⟨id, [], emitters, named, .nil, owned⟩, still.routine, List.forall_mem_nil _,
    still.emitters⟩

/-- Twins charge their heads alike. -/
theorem charge (h : s.Twin ρ s') {head : Pending} {rest : List Pending}
    (hq : s.queue = head :: rest) : (s.charge head rest).Twin ρ (s'.charge head rest) := by
  unfold SequenceBody.charge
  split
  · exact h
  · obtain ⟨⟨id, blockers, emitters, named, blocked, owned⟩, still⟩ := h
    obtain ⟨hr, hs, he⟩ := still
    rw [hq] at hs
    exact ⟨⟨id, blockers, emitters, named, blocked, owned⟩, hr, List.forall_mem_cons.mpr
      (List.forall_mem_cons.mp hs), he⟩

theorem enqueue (h : s.Twin ρ s') {effects : List Effect}
    (he : ∀ e ∈ effects, e.isStill = true) : (s.enqueue effects).Twin ρ (s'.enqueue effects) := by
  obtain ⟨⟨id, blockers, emitters, named, blocked, owned⟩, still⟩ := h
  refine ⟨⟨id, blockers, emitters, named, blocked, owned⟩, still.routine,
    List.forall_mem_append.mpr ⟨still.queue, fun p hp => ?_⟩, still.emitters⟩
  obtain ⟨e, hm, rfl⟩ := List.mem_map.mp hp
  exact he e hm

/-- The emitters of its own that a sequence tells to stop are told so in the other too. -/
theorem requeued (h : s.Twin ρ s') :
    s.requeued.1.Twin ρ s'.requeued.1 ∧ s'.requeued.2 = s.requeued.2 := by
  have own (e e' : Emitter) (he : e.Alike ρ e') :
      decide (e'.body.owner = some s'.id) = decide (e.body.owner = some s.id) := by
    have ho := he.owner
    generalize e.body.owner = o at ho ⊢
    generalize e'.body.owner = o' at ho ⊢
    cases ho with
    | none => simp
    | some hr => simp [ρ.eq_iff hr h.id]
  obtain ⟨⟨id, blockers, emitters, named, blocked, owned⟩, still⟩ := h
  have changed (completionRan refilled : Bool) (control : ControlStack) :
      ({ s with completionRan, refilled, control } : SequenceBody).Twin ρ
        { s with id, blockers, emitters, completionRan, refilled, control } :=
    ⟨⟨id, blockers, emitters, named, blocked, owned⟩, still.routine, still.queue, still.emitters⟩
  have ran := changed true s.refilled s.control
  have again := ((changed true true s.control.clear).stopWhere (fun g => g.owner = some s.id)
    (fun g => g.owner = some id) own).enqueue still.routine.effects
  unfold SequenceBody.requeued
  dsimp only
  split
  · exact ⟨ran.enqueue still.routine.onComplete, rfl⟩
  · split
    · exact ⟨again, rfl⟩
    · exact ⟨ran, rfl⟩

end SequenceBody.Twin

namespace Sequence

def Twin (ρ : Pairing) : Sequence → Sequence → Prop := Matches (SequenceBody.Twin ρ)

abbrev Twins (ρ : Pairing) : List Sequence → List Sequence → Prop := List.Forall₂ (Twin ρ)

variable {ρ σ : Pairing} {s s' : Sequence} {b b' : SequenceBody} {cs cs' : List Sequence}

theorem twin_mk : (mk b cs).Twin ρ (mk b' cs') ↔ b.Twin ρ b' ∧ Twins ρ cs cs' := matches_mk

theorem Twin.mono (hρ : ρ ≤ σ) (h : s.Twin ρ s') : s.Twin σ s' :=
  Matches.mono h fun _ _ hb => hb.mono hρ

theorem Twins.mono (hρ : ρ ≤ σ) (h : Twins ρ cs cs') : Twins σ cs cs' :=
  h.imp fun _ _ hc => hc.mono hρ

theorem Twin.alike (h : s.Twin ρ s') : s.Alike ρ s' := Matches.mono h fun _ _ hb => hb.alike

theorem Twin.body (h : s.Twin ρ s') : s.body.Twin ρ s'.body := by
  cases s
  cases s'
  exact (twin_mk.mp h).1

theorem Twin.children (h : s.Twin ρ s') : Twins ρ s.children s'.children := by
  cases s
  cases s'
  exact (twin_mk.mp h).2

theorem Twin.mapBody (h : s.Twin ρ s') {f f' : SequenceBody → SequenceBody}
    (hf : (f s.body).Twin ρ (f' s'.body)) : (s.mapBody f).Twin ρ (s'.mapBody f') := by
  cases s
  cases s'
  exact twin_mk.mpr ⟨hf, h.children⟩

theorem Twin.isFailed (h : s.Twin ρ s') : s'.isFailed = s.isFailed := h.body.isFailed

theorem Twin.skips (h : s.Twin ρ s') (e : Effect) : s'.skips e = s.skips e := by
  rw [Sequence.skips, Sequence.skips, h.body.control]

mutual

theorem Twin.isComplete : ∀ {s s' : Sequence}, s.Twin ρ s' → s'.isComplete = s.isComplete
  | .mk b cs, .mk b' cs', h => by
    obtain ⟨hb, hc⟩ := twin_mk.mp h
    rw [Sequence.isComplete, Sequence.isComplete, hb.isFailed, hb.isDoneExecuting,
      hb.emitters_isEmpty, Twins.allComplete hc]

/-- Children that are twins are complete alike. -/
theorem Twins.allComplete : ∀ {cs cs' : List Sequence}, Twins ρ cs cs' →
    EffectMachine.allComplete cs' = EffectMachine.allComplete cs
  | [], _, h => by
    cases h
    rfl
  | c :: cs, _, h => by
    cases h with
    | cons hc hcs =>
      rw [EffectMachine.allComplete, EffectMachine.allComplete, Twin.isComplete hc,
        Twins.allComplete hcs]

end

/-- Children that have ended have ended in both. -/
theorem Twins.dropEnded (h : Twins ρ cs cs') :
    Twins ρ (cs.filter fun c => !c.isFailed && !c.isComplete)
      (cs'.filter fun c => !c.isFailed && !c.isComplete) :=
  List.rel_filter (fun c c' hc => by dsimp only; rw [hc.isFailed, hc.isComplete]) h

/-- A name is that of a child in both. -/
theorem Twins.any_named (h : Twins ρ cs cs') {id id' : SequenceId} (hid : ρ.rel id id') :
    cs'.any (fun c => c.body.id = id') = cs.any fun c => c.body.id = id := by
  induction h with
  | nil => rfl
  | cons hc _ ih =>
    rw [List.any_cons, List.any_cons, ih, decide_eq_decide.mpr (ρ.eq_iff hc.body.id hid)]

/-- Twins let go of the same children, and of the blockers among them. -/
theorem Twin.dropEnded (h : s.Twin ρ s') : s.dropEnded.Twin ρ s'.dropEnded := by
  have hb := h.body
  have hc := h.children.dropEnded
  unfold Sequence.dropEnded
  refine twin_mk.mpr ⟨?_, hc⟩
  generalize s.children.filter (fun c => !c.isFailed && !c.isComplete) = cs at hc ⊢
  generalize s'.children.filter (fun c => !c.isFailed && !c.isComplete) = cs' at hc ⊢
  generalize s.body = b at hb ⊢
  generalize s'.body = b' at hb ⊢
  obtain ⟨⟨id, blockers, emitters, named, blocked, owned⟩, still⟩ := hb
  refine ⟨⟨id, _, emitters, named, List.rel_filter (fun a a' ha => ?_) blocked, owned⟩,
    still.routine, still.queue, still.emitters⟩
  dsimp only
  rw [hc.any_named ha]

theorem Twin.earn (h : s.Twin ρ s') (elapsed : Scalar) :
    (s.earn elapsed).Twin ρ (s'.earn elapsed) := by
  refine h.mapBody ?_
  have hb := h.body
  generalize s.body = b at hb ⊢
  generalize s'.body = b' at hb ⊢
  obtain ⟨⟨id, blockers, emitters, named, blocked, owned⟩, still⟩ := hb
  exact ⟨⟨id, blockers, emitters, named, blocked, owned⟩, still.routine, still.queue,
    still.emitters⟩

end Sequence
end EffectMachine
