import EffectMachine.Proofs.Sequence.Conduct
import EffectMachine.Proofs.System.Accounting

namespace EffectMachine

inductive SequenceCall where
  | advance (elapsed : Scalar)
  | stop
  | stopRoutine (routine : ResourceId)

structure Visit where
  call : SequenceCall
  surroundings : Surroundings
  host : Host

namespace Sequence

def answer (s : Sequence) : SequenceCall → Tick (Sequence × Option Halt)
  | .advance elapsed => s.advance elapsed
  | .stop => s.stop
  | .stopRoutine routine => do
    let (s, _, halt) ← s.stopRoutine routine
    return (s, halt)

/-- What one call leaves and comes back with, and the host after it. -/
def visited (s : Sequence) (v : Visit) : (Sequence × Option Halt) × Host :=
  s.answer v.call v.surroundings v.host

variable {C : Conduct} {r : Surroundings} {O : HostOrder} {s : Sequence}

theorem answer_held {n : Nat} (hk : C.KeptIn r O) (hs : s.Graded C.Sound n) (call : SequenceCall) :
    (s.answer call).Keeps r O (Held C n) := by
  cases call with
  | advance elapsed => exact advance_held hk elapsed s hs
  | stop => exact stop_held hk hs
  | stopRoutine routine => exact .bind (stopRoutine_held hk hs routine) fun x hx => .pure hx

/-- The first effects of a sequence are those of its routine. -/
theorem fresh_sound {n : Nat} (id : SequenceId) (routine : Routine) (binding : Binding)
    (rate : Scalar) (depth : UInt8)
    (h : C.holds n (.fresh id routine binding rate depth) routine.effects) :
    (mk (.fresh id routine binding rate depth) []).Graded C.Sound n := by
  refine graded_mk.mpr ⟨⟨?_, fun f hf => by cases hf⟩, by simp⟩
  rw [fresh_work]
  exact h

end Sequence

def Request.starts? (d : Directory) : Request → Option (Routine × Binding)
  | trigger id scope binding => (d.routine? id scope).map fun routine => (routine, binding)
  | start routine binding => some (routine, binding)
  | _ => none

section Family

variable {ι : Type} {C : ι → Conduct} {r : Surroundings} {O : HostOrder}

/-- Every activation keeps some conduct of a family, and no other failures are recorded than those
allowed. -/
structure System.Stands (C : ι → Conduct) (s : System) : Prop where
  sequences : ∀ q ∈ s.sequences, ∃ i, q.Graded (C i).Sound 0
  failures : ∀ x ∈ s.failures, ∃ i, (C i).allows x.fault

def Conduct.Starts (C : ι → Conduct) (x : Routine × Binding) : Prop :=
  ∃ i, ∀ id rate, (C i).holds 0 (.fresh id x.1 x.2 rate 0) x.1.effects

namespace System

variable {s : System}

theorem allows_failureOf {i : ι} {x : Sequence × Option Halt} (h : (C i).AllowsHalt x.2) :
    ∀ y ∈ failureOf x.1 x.2, ∃ i, (C i).allows y.fault := by
  intro y hy
  unfold failureOf at hy
  split at hy
  next f hf =>
    rw [List.mem_singleton.mp hy]
    exact ⟨i, h f hf⟩
  next => cases hy

variable (hO : O.Mild) (hk : ∀ i, (C i).KeptIn r O)
include hO

theorem start_stands (hs : s.Stands C) {x : Routine × Binding} (hx : Conduct.Starts C x) :
    (s.start x.1 x.2).Keeps r O fun y => y.1.Stands C := by
  intro h
  refine ⟨⟨List.forall_mem_append.mpr ⟨hs.sequences, fun q hq => ?_⟩, hs.failures⟩, hO.named h⟩
  obtain ⟨i, hi⟩ := hx
  rw [List.mem_singleton.mp hq]
  exact ⟨i, Sequence.fresh_sound _ _ _ _ _ (hi _ _)⟩

theorem trigger_stands (hs : s.Stands C) {id : ResourceId} {scope : SearchScope}
    {binding : Binding}
    (ha : ∀ routine, r.directory.routine? id scope = some routine →
      Conduct.Starts C (routine, binding)) :
    (s.trigger id scope binding).Keeps r O fun x => x.1.Stands C := by
  refine .read ?_
  split
  · exact .after (hO.leads_note _ rfl) fun _ => .pure hs
  next found hr => exact .bind (start_stands hO hs (ha found hr)) fun x hx => .pure hx

omit hO
include hk

theorem stopIn_stands (id : SequenceId) (qs : List Sequence)
    (hs : ∀ q ∈ qs, ∃ i, q.Graded (C i).Sound 0) :
    (stopIn id qs).Keeps r O fun x =>
      (∀ q ∈ x.1, ∃ i, q.Graded (C i).Sound 0) ∧ ∀ y ∈ x.2.1, ∃ i, (C i).allows y.fault := by
  induction qs with
  | nil => exact .pure ⟨hs, by simp⟩
  | cons q qs ih =>
    obtain ⟨⟨i, hq⟩, hqs⟩ := List.forall_mem_cons.mp hs
    unfold stopIn
    split
    · exact .bind (Sequence.stop_held (hk i) hq) fun x hx =>
        .pure ⟨List.forall_mem_cons.mpr ⟨⟨i, hx.sound⟩, hqs⟩, allows_failureOf hx.allows⟩
    · exact .bind (ih hqs) fun x hx =>
        .pure ⟨List.forall_mem_cons.mpr ⟨⟨i, hq⟩, hx.1⟩, hx.2⟩

theorem stop_stands (hs : s.Stands C) (id : SequenceId) :
    (s.stop id).Keeps r O fun x => x.1.Stands C :=
  .bind (stopIn_stands hk id s.sequences hs.sequences) fun _ hx =>
    .pure ⟨hx.1, List.forall_mem_append.mpr ⟨hs.failures, hx.2⟩⟩

theorem stopEach_stands (ids : List SequenceId) (hs : s.Stands C) :
    (s.stopEach ids).Keeps r O fun x => x.1.Stands C := by
  induction ids generalizing s with
  | nil => exact .pure hs
  | cons id ids ih =>
    exact .bind (stop_stands hk hs id) fun x hx => .bind (ih hx) fun y hy => .pure hy

/-- A tick of all keeps the conduct of each. -/
theorem advanceIn_stands (elapsed : Scalar) (qs : List Sequence)
    (hs : ∀ q ∈ qs, ∃ i, q.Graded (C i).Sound 0) :
    (advanceIn elapsed qs).Keeps r O fun x =>
      (∀ q ∈ x.1, ∃ i, q.Graded (C i).Sound 0) ∧ ∀ y ∈ x.2.1, ∃ i, (C i).allows y.fault := by
  induction qs with
  | nil => exact .pure ⟨hs, by simp⟩
  | cons q qs ih =>
    obtain ⟨⟨i, hq⟩, hqs⟩ := List.forall_mem_cons.mp hs
    unfold advanceIn
    split
    · exact .bind (ih hqs) fun x hx =>
        .pure ⟨List.forall_mem_cons.mpr ⟨⟨i, hq⟩, hx.1⟩, hx.2⟩
    · refine .bind (Sequence.advance_held (hk i) elapsed q hq) fun x hx => ?_
      dsimp only
      split
      · exact .pure ⟨List.forall_mem_cons.mpr ⟨⟨i, hx.sound⟩, hqs⟩, by simp⟩
      · refine .bind (ih hqs) fun y hy => .pure ?_
        exact ⟨List.forall_mem_cons.mpr ⟨⟨i, hx.sound⟩, hy.1⟩,
          List.forall_mem_append.mpr ⟨allows_failureOf hx.allows, hy.2⟩⟩

theorem advance_stands (hs : s.Stands C) (elapsed : Scalar) :
    (s.advance elapsed).Keeps r O fun x => x.1.Stands C := by
  refine .bind (advanceIn_stands hk elapsed s.sequences hs.sequences) fun x hx => ?_
  have hf : ∀ y ∈ s.failures ++ x.2.1, ∃ i, (C i).allows y.fault :=
    List.forall_mem_append.mpr ⟨hs.failures, hx.2⟩
  dsimp only
  split
  · exact .pure ⟨hx.1, hf⟩
  · exact .pure ⟨fun q hq => hx.1 q (List.mem_filter.mp hq).1, hf⟩

end System

namespace Ledger

/-- Every activation keeps its conduct, and no other failures were ever recorded. -/
structure Stands (C : ι → Conduct) (l : Ledger) : Prop where
  system : l.system.Stands C
  handedOver : ∀ x ∈ l.handedOver, ∃ i, (C i).allows x.fault

variable {l : Ledger}

theorem Stands.recorded (h : l.Stands C) : ∀ x ∈ l.recorded, ∃ i, (C i).allows x.fault :=
  List.forall_mem_append.mpr ⟨h.handedOver, h.system.failures⟩

theorem new_stands (C : ι → Conduct) : Stands C {} :=
  ⟨⟨by simp, by simp⟩, by simp⟩

/-- A request keeps each activation to its conduct, and what it starts too. -/
theorem serve_stands {q : Request} (hO : O.Mild) (hk : ∀ i, (C i).KeptIn r O)
    (ha : ∀ x, q.starts? r.directory = some x → Conduct.Starts C x) (hs : l.Stands C) :
    (l.serve q).Keeps r O fun x => x.1.Stands C := by
  have system {s : System} (hs' : s.Stands C) : Stands C { l with system := s } :=
    ⟨hs', hs.handedOver⟩
  cases q with
  | trigger routine scope binding =>
    refine .bind (System.trigger_stands hO hs.system fun found hr => ha _ ?_) fun _ hx =>
      .pure (system hx)
    rw [Request.starts?, hr]
    rfl
  | start routine binding =>
    exact .bind (System.start_stands hO hs.system (ha (routine, binding) rfl)) fun _ hx =>
      .pure (system hx)
  | stop id => exact .bind (System.stop_stands hk hs.system id) fun _ hx => .pure (system hx)
  | stopRoutine routine =>
    exact .bind (System.stopEach_stands hk _ hs.system) fun _ hx => .pure (system hx)
  | advance elapsed =>
    exact .bind (System.advance_stands hk hs.system elapsed) fun _ hx => .pure (system hx)
  | takeFailures => exact .pure ⟨⟨hs.system.sequences, fun x hx => by cases hx⟩, hs.recorded⟩

/-- By induction on the requests. -/
theorem after_stands (os : List Occasion) (hO : O.Mild)
    (hk : ∀ o ∈ os, ∀ i, (C i).KeptIn o.surroundings O)
    (ha : ∀ o ∈ os, ∀ x, o.request.starts? o.surroundings.directory = some x →
      Conduct.Starts C x) (hs : l.Stands C) (h : Host) : (l.after h os).Stands C := by
  induction os generalizing l h with
  | nil => exact hs
  | cons o os ih =>
    obtain ⟨hko, hk⟩ := List.forall_mem_cons.mp hk
    obtain ⟨hao, ha⟩ := List.forall_mem_cons.mp ha
    exact ih hk ha (serve_stands hO hko hao hs (o.meanwhile h)).1 _

end Ledger

end Family

end EffectMachine
