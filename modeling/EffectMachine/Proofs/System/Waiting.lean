import EffectMachine.Proofs.Sequence.Waiting
import EffectMachine.Proofs.System.Invariants

namespace EffectMachine

def Visit.moment? (v : Visit) : Option Sequence.Moment :=
  match v.call with
  | .advance elapsed => some ⟨elapsed, v.surroundings, v.host⟩
  | _ => none

def Visit.stops (v : Visit) : Bool :=
  match v.call with
  | .stop => true
  | _ => false

namespace Sequence

/-- No loop of a run spends all of its fuel. -/
def Answers : Sequence → List Visit → Prop
  | _, [] => True
  | s, v :: vs => (s.visited v).1.2 ≠ some .outOfFuel ∧ (s.visited v).1.1.Answers vs

theorem Answers.take {s : Sequence} {vs : List Visit} (h : s.Answers vs) (n : Nat) :
    s.Answers (vs.take n) := by
  induction vs generalizing s n with
  | nil =>
    rw [List.take_nil]
    trivial
  | cons v vs ih =>
    cases n with
    | zero => trivial
    | succ n => exact ⟨h.1, ih h.2 n⟩

def afterVisits : Sequence → List Visit → Sequence
  | s, [] => s
  | s, v :: vs => (s.visited v).1.1.afterVisits vs

def visitTurns (s : Sequence) (v : Visit) : List Turn :=
  match v.moment? with
  | some m => s.tickTurns m
  | none => []

/-- The sequence takes no effect until a tick lets go of the child, because it has ended. -/
def HeldUp (id : SequenceId) : Sequence → List Visit → Prop
  | _, [] => True
  | s, v :: vs =>
    (∃ m, v.moment? = some m ∧ s.LetsGo m id) ∨
      (∀ t ∈ s.visitTurns v, t.event = .blocked) ∧ HeldUp id (s.visited v).1.1 vs

/-- Whenever a turn of a run starts a child to wait for, the sequence takes no effect in the other
turns of the call, and then none until the child is let go. -/
def AwaitsChildren : Sequence → List Visit → Prop
  | _, [] => True
  | s, v :: vs =>
    (∀ ts t us c, s.visitTurns v = ts ++ t :: us → t.Starts c →
      (∀ u ∈ us, u.event = .blocked) ∧ HeldUp c.body.id (s.visited v).1.1 vs) ∧
    (s.visited v).1.1.AwaitsChildren vs

variable {s : Sequence} {v : Visit} {id : SequenceId}

theorem visited_rests (hs : s.AtRest) (v : Visit) : Rests (s.visited v).1 := by
  obtain ⟨call, r, h⟩ := v
  cases call with
  | advance elapsed => exact advance_rests elapsed s hs r h
  | stop => exact stop_rests hs r h
  | stopRoutine routine => exact stopRoutine_rests hs routine r h

/-- By induction on the calls. -/
theorem afterVisits_atRest (vs : List Visit) (hs : s.AtRest) (ha : s.Answers vs) :
    (s.afterVisits vs).AtRest := by
  induction vs generalizing s with
  | nil => exact hs
  | cons v vs ih => exact ih (visited_rests hs v ha.1) ha.2

theorem visited_of_moment {m : Moment} (hm : v.moment? = some m) : s.visited v = s.ticked m := by
  obtain ⟨call, r, h⟩ := v
  cases call with
  | advance elapsed => exact Option.some.inj hm ▸ rfl
  | stop | stopRoutine => cases hm

/-- What is neither a tick of the sequence nor a stop leaves the sequence itself as it is. -/
theorem visited_body (hm : v.moment? = none) (hv : v.stops = false) :
    (s.visited v).1.1.body = s.body := by
  obtain ⟨call, r, h⟩ := v
  cases call with
  | advance elapsed => cases hm
  | stop => cases hv
  | stopRoutine routine =>
    cases s with
    | mk body children => rfl

theorem visited_of_held (ho : s.OwnsBlockers) (hv : v.stops = false) (hid : s.IsHeldBy id) :
    (∃ m, v.moment? = some m ∧ s.LetsGo m id) ∨
      (∀ t ∈ s.visitTurns v, t.event = .blocked) ∧ (s.visited v).1.1.IsHeldBy id := by
  rw [visitTurns]
  cases hm : v.moment? with
  | none =>
    have hid' : (s.visited v).1.1.IsHeldBy id := by
      rw [IsHeldBy, isFailed, visited_body hm hv]
      exact hid
    exact .inr ⟨by simp, hid'⟩
  | some m =>
    rw [visited_of_moment hm]
    exact (ticked_of_held ho hid).imp_left fun hl => ⟨m, rfl, hl⟩

theorem visited_of_starts {ts us : List Turn} {t : Turn} {c : Sequence}
    (ht : s.visitTurns v = ts ++ t :: us) (hc : t.Starts c) :
    (∀ u ∈ us, u.event = .blocked) ∧ (s.visited v).1.1.IsHeldBy c.body.id := by
  rw [visitTurns] at ht
  cases hm : v.moment? with
  | none => simp [hm] at ht
  | some m =>
    rw [hm] at ht
    rw [visited_of_moment hm]
    exact ticked_of_starts ht hc

/-- By induction on the calls. -/
theorem heldUp (vs : List Visit) (hs : s.AtRest) (ha : s.Answers vs)
    (hv : ∀ v ∈ vs, v.stops = false) (hid : s.IsHeldBy id) : HeldUp id s vs := by
  induction vs generalizing s with
  | nil => trivial
  | cons v vs ih =>
    obtain ⟨hv, hvs⟩ := List.forall_mem_cons.mp hv
    refine (visited_of_held hs.waits.owns hv hid).imp_right fun ⟨hall, hid⟩ => ?_
    exact ⟨hall, ih (visited_rests hs v ha.1) ha.2 hvs hid⟩

/-- By induction on the calls. -/
theorem awaitsChildren (vs : List Visit) (hs : s.AtRest) (ha : s.Answers vs)
    (hv : ∀ v ∈ vs, v.stops = false) : s.AwaitsChildren vs := by
  induction vs generalizing s with
  | nil => trivial
  | cons v vs ih =>
    obtain ⟨-, hvs⟩ := List.forall_mem_cons.mp hv
    have hs' := visited_rests hs v ha.1
    refine ⟨fun ts t us c ht hc => ?_, ih hs' ha.2 hvs⟩
    obtain ⟨hall, hid⟩ := visited_of_starts ht hc
    exact ⟨hall, heldUp vs hs' ha.2 hvs hid⟩

/-- After any run every sequence, at any depth, waits for children of its own only, without frames
to spend; and over any further run that does not stop it, it takes no effect after one that started
a child to wait for until the child is let go. -/
theorem waits_for_children (id : SequenceId) (routine : Routine) (binding : Binding) (rate : Scalar)
    (depth : UInt8) (vs : List Visit)
    (ha : (mk (.fresh id routine binding rate depth) []).Answers vs) (path : List Nat)
    (q : Sequence)
    (hq : ((mk (.fresh id routine binding rate depth) []).afterVisits vs).at? path = some q) :
    q.Waits ∧ ∀ ws, q.Answers ws → (∀ w ∈ ws, w.stops = false) → q.AwaitsChildren ws := by
  have hs := afterVisits_atRest vs (fresh_atRest id routine binding rate depth) ha
  refine ⟨hs path q hq, fun ws hw hv => awaitsChildren ws ?_ hw hv⟩
  exact hs.at? hq

/-- A routine that starts another one, and a flash once that has ended. -/
def overture : Routine :=
  ⟨ResourceId.none, ResourcePath.root,
    [⟨0, 0, .spawnRoutine ⟨1, 0, 0, 0⟩ true⟩, ⟨0, 0, .screenFlash Color.white⟩], [], [], false⟩

/-- A tick where the routine to be started waits a hundred frames. -/
def overtureTick (elapsed : Scalar) : Visit :=
  let child : ResourceId := ⟨1, 0, 0, 0⟩
  let directory := ({} : Directory).insert ResourcePath.root child
    (.routine ⟨child, ResourcePath.root, [⟨100, 0, .wait⟩], [], [], false⟩)
  ⟨.advance elapsed, { Surroundings.bare with directory }, .fresh⟩

theorem overture_waits :
    let s := mk (.fresh ⟨0⟩ overture .weather 1 0) []
    let run := [overtureTick 1, overtureTick 1, overtureTick 100]
    s.Answers run ∧ s.AwaitsChildren run ∧ (s.afterVisits (run.take 2)).Waits ∧
      (s.afterVisits (run.take 2)).body.blockers = [⟨1⟩] ∧
      (s.visitTurns (overtureTick 1)).map (·.event.taken?.isSome) = [true, false] ∧
      ((s.afterVisits (run.take 1)).visitTurns (overtureTick 1)).map (·.event.taken?.isSome) =
        [false] ∧
      ((s.afterVisits (run.take 2)).visitTurns (overtureTick 100)).map (·.event.taken?.isSome) =
        [true, false] := by
  intro s run
  have ha : s.Answers run := ⟨by decide +kernel, by decide +kernel, by decide +kernel, trivial⟩
  have hv : ∀ v ∈ run, v.stops = false := by decide +kernel
  have hrests := waits_for_children ⟨0⟩ overture .weather 1 0 (run.take 2) (ha.take 2) [] _
    (at?_nil _)
  have hall := waits_for_children ⟨0⟩ overture .weather 1 0 [] trivial [] s (at?_nil _)
  exact ⟨ha, hall.2 run ha hv, hrests.1, by decide +kernel, by decide +kernel, by decide +kernel,
    by decide +kernel⟩

end Sequence
end EffectMachine
