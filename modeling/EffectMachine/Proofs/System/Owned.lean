import EffectMachine.Proofs.Sequence.Owned
import EffectMachine.Proofs.System.Steps

namespace EffectMachine.System

open Sequence

/-- The turn of an activation: a fault ends it, and stops no other. -/
def turn (elapsed : Scalar) (q : Sequence) : Tick (Sequence × Option Halt) := do
  let (q, halt) ← q.advance elapsed
  return (q, if halt = some .outOfFuel then halt else none)

theorem turn_of_failed {q : Sequence} (hq : q.isFailed = true) (elapsed : Scalar)
    (r : Surroundings) (h : Host) : turn elapsed q r h = ((q, none), h) := by
  obtain ⟨f, hf⟩ := isFailed_eq_true.mp hq
  have ht : q.advance elapsed r h = ((q, some (.fault f)), h) :=
    ticked_of_failed (m := ⟨elapsed, r, h⟩) hf
  rw [turn, Tick.run_bind, ht]
  rfl

/-- But for the records it keeps, a system moves its activations in turn. -/
theorem advanceIn_eq (elapsed : Scalar) (qs : List Sequence) (r : Surroundings) (h : Host) :
    (advanceIn elapsed qs r h).1.1 = (inTurn (turn elapsed) qs r h).1.1 ∧
      (advanceIn elapsed qs r h).1.2.2 = (inTurn (turn elapsed) qs r h).1.2 := by
  induction qs generalizing h with
  | nil => exact ⟨rfl, rfl⟩
  | cons q qs ih =>
    rw [inTurn_cons]
    cases hq : q.isFailed with
    | true =>
      rw [advanceIn_of_failed hq, turn_of_failed hq]
      exact ⟨congrArg (q :: ·) (ih h).1, (ih h).2⟩
    | false =>
      rw [advanceIn_of_live hq, turn, Tick.run_bind]
      dsimp only [Sequence.ticked]
      generalize q.advance elapsed r h = x
      obtain ⟨⟨q', halt⟩, h'⟩ := x
      by_cases ho : halt = some .outOfFuel
      · simp [ho]
      · simp [ho, ih h']

def ticked (s : System) (m : Moment) : System := (s.advance m.elapsed m.surroundings m.host).1.1

def movedSequences (s : System) (m : Moment) : List Sequence × Option Halt :=
  (inTurn (turn m.elapsed) s.sequences m.surroundings m.host).1

theorem ticked_sequences (s : System) (m : Moment) :
    (s.ticked m).sequences =
      if (s.movedSequences m).2.isSome then (s.movedSequences m).1
      else (s.movedSequences m).1.filter fun q => !q.hasEnded := by
  obtain ⟨hq, hh⟩ := advanceIn_eq m.elapsed s.sequences m.surroundings m.host
  rw [ticked, advance, Tick.run_bind, movedSequences, ← hq, ← hh]
  dsimp only
  split
  · rfl
  · exact List.filter_congr fun q _ => (Bool.not_or ..).symm

def moment? (s : System) (m : Moment) (i : Nat) : Option Moment :=
  (turnHost? (turn m.elapsed) s.sequences i m.surroundings m.host).map fun host => { m with host }

def stands? (s : System) (m : Moment) (i : Nat) : Option Nat :=
  if (s.movedSequences m).2.isSome then some i
  else standing (fun q => !q.hasEnded) (s.movedSequences m).1 i

def sequenceAfter (s : System) (m : Moment) (i : Nat) (q : Sequence) : Sequence :=
  match s.moment? m i with
  | some u => (q.ticked u).1.1
  | none => q

/-- An activation after a tick: let go because it has failed or is complete, or still there. -/
theorem sequence_fares {s : System} {m : Moment} {i : Nat} {q : Sequence}
    (hq : s.sequences[i]? = some q) :
    Fares Sequence.Lasts hasEnded (s.ticked m).sequences (s.sequenceAfter m i q)
      (s.stands? m i) := by
  have hm : (s.movedSequences m).1[i]? = some (s.sequenceAfter m i q) := by
    rw [movedSequences, getElem?_inTurn hq, sequenceAfter, moment?]
    cases turnHost? _ s.sequences i m.surroundings m.host <;> rfl
  rw [stands?, ticked_sequences]
  split
  · exact .unmoved hm (.refl Sequence.Lasts.refl _)
  · exact .left hm (.refl Sequence.Lasts.refl _)

/-- What has no turn stays where it is. -/
theorem stands?_of_none {s : System} {m : Moment} {i : Nat} (h : s.moment? m i = none) :
    s.stands? m i = some i :=
  if_pos (isSome_of_turnHost? (Option.map_eq_none_iff.mp h))

end EffectMachine.System
