import EffectMachine.Sequence.Run

namespace EffectMachine

structure ActivationFailure where
  sequence : SequenceId
  routine : ResourceId
  fault : Fault

/-- All activations of a host, in the order in which they were triggered. One that completes is
dropped, and one that fails is dropped with a record. -/
structure System where
  sequences : List Sequence := []
  /-- Failures since they were last taken, in order. -/
  failures : List ActivationFailure := []

namespace System

def size (s : System) : Nat := s.sequences.length

def get? (s : System) (id : SequenceId) : Option Sequence :=
  s.sequences.find? fun q => q.body.id = id

def liveCount (s : System) : Nat := liveInSequences s.sequences

def instances (s : System) : List Instance := instancesOfSequences s.sequences

def start (s : System) (r : Routine) (binding : Binding) : Tick (System × SequenceId) := do
  let q ← Sequence.start r binding (← read).config.playbackRate 0
  return ({ s with sequences := s.sequences ++ [q] }, q.body.id)

/-- Looks a routine up and starts it; one that is not there is noted. -/
def trigger (s : System) (id : ResourceId) (scope : SearchScope) (binding : Binding) :
    Tick (System × Option SequenceId) := do
  match (← read).directory.routine? id scope with
  | none =>
    Tick.note (.unknownTrigger id)
    return (s, none)
  | some r =>
    let (s, q) ← s.start r binding
    return (s, some q)

/-- The record of a failure, if a sequence came out of a step with one. -/
def failureOf (q : Sequence) : Option Halt → List ActivationFailure
  | some (.fault fault) => [⟨q.body.id, q.body.routine.id, fault⟩]
  | _ => []

/-- Stops the first activation of a name. -/
def stopIn (id : SequenceId) :
    List Sequence → Tick (List Sequence × List ActivationFailure × Bool)
  | [] => return ([], [], false)
  | q :: qs => do
    if q.body.id = id then
      let (q, halt) ← q.stop
      return (q :: qs, failureOf q halt, true)
    let (qs, failures, found) ← stopIn id qs
    return (q :: qs, failures, found)

/-- Stops an activation; false when there is none of that name. -/
def stop (s : System) (id : SequenceId) : Tick (System × Bool) := do
  let (sequences, failures, found) ← stopIn id s.sequences
  return ({ sequences, failures := s.failures ++ failures }, found)

def stopEach (s : System) : List SequenceId → Tick (System × Nat)
  | [] => return (s, 0)
  | id :: ids => do
    let (s, found) ← s.stop id
    let (s, count) ← s.stopEach ids
    return (s, count + if found then 1 else 0)

/-- Stops every activation of a routine that is not stopped, and counts them. -/
def stopRoutine (s : System) (id : ResourceId) : Tick (System × Nat) :=
  let running := s.sequences.filter fun q => q.body.routine.id = id && !q.body.stopped
  s.stopEach (running.map (·.body.id))

/-- One tick of each activation that has not failed. -/
def advanceIn (elapsed : Scalar) :
    List Sequence → Tick (List Sequence × List ActivationFailure × Option Halt)
  | [] => return ([], [], none)
  | q :: qs => do
    if q.isFailed then
      let (qs, failures, halt) ← advanceIn elapsed qs
      return (q :: qs, failures, halt)
    let (q, halt) ← q.advance elapsed
    if halt = some .outOfFuel then return (q :: qs, [], halt)
    let (qs, failures, rest) ← advanceIn elapsed qs
    return (q :: qs, failureOf q halt ++ failures, rest)

/-- One tick of everything. What comes back beside the system tells whether the fuel ran out. -/
def advance (s : System) (elapsed : Scalar) : Tick (System × Option Halt) := do
  let (sequences, failures, halt) ← advanceIn elapsed s.sequences
  let s := { sequences, failures := s.failures ++ failures }
  if halt.isSome then return (s, halt)
  return ({ s with sequences := s.sequences.filter fun q => !q.isFailed && !q.isComplete }, none)

def takeFailures (s : System) : List ActivationFailure × System :=
  (s.failures, { s with failures := [] })

end System
end EffectMachine
