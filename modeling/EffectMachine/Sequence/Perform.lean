import EffectMachine.Sequence.Basic

namespace EffectMachine

inductive Flow where
  | proceed
  /-- A child begins; the sequence may have to wait for it. -/
  | spawned (child : Sequence)
  /-- These effects come next. -/
  | splice (effects : List Effect)
  /-- A closed gate: nothing else runs in this tick. -/
  | hold
  /-- Children that run a routine are to stop. -/
  | stopRoutine (routine : ResourceId)
  | fault (fault : Fault)

namespace SequenceBody

def conditionValue (s : SequenceBody) : ConditionSource → Tick Int32
  | .constant value => return value
  | .gameState code => do
    match GameStateInput.ofCode? code with
    | some input => return s.binding.gameState input
    | none =>
      Tick.note (.unknownGameState s.routine.id code)
      return 0
  | .random bound => Tick.draw (Draw.below bound)
  | .unknown tag value => do
    Tick.note (.unknownSource s.routine.id tag value)
    return 0

/-- Starts a generator of the routine's directory or a parent of it. -/
def spawnGenerator (s : SequenceBody) (id : ResourceId) (duration : UInt16)
    (follow : Option FollowPath) : Tick SequenceBody := do
  match (← read).directory.generator? id (.ancestors s.routine.origin) with
  | none =>
    Tick.note (.generatorMissing s.routine.id id)
    return s
  | some g =>
    let fresh := (EmitterBody.fresh g s.binding).withWindow (Scalar.ofNat duration.toNat)
    let emitter := Emitter.ofBody { fresh with owner := some s.id, follow }
    return { s with emitters := s.emitters ++ [emitter] }

/-- Starts a child one level deeper, at the playback rate of the configuration. -/
def spawnRoutine (s : SequenceBody) (id : ResourceId) (blocking : Bool) (scope : SearchScope) :
    Tick (SequenceBody × Flow) := do
  let surroundings ← read
  if surroundings.config.maxNestingDepth ≤ s.depth then
    Tick.note (.childRoutineTooDeep s.routine.id id s.depth)
    return (s, .proceed)
  match surroundings.directory.routine? id scope with
  | none =>
    Tick.note (.childRoutineMissing s.routine.id id)
    return (s, .proceed)
  | some r =>
    let child ← Sequence.start r s.binding surroundings.config.playbackRate (s.depth + 1)
    let blockers := if blocking then s.blockers ++ [child.body.id] else s.blockers
    return ({ s with blockers }, .spawned child)

/-- Draws one of several routines and runs its effects in place. -/
def chooseRoutine (s : SequenceBody) (choices : List ResourceId) : Tick Flow := do
  if choices.isEmpty then
    Tick.note (.noChoices s.routine.id)
    return .proceed
  let index ← Tick.draw (Draw.below (Int32.ofNat choices.length))
  let pick := (choices[index.toInt.toNat]?).getD ResourceId.none
  match (← read).directory.routine? pick (.ancestors s.routine.origin) with
  | some chosen => return .splice chosen.effects
  | none =>
    Tick.note (.choiceMissing s.routine.id pick)
    return .proceed

/-- A gate lets the queue pass inside its window. A closed one goes back to the head of the queue
with its delay paid. -/
def passGate (s : SequenceBody) (e : Effect) (startMinute endMinute : UInt16) :
    Tick (SequenceBody × Flow) := do
  if (← read).clock.inWindow startMinute endMinute then
    return ({ s with scheduledStart := none }, .proceed)
  return ({ s with
      scheduledStart := some startMinute
      queue := { effect := e, charged := true } :: s.queue }, .hold)

/-- Ends emission in the emitters that a test picks. -/
def stopWhere (s : SequenceBody) (pick : EmitterBody → Bool) : SequenceBody :=
  { s with emitters := s.emitters.map fun e => if pick e.body then e.stop else e }

def notes : List Notice → Tick Unit
  | [] => return ()
  | n :: ns => do
    Tick.note n
    notes ns

def steer (s : SequenceBody) (e : Effect) : Tick (SequenceBody × Flow) :=
  match e.action with
  | .spawnGenerator id => return (← s.spawnGenerator id e.duration none, .proceed)
  | .followPoints id points arcHeight =>
    return (← s.spawnGenerator id e.duration (some ⟨points, arcHeight⟩), .proceed)
  | .stopGenerator id => return (s.stopWhere fun g => g.definition.id = id, .proceed)
  | .stopAllGenerators => return (s.stopWhere fun _ => true, .proceed)
  | .spawnRoutine id blocking => s.spawnRoutine id blocking (.ancestors s.routine.origin)
  | .linkRoutine id blocking => s.spawnRoutine id blocking .everywhere
  | .randomRoutine choices => return (s, ← s.chooseRoutine choices)
  | .stopRoutine id => return (s, .stopRoutine id)
  | .beginBlock => return ({ s with control := s.control.beginBlock }, .proceed)
  | .endBlock =>
    match s.control.endBlock with
    | .ok (_, control) => return ({ s with control }, .proceed)
    | .error fault => return (s, .fault fault)
  | .condition register source => do
    let value ← s.conditionValue source
    match s.control.setRegister register value with
    | .ok (control, notices) =>
      notes notices
      return ({ s with control }, .proceed)
    | .error fault => return (s, .fault fault)
  | .branch whenTrue => do
    match s.control.branch whenTrue with
    | .ok (_, control, notices) =>
      notes notices
      return ({ s with control }, .proceed)
    | .error fault => return (s, .fault fault)
  | .playbackRate rate => return ({ s with playbackRate := rate.max 0 }, .proceed)
  | .loopRoutine => return ({ s with looping := true }, .proceed)
  | .timeOfDayGate startMinute endMinute => s.passGate e startMinute endMinute
  | .broadcastOverride enabled =>
    let binding := s.binding.mapContext fun c => { c with broadcastOverride := enabled }
    return ({ s with binding }, .proceed)
  | .snapshot position joints =>
    let binding := s.binding.mapContext fun c =>
      { c with snapshotPosition := position, snapshotJoints := joints }
    return ({ s with binding }, .proceed)
  | _ => return (s, .proceed)

def perform (s : SequenceBody) (e : Effect) : Tick (SequenceBody × Flow) := do
  match SideEffect.of? (← read).scene s.binding e with
  | some sideEffect =>
    sideEffect.perform e.action
    return (s, .proceed)
  | none => s.steer e

end SequenceBody
end EffectMachine
