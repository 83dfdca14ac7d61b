import EffectMachine.Sequence.Perform

namespace EffectMachine

inductive Next where
  | proceed
  | splice (effects : List Effect)
  | hold
  | halt (why : Halt)

/-- Runs the stop handlers of a sequence that was stopped. Stopping only calls for them, so it works
in any monad that they run in. -/
abbrev StopHandlers (m : Type → Type) := Sequence → m (Sequence × Option Halt)

namespace SequenceBody

/-- Stopped: nothing waits any more, and the emitters end emission. -/
def halted (s : SequenceBody) : SequenceBody :=
  { s with
    stopped := true
    queue := []
    blockers := []
    control := s.control.clear
    scheduledStart := none
    emitters := stopEmitters s.emitters }

/-- Takes the delay of the head from the budget, once. -/
def charge (s : SequenceBody) (head : Pending) (rest : List Pending) : SequenceBody :=
  if head.charged then s
  else
    { s with
      budget := s.budget - Scalar.ofNat head.effect.delay.toNat
      queue := { head with charged := true } :: rest }

/-- Gives up what is left of the budget, but no debt. -/
def capBudget (s : SequenceBody) : SequenceBody := { s with budget := s.budget.min 0 }

/-- The queue ran dry. The completion handlers come once; then a looping sequence starts over,
once in a tick, with an empty control stack and its own emitters told to stop. -/
def requeued (s : SequenceBody) : SequenceBody × Bool :=
  if !s.completionRan && !s.routine.onComplete.isEmpty then
    (({ s with completionRan := true }).enqueue s.routine.onComplete, true)
  else
    let s := { s with completionRan := true }
    if s.looping && !s.stopped && !s.refilled then
      let cleared := { s with refilled := true, control := s.control.clear }
      let again := (cleared.stopWhere fun g => g.owner = some s.id).enqueue s.routine.effects
      (again, !again.queue.isEmpty)
    else (s, false)

end SequenceBody

section Stopping

variable {m : Type → Type} [Monad m]

mutual

/-- Stops a sequence that is neither stopped nor failed: first its children, then itself. -/
def Sequence.stopWith (run : StopHandlers m) : Sequence → m (Sequence × Option Halt)
  | .mk body children => do
    if body.stopped || body.isFailed then return (.mk body children, none)
    let (children, halt) ← stopAllWith run children
    if halt.isSome then return (.mk body.halted children, halt)
    run (.mk body.halted children)

/-- Each in turn, up to the first that fails. -/
def stopAllWith (run : StopHandlers m) : List Sequence → m (List Sequence × Option Halt)
  | [] => return ([], none)
  | c :: cs => do
    let (c, halt) ← c.stopWith run
    if halt.isSome then return (c :: cs, halt)
    let (cs, halt) ← stopAllWith run cs
    return (c :: cs, halt)

end

mutual

/-- Stops the descendants that run a routine, and counts them. Nothing below one is looked at. -/
def Sequence.stopRoutineWith (run : StopHandlers m) (id : ResourceId) :
    Sequence → m (Sequence × Nat × Option Halt)
  | .mk body children => do
    let (children, count, halt) ← stopRoutineIn run id children
    return (.mk body children, count, halt)

def stopRoutineIn (run : StopHandlers m) (id : ResourceId) :
    List Sequence → m (List Sequence × Nat × Option Halt)
  | [] => return ([], 0, none)
  | c :: cs => do
    let (c, count, halt) ←
      if c.body.routine.id = id && !c.body.stopped then do
        let (c, halt) ← c.stopWith run
        pure (c, 1, halt)
      else c.stopRoutineWith run id
    if halt.isSome then return (c :: cs, count, halt)
    let (cs, more, halt) ← stopRoutineIn run id cs
    return (c :: cs, count + more, halt)

end

end Stopping

namespace Sequence

/-- A fault ends a sequence; running out of fuel leaves it as it is. -/
def settle (s : Sequence) (halt : Option Halt) : Tick (Sequence × Option Halt) := do
  match halt with
  | some (.fault fault) => return (mk (← s.body.fail fault) s.children, halt)
  | _ => return (s, halt)

/-- Runs one effect, with what it does to the children. -/
def execute (run : StopHandlers Tick) (s : Sequence) (e : Effect) : Tick (Sequence × Next) := do
  let (body, flow) ← s.body.perform e
  match flow with
  | .proceed => return (mk body s.children, .proceed)
  | .spawned child => return (mk body (s.children ++ [child]), .proceed)
  | .splice effects => return (mk body s.children, .splice effects)
  | .hold => return (mk body s.children, .hold)
  | .stopRoutine id =>
    let (children, _, halt) ← stopRoutineIn run id s.children
    return (mk body children, match halt with | some why => .halt why | none => .proceed)
  | .fault fault => return (mk body s.children, .halt (.fault fault))

/-- Is an effect passed over in the block where the sequence stands? -/
def skips (s : Sequence) (e : Effect) : Bool :=
  s.body.control.isSkipping && !e.action.isBlockBoundary

/-- Runs effects at once. A closed gate drops the rest of them. Children that they start block
nothing. -/
def runHandlers (run : StopHandlers Tick) :
    Nat → List Effect → Sequence → Tick (Sequence × Option Halt)
  | 0, _, s => return (s, some .outOfFuel)
  | _ + 1, [], s => return (s.mapBody fun body => { body with blockers := [] }, none)
  | n + 1, e :: es, s => do
    if s.skips e then runHandlers run n es s
    else
      match ← s.execute run e with
      | (s, .proceed) => runHandlers run n es s
      | (s, .splice effects) => runHandlers run n (effects ++ es) s
      | (s, .hold) =>
        return (s.mapBody fun body =>
          { body with queue := [], scheduledStart := none, blockers := [] }, none)
      | (s, .halt why) => return (s, some why)

/-- Runs the stop handlers of a sequence; a fault in them is a fault of the sequence. Handlers may
stop others, whose handlers run within, so many deep. -/
def runStopHandlers : Nat → StopHandlers Tick
  | 0, s => return (s, some .outOfFuel)
  | depth + 1, s => do
    let (s, halt) ← runHandlers (runStopHandlers depth) (← read).fuel s.body.routine.onStop s
    s.settle halt

/-- Stops the sequence and all below it. Particles that are there live on. -/
def stop (s : Sequence) : Tick (Sequence × Option Halt) := do
  s.stopWith (runStopHandlers (← read).fuel)

def stopRoutine (s : Sequence) (id : ResourceId) : Tick (Sequence × Nat × Option Halt) := do
  s.stopRoutineWith (runStopHandlers (← read).fuel) id

/-- What one turn of the draining loop comes upon. -/
inductive DrainEvent where
  /-- A child has to end first. -/
  | blocked
  /-- The queue is empty and stays so. -/
  | dry
  /-- The queue was empty and was filled again. -/
  | requeued
  | skipped (effect : Effect)
  /-- The delay of the head is not yet paid. -/
  | waiting
  | ran (effect : Effect)
  /-- A gate is closed. -/
  | held (effect : Effect)
  | halted (effect : Effect) (why : Halt)

def drainStep (run : StopHandlers Tick) (s : Sequence) : Tick (Sequence × DrainEvent) := do
  if !s.body.blockers.isEmpty then return (s.mapBody (·.capBudget), .blocked)
  match s.body.queue with
  | [] =>
    let (body, again) := s.body.requeued
    return (mk body s.children, if again then .requeued else .dry)
  | head :: rest =>
    if s.skips head.effect then
      return (s.mapBody fun body => { body with queue := rest }, .skipped head.effect)
    let body := s.body.charge head rest
    if body.budget < 0 then return (mk body s.children, .waiting)
    match ← (mk { body with queue := rest } s.children).execute run head.effect with
    | (s, .proceed) => return (s, .ran head.effect)
    | (s, .splice effects) =>
      return (s.mapBody fun body =>
        { body with queue := SequenceBody.pendingOf effects ++ body.queue }, .ran head.effect)
    | (s, .hold) => return (s.mapBody (·.capBudget), .held head.effect)
    | (s, .halt why) => return (s, .halted head.effect why)

def drain (run : StopHandlers Tick) : Nat → Sequence → Tick (Sequence × Option Halt)
  | 0, s => return (s, some .outOfFuel)
  | n + 1, s => do
    match ← s.drainStep run with
    | (s, .requeued) => drain run n s
    | (s, .skipped _) => drain run n s
    | (s, .ran _) => drain run n s
    | (s, .halted _ why) => return (s, some why)
    | (s, _) => return (s, none)

/-- Lets go of the children that have ended, and of the blockers among them. -/
def dropEnded (s : Sequence) : Sequence :=
  let children := s.children.filter fun c => !c.isFailed && !c.isComplete
  mk { s.body with
      blockers := s.body.blockers.filter fun id => children.any fun c => c.body.id = id }
    children

def earn (s : Sequence) (elapsed : Scalar) : Sequence :=
  s.mapBody fun body => { body with budget := body.budget + elapsed * body.playbackRate }

/-- Moves the emitters and lets go of those that have ended. -/
def advanceOwned (s : Sequence) (elapsed : Scalar) : Tick (Sequence × Option Halt) := do
  let (emitters, halt) ← advanceEmitters none elapsed s.body.emitters
  if halt.isSome then return (mk { s.body with emitters } s.children, halt)
  return (mk { s.body with emitters := emitters.filter fun e => !e.isExpired } s.children, none)

/-- The sequence's own part of a tick, after its children have moved. -/
def advanceSelf (s : Sequence) (elapsed : Scalar) : Tick (Sequence × Option Halt) := do
  let fuel := (← read).fuel
  let (s, halt) ← (s.dropEnded.earn elapsed).drain (runStopHandlers fuel) fuel
  if halt.isSome then s.settle halt
  else
    let (s, halt) ← s.advanceOwned elapsed
    s.settle halt

end Sequence

mutual

/-- One tick of a sequence. The fault of a failed one comes back again. -/
def Sequence.advance (elapsed : Scalar) : Sequence → Tick (Sequence × Option Halt)
  | .mk body children => do
    match body.failure with
    | some fault => return (.mk body children, some (.fault fault))
    | none =>
      let (children, halt) ← advanceChildren body.routine.id elapsed children
      let s := Sequence.mk { body with refilled := false } children
      if halt.isSome then return (s, halt)
      s.advanceSelf elapsed

/-- Each in turn. The fault of a child is noted and ends only the child. -/
def advanceChildren (parent : ResourceId) (elapsed : Scalar) :
    List Sequence → Tick (List Sequence × Option Halt)
  | [] => return ([], none)
  | c :: cs => do
    let (c, halt) ← c.advance elapsed
    match halt with
    | some .outOfFuel => return (c :: cs, halt)
    | some (.fault fault) => Tick.note (.childFailed parent c.body.routine.id fault)
    | none => pure ()
    let (cs, halt) ← advanceChildren parent elapsed cs
    return (c :: cs, halt)

end

end EffectMachine
