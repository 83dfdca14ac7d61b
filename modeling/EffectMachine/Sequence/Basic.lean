import EffectMachine.Particle.Advance
import EffectMachine.Particle.Instances
import EffectMachine.Sequence.SideEffect

namespace EffectMachine

structure Pending where
  effect : Effect
  /-- Its delay was taken from the budget. -/
  charged : Bool := false

/-- A routine that runs. It earns frames with every tick and spends them on the delays of the
effects in its queue. -/
structure SequenceBody where
  id : SequenceId
  routine : Routine
  binding : Binding
  depth : UInt8
  queue : List Pending
  control : ControlStack
  /-- Frames that may still be spent. -/
  budget : Scalar
  playbackRate : Scalar
  /-- Children that have to end first. -/
  blockers : List SequenceId
  emitters : List Emitter
  /-- When the gate opens that holds the queue. -/
  scheduledStart : Option UInt16
  looping : Bool
  stopped : Bool
  /-- The completion handlers were queued. -/
  completionRan : Bool
  /-- The main list was queued again in this tick. -/
  refilled : Bool
  failure : Option Fault

inductive Sequence where
  | mk (body : SequenceBody) (children : List Sequence)

inductive SequenceState where
  /-- Runs, or waits out a delay. -/
  | running
  /-- Waits for a child. -/
  | blocked
  /-- A gate holds it. -/
  | scheduled
  /-- Has nothing left to run, but something that it started goes on. -/
  | finishing
  | complete
  | failed
deriving DecidableEq

def SequenceState.name : SequenceState → String
  | running => "Running"
  | blocked => "Blocked"
  | scheduled => "Scheduled"
  | finishing => "Finishing"
  | complete => "Complete"
  | failed => "Failed"

namespace SequenceBody

def pendingOf (effects : List Effect) : List Pending := effects.map fun effect => { effect }

def fresh (id : SequenceId) (r : Routine) (binding : Binding) (playbackRate : Scalar)
    (depth : UInt8) : SequenceBody where
  id := id
  routine := r
  binding := binding
  depth := depth
  queue := pendingOf r.effects
  control := ControlStack.empty r.id
  budget := 0
  playbackRate := playbackRate
  blockers := []
  emitters := []
  scheduledStart := none
  looping := false
  stopped := false
  completionRan := false
  refilled := false
  failure := none

def isFailed (s : SequenceBody) : Bool := s.failure.isSome

/-- Nothing waits, and nothing will be queued again. -/
def isDoneExecuting (s : SequenceBody) : Bool :=
  s.queue.isEmpty && s.blockers.isEmpty && s.scheduledStart.isNone &&
    (s.completionRan || s.routine.onComplete.isEmpty || s.stopped) && (!s.looping || s.stopped)

def enqueue (s : SequenceBody) (effects : List Effect) : SequenceBody :=
  { s with queue := s.queue ++ pendingOf effects }

/-- Frames until the gate opens that holds the sequence. -/
def framesUntilStart (s : SequenceBody) (c : Clock) : Option Scalar :=
  s.scheduledStart.map c.framesUntil

/-- Ends the sequence with a fault: its queue is dropped and its emitters end emission. -/
def fail (s : SequenceBody) (fault : Fault) : Tick SequenceBody := do
  Tick.note (.sequenceFailed s.routine.id fault)
  return { s with
    queue := []
    blockers := []
    emitters := stopEmitters s.emitters
    failure := some fault }

end SequenceBody

namespace Sequence

def body : Sequence → SequenceBody
  | mk body _ => body

def children : Sequence → List Sequence
  | mk _ children => children

def mapBody (f : SequenceBody → SequenceBody) : Sequence → Sequence
  | mk body children => mk (f body) children

def start (r : Routine) (binding : Binding) (playbackRate : Scalar) (depth : UInt8) :
    Tick Sequence := do
  return mk (SequenceBody.fresh (← Tick.newSequence) r binding playbackRate depth) []

def isFailed (s : Sequence) : Bool := s.body.isFailed
def isDoneExecuting (s : Sequence) : Bool := s.body.isDoneExecuting

end Sequence

mutual

/-- Done, and everything that it started has ended. -/
def Sequence.isComplete : Sequence → Bool
  | .mk body children =>
    !body.isFailed && body.isDoneExecuting && body.emitters.isEmpty && allComplete children

def allComplete : List Sequence → Bool
  | [] => true
  | c :: cs => c.isComplete && allComplete cs

end

mutual

def Sequence.liveCount : Sequence → Nat
  | .mk body children => liveInEmitters body.emitters + liveInSequences children

def liveInSequences : List Sequence → Nat
  | [] => 0
  | s :: ss => s.liveCount + liveInSequences ss

end

mutual

/-- The instances of its own emitters, then those of its children. -/
def Sequence.instances : Sequence → List Instance
  | .mk body children => instancesOfEmitters body.emitters ++ instancesOfSequences children

def instancesOfSequences : List Sequence → List Instance
  | [] => []
  | s :: ss => s.instances ++ instancesOfSequences ss

end

namespace Sequence

def state (s : Sequence) : SequenceState :=
  if s.isFailed then .failed
  else if s.isComplete then .complete
  else if s.isDoneExecuting then .finishing
  else if !s.body.blockers.isEmpty then .blocked
  else if s.body.scheduledStart.isSome then .scheduled
  else .running

end Sequence
end EffectMachine
