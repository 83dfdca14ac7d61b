import EffectMachine.Resource.Directory
import EffectMachine.World.Clock
import EffectMachine.World.Random
import EffectMachine.World.Stage

namespace EffectMachine

/-- Fixed for the length of a tick. -/
structure Surroundings where
  directory : Directory
  scene : Scene
  clock : Clock
  config : Config
  /-- How often any one loop may go round. Streams can hold loops without an end. -/
  fuel : Nat

structure SequenceId where
  number : Nat
deriving DecidableEq

structure Host where
  rng : Rng
  stage : Stage := {}
  log : Log := []
  nextSequence : Nat := 1

/-- Reads the surroundings and threads the host: draws, commands, notices and new names happen in
the order in which instructions run. -/
abbrev Tick := ReaderT Surroundings (StateM Host)

inductive Halt where
  | fault (fault : Fault)
  /-- A loop went round more often than allowed. -/
  | outOfFuel
deriving DecidableEq

namespace Tick

def draw {α : Type} (d : Draw α) : Tick α := fun _ h =>
  let (x, rng) := d h.rng
  (x, { h with rng })

def note (n : Notice) : Tick Unit := fun _ h => ((), { h with log := n :: h.log })

def submit (c : Command) : Tick Unit := fun _ h => ((), { h with stage := h.stage.submit c })

def playSound (sound : ResourceId) (position : Vec3) (volume : Scalar) (follow : Option ActorId) :
    Tick SoundHandle := fun _ h =>
  let (handle, stage) := h.stage.playSound sound position volume follow
  (handle, { h with stage })

def isPlaying (handle : SoundHandle) : Tick Bool := fun _ h => (h.stage.isPlaying handle, h)

/-- A name that no sequence had before. -/
def newSequence : Tick SequenceId := fun _ h =>
  (⟨h.nextSequence⟩, { h with nextSequence := h.nextSequence + 1 })

end Tick
end EffectMachine
