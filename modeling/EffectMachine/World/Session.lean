import EffectMachine.World.Tick

namespace EffectMachine

/-- The surroundings of the next tick and the host that it changes. Time passes in `elapse`, one
tick at a time; between ticks the scene and the time of day may be changed. -/
structure Session where
  surroundings : Surroundings
  host : Host

namespace Session

/-- A session at noon, with the draws of the configured seed. -/
def start (directory : Directory) (scene : Scene) (config : Config) (fuel : Nat) : Session :=
  ⟨⟨directory, scene, Clock.ofConfig config, config, fuel⟩, { rng := Rng.ofSeed config.seed }⟩

def mapScene (s : Session) (f : Scene → Scene) : Session :=
  { s with surroundings := { s.surroundings with scene := f s.surroundings.scene } }

def mapClock (s : Session) (f : Clock → Clock) : Session :=
  { s with surroundings := { s.surroundings with clock := f s.surroundings.clock } }

def mapStage (s : Session) (f : Stage → Stage) : Session :=
  { s with host := { s.host with stage := f s.host.stage } }

/-- Runs something without time passing. -/
def run {α : Type} (s : Session) (t : Tick α) : α × Session :=
  let (x, host) := t s.surroundings s.host
  (x, { s with host })

/-- Lets frames pass: the clock moves, the tick runs for the frames that passed, then sounds age. -/
def elapse {α : Type} (s : Session) (frames : Scalar) (tick : Scalar → Tick α) : α × Session :=
  let (clock, elapsed) := s.surroundings.clock.tickFrames frames
  let (x, s) := (s.mapClock fun _ => clock).run (tick elapsed)
  (x, s.mapStage (·.advance elapsed))

end Session
end EffectMachine
