import EffectMachine.Main
import EffectMachine.Proofs.Instances
import EffectMachine.Proofs.KeyFrames
import EffectMachine.Proofs.Particle.CatchUp
import EffectMachine.Proofs.Particle.Restarts
import EffectMachine.Proofs.Particle.Schedule
import EffectMachine.Proofs.Particle.Singletons
import EffectMachine.Proofs.Resource.Lookup
import EffectMachine.Proofs.Resource.Spelling
import EffectMachine.Proofs.Routine.Choices
import EffectMachine.Proofs.Routine.RoundTrip
import EffectMachine.Proofs.Sequence.BlockDrains
import EffectMachine.Proofs.Sequence.Containment
import EffectMachine.Proofs.Sequence.Done
import EffectMachine.Proofs.Sequence.Immediate
import EffectMachine.Proofs.Sequence.QueueOrder
import EffectMachine.Proofs.Sequence.Search
import EffectMachine.Proofs.Sequence.SectionStarts
import EffectMachine.Proofs.Sequence.Stopping
import EffectMachine.Proofs.Sequence.Termination
import EffectMachine.Proofs.Sequence.TopFrames
import EffectMachine.Proofs.Sequence.Underflow
import EffectMachine.Proofs.Stage
import EffectMachine.Proofs.Stream.Positions
import EffectMachine.Proofs.System.Accounting
import EffectMachine.Proofs.System.Apart
import EffectMachine.Proofs.System.Confinement
import EffectMachine.Proofs.System.Depths
import EffectMachine.Proofs.System.Draws
import EffectMachine.Proofs.System.FaultKinds
import EffectMachine.Proofs.System.FirstDelays
import EffectMachine.Proofs.System.Forecasts
import EffectMachine.Proofs.System.Passes
import EffectMachine.Proofs.System.Snapshots
import EffectMachine.Proofs.System.Waiting
import EffectMachine.Proofs.Tables
import EffectMachine.Proofs.World.Attachments
import EffectMachine.Proofs.World.Directions
