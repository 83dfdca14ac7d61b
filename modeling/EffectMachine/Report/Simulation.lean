import EffectMachine.Report.Document
import EffectMachine.Sequence.System
import EffectMachine.World.Session

namespace EffectMachine

/-- A source at the origin, a target at a distance that faces it, and an observer behind. -/
def trialScene (distance : Scalar) : Scene :=
  let ring := (Joint.ring.zipIdx).map fun (joint, i) =>
    let angle := Scalar.ofNat i * (Scalar.pi / 4)
    (joint, (⟨angle.sin, 1, angle.cos⟩ : Vec3))
  let source : Actor :=
    { position := Vec3.zero
      joints := [(0x01, ⟨0, 1.6, 0⟩), (0x1A, ⟨-0.3, 1, -0.2⟩), (0x1B, ⟨0.4, 1.2, 0.3⟩)] ++ ring }
  let target : Actor :=
    { position := ⟨0, 0, distance⟩
      facing := Rotation.aboutVertical Scalar.pi
      joints := [(0x01, ⟨0, 1.6, 0⟩)] }
  { actors := [(⟨1⟩, source), (⟨2⟩, target)], observer := ⟨0, 3, -8⟩ }

/-- What there is at the end of a frame. -/
structure FrameSample where
  frame : Nat
  sequences : Nat
  particles : Nat
  commands : Nat

structure TrialReport where
  routine : ResourceId
  /-- Frames that ran. -/
  frames : Nat := 0
  completedAt : Option Nat := none
  peakParticles : Nat := 0
  peakBytes : Nat := 0
  /-- Names of the commands, in order. -/
  commands : List String := []
  /-- What failed, latest first. -/
  failures : List String := []
  /-- Latest first. -/
  samples : List FrameSample := []

structure Trial where
  session : Session
  system : System
  report : TrialReport

namespace Trial

def failureText (frame : Nat) (f : ActivationFailure) : String :=
  "frame " ++ toString frame ++ ": " ++ f.routine.display ++ " " ++ f.fault.message

/-- One frame, with a sample if it is the turn of one. -/
def step (every frame : Nat) (t : Trial) : Trial :=
  let ((system, _), session) := t.session.elapse 1 t.system.advance
  let (failures, system) := system.takeFailures
  let particles := system.instances.length
  let sample : FrameSample := ⟨frame, system.size, particles, session.host.stage.recorded.length⟩
  let report := t.report
  ⟨session, system,
    { report with
      frames := frame
      completedAt := if system.sequences.isEmpty then some frame else none
      peakParticles := max report.peakParticles particles
      peakBytes := max report.peakBytes (particles * Instance.byteSize)
      failures := (failures.map (failureText frame)).reverse ++ report.failures
      samples := if 0 < every && frame % every = 0 then sample :: report.samples
        else report.samples }⟩

def run (every : Nat) : Nat → Nat → Trial → Trial
  | 0, _, t => t
  | left + 1, frame, t =>
    let t := t.step every frame
    if t.report.completedAt.isSome then t else run every left (frame + 1) t

/-- Starts a routine on a session; there is no trial of a routine that is not there. -/
def start? (session : Session) (binding : Binding) (routine : ResourceId) : Option Trial :=
  let ((system, id?), session) := session.run (({} : System).trigger routine .everywhere binding)
  id?.map fun _ => ⟨session, system, { routine }⟩

def finished (t : Trial) : TrialReport :=
  { t.report with commands := t.session.host.stage.commands.map Command.name }

end Trial

namespace TrialReport

def counts (r : TrialReport) : List (String × Nat) :=
  let names := r.commands.eraseDups.mergeSort fun a b => decide (a ≤ b)
  names.map fun name => (name, r.commands.count name)

private def padded (width : Nat) (s : String) : String :=
  String.ofList (List.replicate (width - s.length) ' ') ++ s

def sampleLine (s : FrameSample) : String :=
  "frame " ++ padded 5 (toString s.frame) ++ "  sequences " ++ padded 3 (toString s.sequences) ++
    "  particles " ++ padded 5 (toString s.particles) ++ "  side effects " ++
    padded 5 (toString s.commands) ++ "\n"

private def countLine : String × Nat → String
  | (name, n) =>
    let gap := String.ofList (List.replicate (16 - name.length) ' ')
    "  " ++ name ++ gap ++ " " ++ toString n ++ "\n"

def text (r : TrialReport) : String :=
  let ending := match r.completedAt with
    | some frame => "  completed at frame " ++ toString frame ++ "\n"
    | none => "  still running after " ++ toString r.frames ++ " frames\n"
  String.join (r.samples.reverse.map sampleLine) ++
    "routine " ++ r.routine.display ++ "\n" ++ ending ++
    "  peak particles " ++ toString r.peakParticles ++ " (" ++ toString r.peakBytes ++
    " instance bytes)\n" ++
    String.join (r.counts.map countLine) ++
    String.join (r.failures.reverse.map fun f => "  failed: " ++ f ++ "\n")

private def sampleDocument (s : FrameSample) : Document :=
  .record
    [("frame", .natural s.frame), ("sequences", .natural s.sequences),
     ("particles", .natural s.particles), ("side_effects", .natural s.commands)]

def document (r : TrialReport) : Document :=
  .record
    [("routine", .text r.routine.display), ("frames", .natural r.frames),
     ("completed_at", match r.completedAt with | some frame => .natural frame | none => .null),
     ("peak_particles", .natural r.peakParticles),
     ("peak_instance_bytes", .natural r.peakBytes),
     ("side_effects", .record (r.counts.map fun (name, n) => (name, .natural n))),
     ("failures", .list (r.failures.reverse.map .text)),
     ("samples", .list (r.samples.reverse.map sampleDocument))]

end TrialReport
end EffectMachine
