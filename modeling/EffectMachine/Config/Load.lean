import EffectMachine.Config
import EffectMachine.Config.Settings
import EffectMachine.Resource.Files

namespace EffectMachine.Config

private def wrongType {α : Type} (key : String) : Except Fault α :=
  .error (.malformedConfig ("invalid value for key " ++ key))

/-- The value of a key as read, or what it is without one. -/
def field {α : Type} (entries : Setting.Entries) (key : String) (read : Setting → Option α)
    (otherwise : α) : Except Fault α :=
  match entries.lookup key with
  | none => .ok otherwise
  | some s =>
    match read s with
    | some x => .ok x
    | none => wrongType key

/-- Numbers of either kind, in single precision. -/
def scalar? : Setting → Option Scalar
  | .float v => some (Scalar.narrow v)
  | .integer n => some (Scalar.ofDyadic ⟨n < 0, n.natAbs, 0⟩)
  | _ => none

def natural? (bound : Nat) : Setting → Option Nat
  | .integer n => if 0 ≤ n ∧ n ≤ bound then some n.toNat else none
  | _ => none

def text? : Setting → Option String
  | .text s => some s
  | _ => none

def texts? : Setting → Option (List String)
  | .list items => items.mapM text?
  | _ => none

/-- The configuration that settings describe, not yet validated. Every key may be left out, and keys
without a meaning are passed over. -/
def ofSettings (entries : Setting.Entries) : Except Fault Config := do
  let d : Config := {}
  let frameRate ← field entries "frame_rate" scalar? d.frameRate
  let playbackRate ← field entries "playback_rate" scalar? d.playbackRate
  let maxParticles ←
    field entries "max_particles_per_generator" (natural? 0x8000000000000000) d.maxParticles
  let depth ← field entries "max_nesting_depth" (natural? 255) d.maxNestingDepth.toNat
  let skyDistance ← field entries "sky_distance" scalar? d.skyDistance
  let gameMinutesPerFrame ← field entries "game_minutes_per_frame" scalar? d.gameMinutesPerFrame
  let autoPlayLocations ← field entries "auto_play_locations" texts? d.autoPlayLocations
  let seed ← field entries "rng_seed" (natural? 0xFFFFFFFF) d.seed.toNat
  return {
    frameRate, playbackRate, maxParticles, skyDistance, gameMinutesPerFrame, autoPlayLocations
    maxNestingDepth := UInt8.ofNat depth
    seed := UInt32.ofNat seed }

/-- What a reader makes of a text, once it is validated. -/
def parseWith (read : String → Except Fault Config) (source : String) : Except Fault Config := do
  let config ← read source
  match config.validate with
  | .ok config => return config
  | .error why => .error (.config why)

/-- Reads settings, and leaves validation to others. -/
def readSettings (source : String) : Except Fault Config :=
  match Setting.parse? source with
  | none => .error (.malformedConfig "invalid syntax")
  | some entries => ofSettings entries

def parse : String → Except Fault Config := parseWith readSettings

/-- A seed as the environment gives it: decimal digits with or without a plus, in 32 bits. -/
def seed? (s : String) : Option UInt32 :=
  let digits := match s.toList with
    | '+' :: rest => rest
    | cs => cs
  let n := Setting.valueOf 10 digits
  if !digits.isEmpty && digits.all Char.isDigit && n < 0x100000000 then some (UInt32.ofNat n)
  else none

/-- The seed of the environment counts, if it is one. -/
def withSeed (c : Config) (environment : Option String) : Config :=
  match environment.bind seed? with
  | some seed => { c with seed }
  | none => c

def load (found : Except ReadFault FileTree) (environment : Option String) : Except Fault Config :=
  match found >>= FileTree.content with
  | .error why => .error (.unreadable why)
  | .ok data =>
    match String.fromUTF8? ⟨data.toArray⟩ with
    | none => .error (.unreadable .notText)
    | some source => (parse source).map (·.withSeed environment)

end EffectMachine.Config
