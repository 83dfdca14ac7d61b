import EffectMachine.Config.Load
import EffectMachine.Report.Definition
import EffectMachine.Report.Simulation

namespace EffectMachine.CommandLine

structure DecodeOptions where
  file : String
  kind : Option ResourceKind
  format : String
  config : Option String

structure SimulateOptions where
  folder : String
  routine : String
  frames : Nat
  config : Option String
  weather : Bool
  distance : Scalar
  every : Nat
  format : String

inductive Command where
  | decode (options : DecodeOptions)
  | simulate (options : SimulateOptions)
  | version

/-- Arguments sorted out: options with their values in order, flags, and the rest. -/
structure Arguments where
  options : List (String × String) := []
  flags : List String := []
  positional : List String := []

structure Signature where
  /-- Options with a value, and which values they take. -/
  valued : List (String × (String → Bool))
  flags : List String := []
  /-- How many arguments stand for themselves. -/
  places : Nat

inductive Interruption where
  | help
  | unusable

/-- Does an argument look like an option? A single dash does not. -/
def isOption (s : String) : Bool := s.startsWith "-" && s ≠ "-"

/-- Does an argument ask for help? The letter does so whatever stands behind it. -/
def asksHelp (s : String) : Bool := s = "--help" || s.startsWith "-h"

/-- An option and the value after its equals sign. -/
def splitOption (s : String) : String × Option String :=
  let cs := s.toList
  let name := cs.takeWhile (· ≠ '=')
  let value := cs.drop name.length
  (String.ofList name, if value.isEmpty then none else some (String.ofList (value.drop 1)))

namespace Arguments

def has (a : Arguments) (name : String) : Bool :=
  (a.options.lookup name).isSome || a.flags.contains name

def place (sig : Signature) (s : String) (a : Arguments) : Except Interruption Arguments :=
  if a.positional.length < sig.places then .ok { a with positional := a.positional ++ [s] }
  else .error .unusable

/-- An option comes once, with a value that it takes. -/
def give (sig : Signature) (name value : String) (a : Arguments) : Except Interruption Arguments :=
  match sig.valued.lookup name with
  | some accepts =>
    if !a.has name && accepts value then .ok { a with options := a.options ++ [(name, value)] }
    else .error .unusable
  | none => .error .unusable

def raise (sig : Signature) (name : String) (a : Arguments) : Except Interruption Arguments :=
  if sig.flags.contains name && !a.has name then .ok { a with flags := name :: a.flags }
  else .error .unusable

def sortOut (sig : Signature) : List String → Arguments → Except Interruption Arguments
  | [], a => .ok a
  | [s], a =>
    if s = "--" then .ok a
    else if !isOption s then a.place sig s
    else if asksHelp s then .error .help
    else
      match splitOption s with
      | (name, some value) => a.give sig name value
      | (name, none) => a.raise sig name
  | s :: next :: rest, a =>
    if s = "--" then (next :: rest).foldlM (fun a s => a.place sig s) a
    else if !isOption s then a.place sig s >>= sortOut sig (next :: rest)
    else if asksHelp s then .error .help
    else
      match splitOption s with
      | (name, some value) => a.give sig name value >>= sortOut sig (next :: rest)
      | (name, none) =>
        if sig.flags.contains name then a.raise sig name >>= sortOut sig (next :: rest)
        else if isOption next then .error .unusable
        else a.give sig name next >>= sortOut sig rest

def option {α : Type} (a : Arguments) (name : String) (read : String → Option α)
    (otherwise : α) : α :=
  ((a.options.lookup name).bind read).getD otherwise

end Arguments

/-- A whole number in 32 bits. A sign may stand in front, a minus in front of zero only. -/
def natural? (s : String) : Option Nat :=
  let (sign, digits) := Setting.signOf s.toList
  let n := Setting.valueOf 10 digits
  let bound := if sign = some true then 1 else 0x100000000
  if !digits.isEmpty && digits.all Char.isDigit && n < bound then some n else none

/-- A positive decimal in single precision; what is far out of range is settled without computing
it. -/
def nearest (n : Nat) (e : Int) : Scalar :=
  let places := (Nat.toDigits 10 n).length + e
  if n = 0 || places < -60 then 0
  else if 60 < places then Scalar.infinity
  else Scalar.ofValue (if e < 0 then Float32.ofScientific n true e.natAbs
    else Float32.ofScientific n false e.natAbs)

def power? : List Char → Option Int
  | [] => some 0
  | _ :: rest =>
    let (sign, digits) := Setting.signOf rest
    let n : Int := Setting.valueOf 10 digits
    if digits.isEmpty || !digits.all Char.isDigit then none
    else some (if sign = some true then -n else n)

/-- A number without its sign: digits with at most one point among them, and a power of ten. -/
def magnitude? (cs : List Char) : Option Scalar :=
  let lower := cs.map Char.toLower
  if lower = "inf".toList || lower = "infinity".toList then some Scalar.infinity
  else if lower = "nan".toList then some Scalar.nan
  else
    let mantissa := cs.takeWhile fun c => !Setting.isExponentMark c
    let whole := mantissa.takeWhile (· ≠ '.')
    let fraction := (mantissa.dropWhile (· ≠ '.')).drop 1
    let digits := whole ++ fraction
    if digits.isEmpty || !digits.all Char.isDigit then none
    else (power? (cs.drop mantissa.length)).map fun e =>
      nearest (Setting.valueOf 10 digits) (e - fraction.length)

def scalar? (s : String) : Option Scalar :=
  let (sign, rest) := Setting.signOf s.toList
  (magnitude? rest).map fun x => if sign = some true then -x else x

def decodeSignature : Signature where
  valued :=
    [("--kind", fun s => (ResourceKind.ofEnding? s).isSome), ("--format", fun _ => true),
     ("--config", fun _ => true)]
  places := 1

def decodeOptions (args : List String) : Except Interruption DecodeOptions := do
  let a ← Arguments.sortOut decodeSignature args {}
  match a.positional with
  | [file] =>
    return {
      file
      kind := a.option "--kind" (fun s => (ResourceKind.ofEnding? s).map some) none
      format := a.option "--format" some "json"
      config := a.options.lookup "--config" }
  | _ => .error .unusable

def simulateSignature : Signature where
  valued :=
    [("--frames", fun s => (natural? s).isSome), ("--config", fun _ => true),
     ("--distance", fun s => (scalar? s).isSome), ("--every", fun s => (natural? s).isSome),
     ("--format", fun _ => true)]
  flags := ["--weather"]
  places := 2

def simulateOptions (args : List String) : Except Interruption SimulateOptions := do
  let a ← Arguments.sortOut simulateSignature args {}
  match a.positional with
  | [folder, routine] =>
    return {
      folder, routine
      frames := a.option "--frames" natural? 120
      config := a.options.lookup "--config"
      weather := a.flags.contains "--weather"
      distance := a.option "--distance" scalar? 10
      every := a.option "--every" natural? 0
      format := a.option "--format" some "text" }
  | _ => .error .unusable

/-- Does an argument ask for the version? The letter does so whatever stands behind it. -/
def asksVersion (s : String) : Bool := s = "--version" || s.startsWith "-V"

def Command.ofArguments : List String → Except Interruption Command
  | "decode" :: args => (decodeOptions args).map .decode
  | "simulate" :: args => (simulateOptions args).map .simulate
  | ["help"] => .error .help
  | ["help", topic] =>
    if ["decode", "simulate", "help"].contains topic then .error .help else .error .unusable
  | s :: _ =>
    if asksVersion s then .ok .version
    else if asksHelp s then .error .help
    else .error .unusable
  | [] => .error .unusable

inductive Cause where
  | fault (why : Fault)
  /-- The file of a resource cannot be read. -/
  | reading (why : ReadFault)

def Cause.message : Cause → String
  | fault why => why.message
  | reading why => why.message

/-- Why a run ended without a result, with the cause below it if there is one. -/
structure Complaint where
  message : String
  cause : Option Cause := none

def Complaint.text (c : Complaint) : String :=
  "Error: " ++ c.message ++
    (match c.cause with
      | some cause => "\n\nCaused by:\n    " ++ cause.message
      | none => "") ++ "\n"

structure Outcome where
  exitCode : Nat
  output : String
  complaint : String := ""
  log : Log := []

/-- What a run can see: files by path, and the seed of the environment. -/
structure Environment where
  find : String → Except ReadFault FileTree
  seed : Option String
  /-- How often any one loop of a simulation may go round. -/
  fuel : Nat

def loadConfig (env : Environment) : Option String → Except Complaint Config
  | none => .ok (({} : Config).withSeed env.seed)
  | some path =>
    match Config.load (env.find path) env.seed with
    | .ok config => .ok config
    | .error why => .error ⟨"Failed to load config: " ++ path, some (.fault why)⟩

/-- The kind that was asked for, or else the one in the name of the file. -/
def resolveKind (file : String) : Option ResourceKind → Except Complaint ResourceKind
  | some kind => .ok kind
  | none =>
    match (FileName.ofPath? file).bind FileName.ending? with
    | none => .error { message := "Cannot infer resource kind of " ++ file ++ "; pass --kind" }
    | some ending =>
      match ResourceKind.ofEnding? ending with
      | some kind => .ok kind
      | none => .error { message := "Unknown resource kind: " ++ ending }

def parseId (s : String) : Except Complaint ResourceId :=
  match ResourceId.parse? s with
  | .ok id => .ok id
  | .error reason => .error { message := reason }

/-- The name of a resource is the stem of its file. -/
def idOfFile (file : String) : Except Complaint ResourceId :=
  match FileName.ofPath? file with
  | none => .error { message := "Invalid file name: " ++ file }
  | some name => parseId (FileName.stem name)

def readFile (env : Environment) (file : String) : Except Complaint (List UInt8) :=
  match env.find file >>= FileTree.content with
  | .ok data => .ok data
  | .error why => .error ⟨"Failed to read " ++ file, some (.reading why)⟩

def unknownFormat {α : Type} (format : String) : Except Complaint α :=
  .error { message := "Unknown format: " ++ format }

def renderAs (format : String) (d : Document) : Except Complaint String :=
  if format = "json" then .ok (d.render 0 ++ "\n")
  else if format = "toml" then .ok (d.settings ++ "\n")
  else unknownFormat format

def decode (env : Environment) (o : DecodeOptions) : Except Complaint (String × Log) := do
  let config ← loadConfig env o.config
  let kind ← resolveKind o.file o.kind
  let id ← idOfFile o.file
  let data ← readFile env o.file
  match Resource.decode kind id .root config data with
  | (.error why, _) => .error ⟨"Failed to decode " ++ o.file, some (.fault why)⟩
  | (.ok resource, log) => return (← renderAs o.format resource.document, log)

def simulate (env : Environment) (o : SimulateOptions) : Except Complaint (String × Log) := do
  let config ← loadConfig env o.config
  match Directory.ofFolder config o.folder (env.find o.folder) with
  | (.error why, _) => .error ⟨"Failed to load resources from " ++ o.folder, some (.fault why)⟩
  | (.ok directory, log) =>
    let routine ← parseId o.routine
    let binding := if o.weather then .weather else .actors ⟨1⟩ (some ⟨2⟩) {}
    let session := Session.start directory (trialScene o.distance) config env.fuel
    match Trial.start? session binding routine with
    | none =>
      .error { message := "Routine " ++ routine.display ++ " not found in " ++ o.folder }
    | some trial =>
      let last := trial.run o.every o.frames 1
      let report := last.finished
      let log := last.session.host.log ++ log
      if o.format = "json" then return (report.document.render 0 ++ "\n", log)
      else if o.format = "text" then return (report.text, log)
      else unknownFormat o.format

def outcomeOf : Except Complaint (String × Log) → Outcome
  | .ok (output, log) => { exitCode := 0, output, log }
  | .error complaint => { exitCode := 1, output := "", complaint := complaint.text }

/-- A run from its arguments. Arguments that make no command are a usage error. -/
def run (env : Environment) (args : List String) : Outcome :=
  match Command.ofArguments args with
  | .error .unusable => { exitCode := 2, output := "", complaint := "error: unusable arguments\n" }
  | .error .help => { exitCode := 0, output := "usage: decode FILE | simulate DIR ROUTINE\n" }
  | .ok .version => { exitCode := 0, output := "sigil 0.1.0\n" }
  | .ok (.decode o) => outcomeOf (decode env o)
  | .ok (.simulate o) => outcomeOf (simulate env o)

/-- The files that a run reads, apart from its resources. -/
def Command.files : Command → List String
  | .decode o => o.file :: o.config.toList
  | .simulate o => o.config.toList
  | .version => []

def Command.folder? : Command → Option String
  | .simulate o => some o.folder
  | _ => none

end EffectMachine.CommandLine
