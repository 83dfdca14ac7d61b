import EffectMachine.Generator.Operation
import EffectMachine.Resource.Path
import EffectMachine.Routine.Effect

namespace EffectMachine

inductive Severity where
  | warning
  | error
deriving DecidableEq

def Severity.name : Severity → String
  | warning => "WARN"
  | error => "ERROR"

/-- What is worth telling an operator without being a fault of the whole. -/
inductive Notice where
  | unknownOpcode (table : String) (opcode : UInt8) (start : Nat) (offset : UInt32)
      (args : List UInt32)
  | unknownAttachment (generator : ResourceId) (code : UInt8)
  | wrongSection (generator : ResourceId) (opcode : UInt8) (place found : ParticleFamily)
  | unknownChannel (set : ResourceId) (code offset : UInt32)
  | trailingBytes (set : ResourceId) (count : Nat)
  | badlyNamed (file reason : String)
  | undecodable (file : String) (fault : Fault)
  | anchorMissing (generator : ResourceId) (attach : Attachment)
  | particleTerminated (generator : ResourceId) (age : Scalar) (fault : Fault)
  | keyFramesMissing (generator set : ResourceId)
  | childGeneratorTooDeep (generator : ResourceId) (depth : UInt8)
  | childGeneratorMissing (generator parent : ResourceId)
  | unknownRegister (routine : ResourceId) (register : UInt8)
  | unknownComparator (routine : ResourceId) (code : Int32)
  | noActor (effect : String) (role : ActorRole)
  | unknownTrigger (routine : ResourceId)
  | sequenceFailed (routine : ResourceId) (fault : Fault)
  | childFailed (parent child : ResourceId) (fault : Fault)
  | unknownGameState (routine : ResourceId) (code : Int32)
  | unknownSource (routine : ResourceId) (tag : UInt8) (value : Int32)
  | generatorMissing (routine generator : ResourceId)
  | childRoutineTooDeep (routine child : ResourceId) (depth : UInt8)
  | childRoutineMissing (routine child : ResourceId)
  | noChoices (routine : ResourceId)
  | choiceMissing (routine choice : ResourceId)

/-- The notices of a run, latest first. -/
abbrev Log := List Notice

namespace Notice

def severity : Notice → Severity
  | undecodable .. => .error
  | particleTerminated .. => .error
  | unknownComparator .. => .error
  | sequenceFailed .. => .error
  | childFailed .. => .error
  | _ => .warning

private def numbers (ws : List UInt32) : String :=
  "[" ++ String.intercalate ", " (ws.map toString) ++ "]"

def particulars : Notice → String × List (String × String)
  | unknownOpcode table opcode start offset args =>
    ("unknown opcode, skipping", [("table", table), ("opcode", toString opcode),
      ("offset", toString start), ("alloc_offset", toString offset), ("args", numbers args)])
  | unknownAttachment generator code =>
    ("unknown attach type, using none", [("generator", generator.display),
      ("attach", toString code)])
  | wrongSection generator opcode place found =>
    ("particle opcode in the wrong section, skipping", [("generator", generator.display),
      ("opcode", toString opcode), ("section", place.name), ("found", found.name)])
  | unknownChannel set code offset =>
    ("unknown key-frame channel, driving alpha", [("set", set.display), ("channel", toString code),
      ("alloc_offset", toString offset)])
  | trailingBytes set count =>
    ("trailing bytes after key-frame set", [("set", set.display), ("trailing", toString count)])
  | badlyNamed file reason => ("skipping badly named entry", [("file", file), ("reason", reason)])
  | undecodable file fault =>
    ("failed to decode resource", [("file", file), ("error", fault.message)])
  | anchorMissing generator attach =>
    ("anchor unavailable, keeping last position", [("generator", generator.display),
      ("attach", attach.name)])
  | particleTerminated generator age fault =>
    ("particle terminated", [("generator", generator.display), ("age", age.pattern),
      ("error", fault.message)])
  | keyFramesMissing generator set =>
    ("key-frame set not found", [("generator", generator.display), ("set", set.display)])
  | childGeneratorTooDeep generator depth =>
    ("nesting limit reached, child generator not spawned", [("generator", generator.display),
      ("depth", toString depth)])
  | childGeneratorMissing generator parent =>
    ("child generator not found", [("generator", generator.display), ("parent", parent.display)])
  | unknownRegister routine register =>
    ("condition targets unknown register", [("routine", routine.display),
      ("register", toString register)])
  | unknownComparator routine code =>
    ("unknown comparator", [("routine", routine.display), ("code", toString code)])
  | noActor effect role =>
    ("binding has no actor for instruction", [("effect", effect), ("target", role.name)])
  | unknownTrigger routine => ("trigger for unknown routine", [("routine", routine.display)])
  | sequenceFailed routine fault =>
    ("sequence failed", [("routine", routine.display), ("error", fault.message)])
  | childFailed parent child fault =>
    ("child routine failed and was dropped", [("parent", parent.display), ("child", child.display),
      ("error", fault.message)])
  | unknownGameState routine code =>
    ("unknown game-state input", [("routine", routine.display), ("code", toString code)])
  | unknownSource routine tag value =>
    ("unknown condition source", [("routine", routine.display), ("tag", toString tag),
      ("value", toString value)])
  | generatorMissing routine generator =>
    ("generator not found", [("routine", routine.display), ("generator", generator.display)])
  | childRoutineTooDeep routine child depth =>
    ("nesting limit reached, child routine not started", [("routine", routine.display),
      ("child", child.display), ("depth", toString depth)])
  | childRoutineMissing routine child =>
    ("routine not found", [("routine", routine.display), ("child", child.display)])
  | noChoices routine => ("random routine without choices", [("routine", routine.display)])
  | choiceMissing routine choice =>
    ("routine not found", [("routine", routine.display), ("choice", choice.display)])

def text (n : Notice) : String :=
  let (event, fields) := n.particulars
  String.intercalate " " (n.severity.name :: event :: fields.map fun (k, v) => k ++ "=" ++ v)

end Notice
end EffectMachine
