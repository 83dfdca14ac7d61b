import EffectMachine.Number.Decimal
import EffectMachine.Number.Hex

namespace EffectMachine

inductive SlotKind where
  | velocity
  | angularVelocity
  | scaleVelocity
  | colorTransform
  | keyFrames
  | orbit
deriving DecidableEq

def SlotKind.name : SlotKind → String
  | velocity => "velocity"
  | angularVelocity => "angular-velocity"
  | scaleVelocity => "scale-velocity"
  | colorTransform => "color-transform"
  | keyFrames => "key-frames"
  | orbit => "orbit"

inductive HeaderFault where
  | shortGenerator (generator : String) (needed found : Nat)
  | shortKeyFrames (set : String) (declared found : Nat)
deriving DecidableEq

def HeaderFault.message : HeaderFault → String
  | shortGenerator generator needed found =>
    s!"generator {generator} needs {needed} header bytes, found {found}"
  | shortKeyFrames set declared found =>
    s!"key-frame set {set} declares {declared} keys but holds {found} bytes"

inductive ReadFault where
  /-- A step to a name that no entry has. -/
  | absent
  | denied
  /-- A step from a file. -/
  | notFolder
  /-- A folder where a file is wanted. -/
  | isFolder
  | tooLong
  /-- Bytes that are no text. -/
  | notText
deriving DecidableEq

def ReadFault.message : ReadFault → String
  | absent => "No such file or directory (os error 2)"
  | denied => "Permission denied (os error 13)"
  | notFolder => "Not a directory (os error 20)"
  | isFolder => "Is a directory (os error 21)"
  | tooLong => "File name too long (os error 36)"
  | notText => "stream did not contain valid UTF-8"

inductive ConfigFault where
  | frameRate (given : Scalar)
  | playbackRate (given : Scalar)
  | nestingDepth
deriving DecidableEq

def ConfigFault.message : ConfigFault → String
  | frameRate given => "frame_rate must be positive, got " ++ given.text
  | playbackRate given => "playback_rate must not be negative, got " ++ given.text
  | nestingDepth => "max_nesting_depth must be at least 1"

/-- What can go wrong, by cause. Missing resources and unknown opcodes are no faults: they are noted
and stepped over where they occur. -/
inductive Fault where
  /-- A parser read more or fewer bytes than the header declares. -/
  | sizeMismatch (opcode : UInt8) (start declared actual : Nat)
  | zeroSize (opcode : UInt8) (start : Nat)
  /-- An instruction reaches past the end of the stream. -/
  | truncated (opcode : UInt8) (start needed available : Nat)
  /-- A read reaches past the end of the stream. -/
  | unexpectedEnd (offset wanted : Nat)
  | invalidHeader (why : HeaderFault)
  | duplicateAllocation (offset : UInt32)
  | missingSlot (offset : UInt32)
  | slotKind (offset : UInt32) (expected found : SlotKind)
  | controlUnderflow (routine : String)
  | config (why : ConfigFault)
  /-- A file cannot be read. -/
  | unreadable (why : ReadFault)
  /-- A configuration text does not parse or holds a value of the wrong type. -/
  | malformedConfig (why : String)
deriving DecidableEq

namespace Fault

def message : Fault → String
  | sizeMismatch opcode start declared actual =>
    s!"Instruction 0x{Hex.ofByte opcode} at offset {start} " ++
      s!"consumed {actual} bytes, declared {declared}"
  | zeroSize opcode start =>
    s!"Instruction 0x{Hex.ofByte opcode} at offset {start} declares zero size"
  | truncated opcode start needed available =>
    s!"Instruction 0x{Hex.ofByte opcode} at offset {start} needs {needed} bytes, {available} remain"
  | unexpectedEnd offset wanted =>
    s!"Unexpected end of data at offset {offset} (wanted {wanted} bytes)"
  | invalidHeader why => "Invalid header: " ++ why.message
  | duplicateAllocation offset => s!"Allocation offset {offset} written twice on one particle"
  | missingSlot offset => s!"No particle data allocated at offset {offset}"
  | slotKind offset expected found =>
    s!"Particle data at offset {offset} is {found.name}, expected {expected.name}"
  | controlUnderflow routine => s!"Control-flow stack underflow in routine {routine}"
  | config why => "Configuration error: " ++ why.message
  | unreadable why => "IO error: " ++ why.message
  | malformedConfig why => "TOML parse error: " ++ why

/-- Does the fault end a whole activation or decode, and not only one particle? -/
def isFatal : Fault → Bool
  | missingSlot _ => false
  | slotKind .. => false
  | _ => true

end Fault
end EffectMachine
