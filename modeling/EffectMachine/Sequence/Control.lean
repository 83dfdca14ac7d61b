import EffectMachine.Notice

namespace EffectMachine

inductive Comparator where
  | equal
  | lessThan
  | greaterThan
deriving DecidableEq

namespace Comparator

def ofCode? : Int32 → Option Comparator
  | 0 => some equal
  | 1 => some lessThan
  | 2 => some greaterThan
  | 3 => some equal
  | _ => none

def evaluate : Comparator → Int32 → Int32 → Bool
  | equal, a, b => a = b
  | lessThan, a, b => a < b
  | greaterThan, a, b => b < a

def name : Comparator → String
  | equal => "Equal"
  | lessThan => "LessThan"
  | greaterThan => "GreaterThan"

end Comparator

/-- One open block, with three registers. A condition loads a register; a branch compares the first
with the second by the comparator in the third and may arm the frame, which skips up to the next
block boundary. -/
structure ControlFrame where
  r0 : Int32 := 0
  r1 : Int32 := 0
  r2 : Int32 := 0
  /-- An enclosing block is skipped. -/
  skipped : Bool := false
  /-- A branch went the other way; skips up to the next block boundary. -/
  skipNext : Bool := false
deriving DecidableEq

def ControlFrame.isSkipping (f : ControlFrame) : Bool := f.skipped || f.skipNext

/-- The frames of the open blocks, innermost first. -/
structure ControlStack where
  routine : ResourceId
  frames : List ControlFrame
deriving DecidableEq

namespace ControlStack

def empty (routine : ResourceId) : ControlStack := ⟨routine, []⟩

def depth (s : ControlStack) : Nat := s.frames.length

def top? (s : ControlStack) : Option ControlFrame := s.frames.head?

def clear (s : ControlStack) : ControlStack := { s with frames := [] }

/-- One routine compares with one only: loading its first register sets the other two, and loads of
those are dropped. -/
def comparesWithOne (s : ControlStack) : Bool := s.routine = ResourceId.ofName "crtl"

/-- Is an instruction skipped that is no block boundary? -/
def isSkipping (s : ControlStack) : Bool :=
  match s.frames with
  | [] => false
  | f :: _ => f.isSkipping

def underflow (s : ControlStack) : Fault := .controlUnderflow s.routine.display

/-- Opens a block, which uses up the skip that its parent was armed with. -/
def beginBlock (s : ControlStack) : ControlStack :=
  match s.frames with
  | [] => { s with frames := [{}] }
  | parent :: outer =>
    { s with frames :=
        { skipped := parent.isSkipping } :: { parent with skipNext := false } :: outer }

def endBlock (s : ControlStack) : Except Fault (ControlFrame × ControlStack) :=
  match s.frames with
  | [] => .error s.underflow
  | f :: outer => .ok (f, { s with frames := outer })

/-- A frame with a register loaded; there are three. -/
def loaded? (s : ControlStack) (f : ControlFrame) (register : UInt8) (value : Int32) :
    Option ControlFrame :=
  match s.comparesWithOne, register with
  | true, 0 => some { f with r0 := value, r1 := 1, r2 := 0 }
  | true, 1 => some f
  | true, 2 => some f
  | false, 0 => some { f with r0 := value }
  | false, 1 => some { f with r1 := value }
  | false, 2 => some { f with r2 := value }
  | _, _ => none

def setRegister (s : ControlStack) (register : UInt8) (value : Int32) :
    Except Fault (ControlStack × List Notice) :=
  match s.frames with
  | [] => .error s.underflow
  | f :: outer =>
    match s.loaded? f register value with
    | some f => .ok ({ s with frames := f :: outer }, [])
    | none => .ok (s, [.unknownRegister s.routine register])

/-- Compares the registers of a frame; false when there is no such comparator. -/
def compare (s : ControlStack) (f : ControlFrame) : Bool × List Notice :=
  match Comparator.ofCode? f.r2 with
  | some c => (c.evaluate f.r0 f.r1, [])
  | none => (false, [.unknownComparator s.routine f.r2])

/-- Compares, and arms the innermost frame unless the outcome is the one wanted. -/
def branch (s : ControlStack) (whenTrue : Bool) :
    Except Fault (Bool × ControlStack × List Notice) :=
  match s.frames with
  | [] => .error s.underflow
  | f :: outer =>
    let (outcome, notices) := s.compare f
    .ok (outcome, { s with frames := { f with skipNext := outcome != whenTrue } :: outer }, notices)

end ControlStack
end EffectMachine
