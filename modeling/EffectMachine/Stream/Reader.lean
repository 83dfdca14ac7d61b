import EffectMachine.Notice
import EffectMachine.Stream.Word

namespace EffectMachine

structure Reader where
  data : List UInt8
  /-- Bytes read so far. -/
  pos : Nat
  log : Log

namespace Reader

def of (data : List UInt8) : Reader := ⟨data, 0, []⟩

def rest (r : Reader) : List UInt8 := r.data.drop r.pos

def remaining (r : Reader) : Nat := r.data.length - r.pos

def atEnd (r : Reader) : Bool := r.data.length ≤ r.pos

def advance (r : Reader) (n : Nat) : Reader := { r with pos := r.pos + n }

/-- Moves to an offset, or to the end if the stream is shorter. -/
def seek (r : Reader) (offset : Nat) : Reader := { r with pos := min offset r.data.length }

end Reader

/-- Either succeeds or stops with a fault; either way it leaves the reader where it came to, with
the notices raised so far. -/
abbrev Decoder := EStateM Fault Reader

namespace Decoder

def short {α : Type} (r : Reader) (wanted : Nat) : EStateM.Result Fault Reader α :=
  .error (.unexpectedEnd r.pos wanted) r

def position : Decoder Nat := fun r => .ok r.pos r
def remaining : Decoder Nat := fun r => .ok r.remaining r
def atEnd : Decoder Bool := fun r => .ok r.atEnd r
def seek (offset : Nat) : Decoder Unit := fun r => .ok () (r.seek offset)
def note (n : Notice) : Decoder Unit := fun r => .ok () { r with log := n :: r.log }

def byte : Decoder UInt8 := fun r =>
  match r.rest with
  | a :: _ => .ok a (r.advance 1)
  | _ => short r 1

def half : Decoder UInt16 := fun r =>
  match r.rest with
  | a :: b :: _ => .ok (Word.halfOfBytes a b) (r.advance 2)
  | _ => short r 2

def word : Decoder UInt32 := fun r =>
  match r.rest with
  | a :: b :: c :: d :: _ => .ok (Word.ofBytes a b c d) (r.advance 4)
  | _ => short r 4

def id : Decoder ResourceId := fun r =>
  match r.rest with
  | a :: b :: c :: d :: _ => .ok ⟨a, b, c, d⟩ (r.advance 4)
  | _ => short r 4

def integer : Decoder Int32 := return (← word).toInt32

def scalar : Decoder Scalar := return ⟨← word⟩

def vec3 : Decoder Vec3 := return ⟨← scalar, ← scalar, ← scalar⟩

def packedColor : Decoder Color := return Color.ofPacked (← word)

def repeated {α : Type} (one : Decoder α) : Nat → Decoder (List α)
  | 0 => return []
  | n + 1 => do
    let x ← one
    return x :: (← repeated one n)

/-- Runs on a whole stream. The notices stay when the decoder fails. -/
def decode {α : Type} (d : Decoder α) (data : List UInt8) : Except Fault α × Log :=
  match d (Reader.of data) with
  | .ok x r => (.ok x, r.log)
  | .error fault r => (.error fault, r.log)

def words (n : Nat) : Decoder (List UInt32) := repeated word n

end Decoder
end EffectMachine
