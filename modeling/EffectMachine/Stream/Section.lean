import EffectMachine.Stream.Header

namespace EffectMachine

/-- Parsers by opcode. A parser starts just after the header. -/
structure OpcodeTable (α : Type) where
  name : String
  parser? : UInt8 → Option (Header → Decoder α)
  /-- What is worth noting about an instruction that was read. -/
  remarks : Header → α → List Notice := fun _ _ => []

inductive SectionEnd where
  | terminated
  /-- The stream ran out; later sections are empty. -/
  | exhausted
deriving DecidableEq

def SectionEnd.name : SectionEnd → String
  | terminated => "Terminated"
  | exhausted => "Exhausted"

inductive Step (α : Type) where
  | stop (how : SectionEnd)
  | item (header : Header) (content : α)
  | skip

structure SectionRead (α : Type) where
  items : List (Header × α)
  outcome : Except Fault SectionEnd
  reader : Reader

namespace OpcodeTable

variable {α : Type}

def step (table : OpcodeTable α) (format : HeaderFormat) : Decoder (Step α) := do
  if ← Decoder.atEnd then return .stop .exhausted
  let start ← Decoder.position
  let header ← Header.read format
  let available := (← Decoder.remaining) + 4
  if header.opcode = terminator then
    let length := max header.byteLength 4
    if available < length then throw (.truncated header.opcode start length available)
    Decoder.seek (start + length)
    return .stop .terminated
  let declared := header.byteLength
  if header.size = 0 then throw (.zeroSize header.opcode start)
  if available < declared then throw (.truncated header.opcode start declared available)
  match table.parser? header.opcode with
  | some parse =>
    let content ← parse header
    let actual := (← Decoder.position) - start
    if actual ≠ declared then throw (.sizeMismatch header.opcode start declared actual)
    (table.remarks header content).forM Decoder.note
    return .item header content
  | none =>
    let args ← Decoder.words (header.size.toNat - 1)
    Decoder.note (.unknownOpcode table.name header.opcode start header.offset args)
    return .skip

def readUpTo (table : OpcodeTable α) (format : HeaderFormat) : Nat → Reader → SectionRead α
  | 0, r => ⟨[], .ok .exhausted, r⟩
  | n + 1, r =>
    match table.step format r with
    | .error fault r => ⟨[], .error fault, r⟩
    | .ok (.stop how) r => ⟨[], .ok how, r⟩
    | .ok (.item header content) r =>
      let later := readUpTo table format n r
      { later with items := (header, content) :: later.items }
    | .ok .skip r => readUpTo table format n r

/-- Reads a section. Each instruction is at least a byte long, so the bound is never met. -/
def readSection (table : OpcodeTable α) (format : HeaderFormat) (r : Reader) : SectionRead α :=
  table.readUpTo format (r.remaining + 1) r

def decoder (table : OpcodeTable α) (format : HeaderFormat) :
    Decoder (List (Header × α) × SectionEnd) := fun r =>
  let read := table.readSection format r
  match read.outcome with
  | .ok how => .ok (read.items, how) read.reader
  | .error fault => .error fault read.reader

end OpcodeTable
end EffectMachine
