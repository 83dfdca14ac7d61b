namespace EffectMachine

/-- The name of a routine, generator, key-frame set, sound, animation or place. -/
structure ResourceId where
  b0 : UInt8
  b1 : UInt8
  b2 : UInt8
  b3 : UInt8
deriving DecidableEq

namespace ResourceId

/-- All bytes zero: no resource. -/
def none : ResourceId := ⟨0, 0, 0, 0⟩

instance : Inhabited ResourceId := ⟨none⟩

def isNone (id : ResourceId) : Bool := id = none

def bytes (id : ResourceId) : List UInt8 := [id.b0, id.b1, id.b2, id.b3]

/-- The first four bytes, zeros where there are fewer. -/
def ofBytes : List UInt8 → ResourceId
  | [] => none
  | [a] => ⟨a, 0, 0, 0⟩
  | [a, b] => ⟨a, b, 0, 0⟩
  | [a, b, c] => ⟨a, b, c, 0⟩
  | a :: b :: c :: d :: _ => ⟨a, b, c, d⟩

def ofName (name : String) : ResourceId := ofBytes name.toUTF8.toList

def ofWord (w : UInt32) : ResourceId :=
  ⟨w.toUInt8, (w >>> 8).toUInt8, (w >>> 16).toUInt8, (w >>> 24).toUInt8⟩

def toWord (id : ResourceId) : UInt32 :=
  id.b0.toUInt32 ||| id.b1.toUInt32 <<< 8 ||| id.b2.toUInt32 <<< 16 ||| id.b3.toUInt32 <<< 24

/-- A space or a visible ASCII character stands for itself, all else for a question mark. -/
def letter (b : UInt8) : Char :=
  if 0x20 ≤ b ∧ b ≤ 0x7e then Char.ofNat b.toNat else '?'

/-- The bytes before the first zero byte, as text. -/
def name (id : ResourceId) : String :=
  String.ofList ((id.bytes.takeWhile (· ≠ 0)).map letter)

def display (id : ResourceId) : String := "[" ++ id.name ++ "]"

instance : ToString ResourceId := ⟨display⟩

/-- The text without the brackets that open it and the brackets that close it. -/
def unbracketed (s : List Char) : List Char :=
  ((s.dropWhile (· = '[')).reverse.dropWhile (· = ']')).reverse

/-- Reads a name of one to four bytes, bracketed or not. -/
def parse? (s : String) : Except String ResourceId :=
  let bytes := (String.ofList (unbracketed s.toList)).toUTF8.toList
  if bytes.length = 0 ∨ 4 < bytes.length then
    .error ("resource id must be 1-4 bytes, got '" ++ s ++ "'")
  else .ok (ofBytes bytes)

end ResourceId
end EffectMachine
