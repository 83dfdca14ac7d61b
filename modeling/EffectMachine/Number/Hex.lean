import EffectMachine.Number.Scalar

namespace EffectMachine

namespace Hex

def digit (n : Nat) : Char := if n < 10 then Char.ofNat (48 + n) else Char.ofNat (87 + n)

/-- Digits may be upper case when they are read. -/
def value? (c : Char) : Option Nat :=
  if '0' ≤ c ∧ c ≤ '9' then some (c.toNat - 48)
  else if 'a' ≤ c ∧ c ≤ 'f' then some (c.toNat - 87)
  else if 'A' ≤ c ∧ c ≤ 'F' then some (c.toNat - 55)
  else none

def pair (b : UInt8) : List Char := [digit (b.toNat / 16), digit (b.toNat % 16)]

def ofByte (b : UInt8) : String := String.ofList (pair b)

def ofBytes (data : List UInt8) : String := String.ofList (data.flatMap pair)

def bytesOf? : List Char → Option (List UInt8)
  | [] => some []
  | [_] => none
  | high :: low :: rest => do
    let byte := 16 * (← value? high) + (← value? low)
    return UInt8.ofNat byte :: (← bytesOf? rest)

def bytes? (s : String) : Option (List UInt8) := bytesOf? s.toList

def number? (s : String) : Option Nat := s.toList.foldlM (fun n c => (value? c).map (16 * n + ·)) 0

/-- The lowest bytes of a number, the highest of them first. -/
def ofNat (bytes n : Nat) : String :=
  ofBytes ((List.range bytes).reverse.map fun i => UInt8.ofNat (n >>> (8 * i)))

end Hex

/-- The pattern of a number; all NaNs are one, and so are the two zeros. -/
def Scalar.pattern (x : Scalar) : String :=
  if x.isNaN then "nan" else Hex.ofNat 4 (if x.bits = 0x80000000 then 0 else x.bits.toNat)

end EffectMachine
