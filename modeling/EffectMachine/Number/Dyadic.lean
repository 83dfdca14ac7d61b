namespace EffectMachine

/-- The number `m · 2 ^ e`, negated when `negative` holds. A zero keeps its sign. -/
structure Dyadic where
  negative : Bool
  mantissa : Nat
  exponent : Int
deriving DecidableEq

inductive Reading where
  | finite (number : Dyadic)
  | infinite (negative : Bool)
  | notANumber
deriving DecidableEq

/-- A binary interchange layout: fraction bits below exponent bits below the sign. -/
structure Layout where
  fractionBits : Nat
  exponentBits : Nat

namespace Layout

def single : Layout := ⟨23, 8⟩

def double : Layout := ⟨52, 11⟩

/-- The exponent of the last place of the smallest numbers. -/
def leastExponent (l : Layout) : Int :=
  2 - (Nat.pow 2 (l.exponentBits - 1) : Nat) - l.fractionBits

def signBit (l : Layout) : Nat := Nat.pow 2 (l.fractionBits + l.exponentBits)

def infinityBits (l : Layout) : Nat := (Nat.pow 2 l.exponentBits - 1) * Nat.pow 2 l.fractionBits

def read (l : Layout) (bits : Nat) : Reading :=
  let negative := l.signBit ≤ bits
  let magnitude := bits % l.signBit
  let fraction := magnitude % Nat.pow 2 l.fractionBits
  let scale := magnitude / Nat.pow 2 l.fractionBits
  if magnitude > l.infinityBits then .notANumber
  else if magnitude = l.infinityBits then .infinite negative
  else if scale = 0 then .finite ⟨negative, fraction, l.leastExponent⟩
  else .finite ⟨negative, fraction + Nat.pow 2 l.fractionBits, l.leastExponent + (scale - 1 : Nat)⟩

/-- `m / 2 ^ k` to the nearest integer, a tie to the even neighbour. -/
def halve (m k : Nat) : Nat :=
  let unit := Nat.pow 2 k
  let q := m / unit
  let twice := 2 * (m % unit)
  if unit < twice ∨ (twice = unit ∧ q % 2 = 1) then q + 1 else q

/-- The nearest pattern; magnitudes past the largest finite one go to infinity. -/
def round (l : Layout) (d : Dyadic) : Nat :=
  let sign := if d.negative then l.signBit else 0
  if d.mantissa = 0 then sign
  else
    let last := max l.leastExponent (d.exponent + d.mantissa.log2 - l.fractionBits)
    let places := last - d.exponent
    let m := if places ≤ 0 then d.mantissa * Nat.pow 2 (-places).toNat
      else halve d.mantissa places.toNat
    sign + min l.infinityBits ((last - l.leastExponent).toNat * Nat.pow 2 l.fractionBits + m)

end Layout
end EffectMachine
