import EffectMachine.Number.Dyadic

namespace EffectMachine

/-- A single-precision number as resource streams hold it: the pattern itself. Equality is equality
of patterns, so a definition that is read and written again keeps the payload of a NaN. -/
structure Scalar where
  bits : UInt32
deriving DecidableEq

namespace Scalar

@[inline] def value (x : Scalar) : Float32 := Float32.ofBits x.bits

@[inline] def ofValue (v : Float32) : Scalar := ⟨v.toBits⟩

instance : OfScientific Scalar where
  ofScientific m s e := ofValue (OfScientific.ofScientific m s e)

instance (n : Nat) : OfNat Scalar n := ⟨ofValue (Float32.ofNat n)⟩

instance : Inhabited Scalar := ⟨0⟩
instance : Add Scalar := ⟨fun a b => ofValue (a.value + b.value)⟩
instance : Sub Scalar := ⟨fun a b => ofValue (a.value - b.value)⟩
instance : Mul Scalar := ⟨fun a b => ofValue (a.value * b.value)⟩
instance : Div Scalar := ⟨fun a b => ofValue (a.value / b.value)⟩
instance : Neg Scalar := ⟨fun a => ⟨a.bits ^^^ 0x80000000⟩⟩
instance : LT Scalar := ⟨fun a b => a.value < b.value⟩
instance : LE Scalar := ⟨fun a b => a.value ≤ b.value⟩
instance (a b : Scalar) : Decidable (a < b) := inferInstanceAs (Decidable (a.value < b.value))
instance (a b : Scalar) : Decidable (a ≤ b) := inferInstanceAs (Decidable (a.value ≤ b.value))

def ofNat (n : Nat) : Scalar := ofValue (Float32.ofNat n)

def ofInt (n : Int) : Scalar := if n < 0 then -ofNat n.natAbs else ofNat n.natAbs

/-- The scalar nearest to `n / 10 ^ places`. -/
def ofDecimal (n : Int) (places : Nat) : Scalar :=
  let x := ofValue (Float32.ofScientific n.natAbs true places)
  if n < 0 then -x else x

def infinity : Scalar := ⟨0x7f800000⟩
def nan : Scalar := ⟨0x7fc00000⟩

/-- The gap between one and the next scalar. -/
def epsilon : Scalar := ⟨0x34000000⟩

def pi : Scalar := ⟨0x40490fdb⟩

def tau : Scalar := ⟨0x40c90fdb⟩

def reading (x : Scalar) : Reading := Layout.single.read x.bits.toNat

def ofDyadic (d : Dyadic) : Scalar := ⟨UInt32.ofNat (Layout.single.round d)⟩

def isNaN (x : Scalar) : Bool := 0x7f800000 < x.bits &&& 0x7fffffff

def isFinite (x : Scalar) : Bool := x.bits &&& 0x7fffffff < 0x7f800000

/-- The sign bit, which a zero and a NaN have too. -/
def isSignMinus (x : Scalar) : Bool := 0x80000000 ≤ x.bits

def abs (x : Scalar) : Scalar := ⟨x.bits &&& 0x7fffffff⟩

def sqrt (x : Scalar) : Scalar := ofValue x.value.sqrt
def sin (x : Scalar) : Scalar := ofValue x.value.sin
def cos (x : Scalar) : Scalar := ofValue x.value.cos
def cbrt (x : Scalar) : Scalar := ofValue x.value.cbrt

/-- Comparison of numbers: the two zeros are the same and a NaN is the same as nothing. -/
def same (a b : Scalar) : Bool := a.value == b.value

/-- The smaller operand; a NaN is ignored beside a number. -/
def min (a b : Scalar) : Scalar :=
  if a.isNaN then b else if b.isNaN then a else if b < a then b else a

def max (a b : Scalar) : Scalar :=
  if a.isNaN then b else if b.isNaN then a else if a < b then b else a

/-- The nearest point of `[lo, hi]`; a NaN stays. -/
def clamp (x lo hi : Scalar) : Scalar :=
  let x := if x < lo then lo else x
  if hi < x then hi else x

/-- The place of a scalar in the total order: negative NaNs, negative numbers from large to small
magnitude, the two zeros, positive numbers, positive NaNs. -/
def orderKey (x : Scalar) : Int :=
  if x.isSignMinus then -(x.bits &&& 0x7fffffff).toNat - 1 else x.bits.toNat

/-- A whole number with the sign of the scalar it was taken from. -/
private def whole (negative : Bool) (n : Nat) : Scalar :=
  ofDyadic ⟨negative, n, 0⟩

def floor (x : Scalar) : Scalar :=
  match x.reading with
  | .finite d =>
    if 0 ≤ d.exponent then x
    else
      let unit := Nat.pow 2 (-d.exponent).toNat
      let q := d.mantissa / unit
      whole d.negative (if d.negative ∧ d.mantissa % unit ≠ 0 then q + 1 else q)
  | _ => x

/-- The nearest whole number, a half away from zero. -/
def round (x : Scalar) : Scalar :=
  match x.reading with
  | .finite d =>
    if 0 ≤ d.exponent then x
    else
      let unit := Nat.pow 2 (-d.exponent).toNat
      whole d.negative ((2 * d.mantissa + unit) / (2 * unit))
  | _ => x

def thousandths (d : Dyadic) : Int :=
  let n := 1000 * d.mantissa * Nat.pow 2 d.exponent.toNat
  let unit := Nat.pow 2 (-d.exponent).toNat
  let magnitude := (2 * n + unit) / (2 * unit)
  if d.negative then -(magnitude : Int) else magnitude

/-- What is left of `x` after taking away `y` a whole number of times towards zero, exactly. -/
def remainder (x y : Scalar) : Scalar :=
  match x.reading, y.reading with
  | .finite a, .finite b =>
    if b.mantissa = 0 then nan
    else
      let e := if a.exponent ≤ b.exponent then a.exponent else b.exponent
      let m := a.mantissa * Nat.pow 2 (a.exponent - e).toNat
      let n := b.mantissa * Nat.pow 2 (b.exponent - e).toNat
      ofDyadic ⟨a.negative, m % n, e⟩
  | .finite _, .infinite _ => x
  | _, _ => nan

/-- The remainder moved up by one modulus when it is negative. -/
def modulo (x y : Scalar) : Scalar :=
  let r := x.remainder y
  if r < 0 then r + y.abs else r

/-- The whole part, held to `[0, 255]`; a NaN gives zero. -/
def toByte (x : Scalar) : UInt8 :=
  match x.reading with
  | .finite d =>
    if d.negative then 0
    else
      let n := if 0 ≤ d.exponent then d.mantissa * Nat.pow 2 d.exponent.toNat
        else d.mantissa / Nat.pow 2 (-d.exponent).toNat
      UInt8.ofNat (Nat.min n 255)
  | .infinite false => 255
  | _ => 0

def widen (x : Scalar) : Float :=
  match x.reading with
  | .finite d => Float.ofBits (UInt64.ofNat (Layout.double.round d))
  | .infinite negative => if negative then -(1.0 / 0.0) else 1.0 / 0.0
  | .notANumber => 0.0 / 0.0

def narrow (v : Float) : Scalar :=
  match Layout.double.read v.toBits.toNat with
  | .finite d => ofDyadic d
  | .infinite negative => if negative then -infinity else infinity
  | .notANumber => nan

end Scalar
end EffectMachine
