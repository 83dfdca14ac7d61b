import EffectMachine.Number.Scalar

namespace EffectMachine

structure Decimal where
  digits : Nat
  exponent : Int
deriving DecidableEq

/-- Which of two decimals is taken when the number is halfway between them. -/
inductive TieRule where
  /-- The one whose last digit is even. -/
  | even
  /-- The larger one. -/
  | upper
deriving DecidableEq

/-- Is it `n + 1` that is taken halfway between `n` and `n + 1`? -/
def TieRule.takesUpper : TieRule → Nat → Bool
  | even, n => n % 2 = 1
  | upper, _ => true

/-- A positive dyadic `mantissa · 2 ^ exponent` with the numbers that round to it, in quarters of
its last place. -/
structure RoundingRange where
  mantissa : Nat
  exponent : Int
  /-- Quarters of a unit from the lower end of the range to the number. -/
  below : Nat

namespace RoundingRange

/-- Just above a power of two the next lower pattern is half as far away. -/
def of (l : Layout) (d : Dyadic) : RoundingRange :=
  let narrow := d.mantissa = Nat.pow 2 l.fractionBits ∧ l.leastExponent < d.exponent
  ⟨d.mantissa, d.exponent, if narrow then 1 else 2⟩

/-- Is `n · 10 ^ k` rounded to this number? The ends belong to it when its mantissa is even. -/
def holds (r : RoundingRange) (n : Nat) (k : Int) : Bool :=
  let q := r.exponent - 2
  let point := n * Nat.pow 10 k.toNat * Nat.pow 2 (-q).toNat
  let unit := Nat.pow 10 (-k).toNat * Nat.pow 2 q.toNat
  let lo := (4 * r.mantissa - r.below) * unit
  let hi := (4 * r.mantissa + 2) * unit
  if r.mantissa % 2 = 0 then lo ≤ point && point ≤ hi else lo < point && point < hi

/-- The largest multiple of `10 ^ k` that is not above the number, and whether the next multiple is
the one to take. -/
def floorOn (r : RoundingRange) (rule : TieRule) (k : Int) : Nat × Bool :=
  let num := r.mantissa * Nat.pow 2 r.exponent.toNat * Nat.pow 10 (-k).toNat
  let den := Nat.pow 2 (-r.exponent).toNat * Nat.pow 10 k.toNat
  let n := num / den
  let twice := 2 * (num % den)
  (n, den < twice || (twice = den && rule.takesUpper n))

/-- The nearest multiple of `10 ^ k` that is rounded to this number. -/
def onGrid? (r : RoundingRange) (rule : TieRule) (k : Int) : Option Decimal :=
  let (n, upper) := r.floorOn rule k
  let inside m := r.holds m k
  match inside n, inside (n + 1) with
  | true, true => some ⟨if upper then n + 1 else n, k⟩
  | true, false => some ⟨n, k⟩
  | false, true => some ⟨n + 1, k⟩
  | false, false => none

/-- The coarsest decimal grid with a hit, searched from `10 ^ top` for `fuel` steps. -/
def search (r : RoundingRange) (rule : TieRule) : Nat → Int → Decimal
  | 0, _ => ⟨r.mantissa, 0⟩
  | fuel + 1, k =>
    match r.onGrid? rule k with
    | some d => d
    | none => search r rule fuel (k - 1)

end RoundingRange

def Decimal.shortest (l : Layout) (rule : TieRule) (d : Dyadic) : Decimal :=
  let top : Int := (d.exponent + d.mantissa.log2 + 1) * 30103 / 100000 + 1
  (RoundingRange.of l d).search rule (l.fractionBits + 10) top

structure NumeralStyle where
  tie : TieRule
  /-- Place of the first digit, counted from the point, above which an exponent is written. -/
  mostPlaces : Option Nat
  /-- Zeros after the point, at most, before the first digit without an exponent. -/
  mostZeros : Option Nat
  /-- What follows a whole number. -/
  wholeEnd : String
  negativeZero : String

namespace NumeralStyle

private def zeros (n : Nat) : String := String.ofList (List.replicate n '0')

def positional (s : NumeralStyle) (digits : List Char) (exponent : Int) : String :=
  let point := digits.length + exponent
  if 0 ≤ exponent then String.ofList digits ++ zeros exponent.toNat ++ s.wholeEnd
  else if 0 < point then
    String.ofList (digits.take point.toNat) ++ "." ++ String.ofList (digits.drop point.toNat)
  else "0." ++ zeros (-point).toNat ++ String.ofList digits

def scientific (digits : List Char) (exponent : Int) : String :=
  let power := digits.length + exponent - 1
  let fraction := digits.drop 1
  let point := if fraction.isEmpty then "" else "."
  let mark := if power < 0 then "e" else "e+"
  String.ofList (digits.take 1) ++ point ++ String.ofList fraction ++ mark ++ toString power

def layOut (s : NumeralStyle) (d : Decimal) : String :=
  let digits := (toString d.digits).toList
  let point : Int := digits.length + d.exponent
  let low := match s.mostZeros with | some n => -(n : Int) ≤ point | none => true
  let high := match s.mostPlaces with | some n => point ≤ n | none => true
  if low && high then s.positional digits d.exponent else scientific digits d.exponent

def finite (s : NumeralStyle) (l : Layout) (d : Dyadic) : String :=
  let sign := if d.negative then "-" else ""
  if d.mantissa = 0 then if d.negative then s.negativeZero else "0" ++ s.wholeEnd
  else sign ++ s.layOut (Decimal.shortest l s.tie d)

/-- Never an exponent, and no point in a whole number. -/
def plain : NumeralStyle := ⟨.upper, none, none, "", "-0"⟩

/-- An exponent beyond thirteen places or five leading zeros, and a point in every other number. -/
def structured : NumeralStyle := ⟨.even, some 13, some 5, ".0", "-0.0"⟩

/-- Never an exponent, and a point in every number. -/
def pointed : NumeralStyle := ⟨.upper, none, none, ".0", "-0.0"⟩

end NumeralStyle

/-- The text of a single-precision number in running text. -/
def Scalar.text (x : Scalar) : String :=
  match x.reading with
  | .finite d => NumeralStyle.plain.finite .single d
  | .infinite negative => if negative then "-inf" else "inf"
  | .notANumber => "NaN"

end EffectMachine
