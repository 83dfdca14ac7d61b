import EffectMachine.Proofs.Number.Exact
import EffectMachine.World.Clock
import Mathlib.Tactic.Linarith

namespace EffectMachine.Clock

open Scalar (IsFinite units)

inductive Operation where
  | set (minutes : Scalar)
  | frames (n : Scalar)
  | seconds (s : Float)

/-- Real time as it counts: nothing below zero, and a quarter of a second at most. -/
def held (seconds : Float) : Float :=
  let held := if seconds < 0 then 0 else seconds
  if 0.25 < held then 0.25 else held

variable {c : Clock} {op : Operation} {ops before after : List Operation} {x : Scalar}

def perform (c : Clock) : Operation → Clock
  | .set minutes => c.setMinutesOfDay minutes
  | .frames n => (c.tickFrames n).1
  | .seconds s => (c.tickSeconds s).1

/-- What an operation brings of its own: the minutes that it sets, or by which it goes on. -/
def product (c : Clock) : Operation → Scalar
  | .set minutes => minutes
  | .frames n => n.max 0 * c.minutesPerFrame
  | .seconds s => (Scalar.narrow (held s) * c.frameRate).max 0 * c.minutesPerFrame

def unwrapped (c : Clock) (op : Operation) : Scalar :=
  match op with
  | .set minutes => minutes
  | _ => c.minutesOfDay + c.product op

theorem perform_minutesOfDay (c : Clock) (op : Operation) :
    (c.perform op).minutesOfDay = (c.unwrapped op).modulo minutesPerDay := by
  cases op <;> rfl

@[simp] theorem perform_minutesPerFrame (c : Clock) (op : Operation) :
    (c.perform op).minutesPerFrame = c.minutesPerFrame := by
  cases op <;> rfl

def run (c : Clock) (ops : List Operation) : Clock := ops.foldl perform c

@[simp] theorem run_minutesPerFrame (c : Clock) (ops : List Operation) :
    (c.run ops).minutesPerFrame = c.minutesPerFrame := by
  induction ops generalizing c with
  | nil => rfl
  | cons op ops ih => exact (ih (c.perform op)).trans (c.perform_minutesPerFrame op)

/-- No operation of a run brings what is not finite. -/
def StaysFinite (c : Clock) (ops : List Operation) : Prop :=
  ∀ before op after, ops = before ++ op :: after → ((c.run before).product op).isFinite = true

/-- Midnight at both ends. -/
structure InDay (c : Clock) : Prop where
  low : 0 ≤ c.minutesOfDay
  high : c.minutesOfDay ≤ minutesPerDay

/-- Below a whole number of days by no more than half a place. -/
def JustShort (minutes : Scalar) : Prop := 1440 - 1 / 2 ^ 14 ≤ exactModulo minutes.toRat 1440

theorem ofConfig_inDay (c : Config) : (ofConfig c).InDay where
  low := show (0 : Scalar) ≤ 720 by decide +kernel
  high := show (720 : Scalar) ≤ minutesPerDay by decide +kernel

section Day

theorem isWhole_minutesPerDay : minutesPerDay.IsWhole 1440 := Scalar.isWhole_ofNat (by decide)

theorem isFinite_minutesPerDay : minutesPerDay.isFinite = true := by decide +kernel

theorem units_minutesPerDay : 0 < units minutesPerDay.number := by
  rw [isWhole_minutesPerDay.units]
  decide

/-- Half a place below midnight is a tie, and is rounded to midnight. -/
theorem nearestPlace_lt_midnight (n : Int) :
    Scalar.nearestPlace n < Scalar.place minutesPerDay.number ↔ n < 1440 * 2 ^ 149 - 2 ^ 135 := by
  have hplace : Scalar.place minutesPerDay.number = 0x44b40000 := by
    rw [← Scalar.nearestPlace_units isWhole_minutesPerDay.finite, isWhole_minutesPerDay.units]
    decide +kernel
  have hbelow : Scalar.nearestPlace (1440 * 2 ^ 149 - 2 ^ 135 - 1) = 0x44b3ffff := by decide +kernel
  have htie : Scalar.nearestPlace (1440 * 2 ^ 149 - 2 ^ 135) = 0x44b40000 := by decide +kernel
  rw [hplace]
  constructor
  · intro h
    by_contra hn
    have := Scalar.nearestPlace_mono (Int.not_lt.mp hn)
    omega
  · intro h
    have := Scalar.nearestPlace_mono (show n ≤ 1440 * 2 ^ 149 - 2 ^ 135 - 1 by omega)
    omega

theorem modulo_lt_midnight (hx : x.isFinite = true) :
    x.modulo minutesPerDay < minutesPerDay ↔ ¬JustShort x := by
  have hbound : ((1440 * 2 ^ 149 - 2 ^ 135 : Int) : ℚ) / 2 ^ 149 = 1440 - 1 / 2 ^ 14 := by norm_num
  rw [Scalar.modulo_lt_iff hx isFinite_minutesPerDay units_minutesPerDay
    isWhole_minutesPerDay.finite nearestPlace_lt_midnight, isWhole_minutesPerDay.toRat, hbound,
    JustShort, not_le]
  rfl

/-- What is not below zero is never just short. -/
theorem not_justShort (hx : x.isFinite = true) (h : 0 ≤ x) : ¬JustShort x := by
  have hzero := Scalar.isFinite_zero
  have hfin := Scalar.isFinite_number hx
  have hunits : 0 ≤ units x.number :=
    (Scalar.place_le_iff hzero hfin).mp ((Scalar.le_iff_place hzero.ne_nan hfin.ne_nan).mp h)
  obtain ⟨hmod, -, -⟩ := Scalar.modulo_finite hx isFinite_minutesPerDay units_minutesPerDay
  rw [← modulo_lt_midnight hx, Scalar.lt_iff_place hmod.ne_nan isWhole_minutesPerDay.finite.ne_nan,
    ← Int.not_le, Scalar.place_le_iff isWhole_minutesPerDay.finite hmod,
    Scalar.units_modulo hx isFinite_minutesPerDay units_minutesPerDay hunits, Int.not_le]
  exact Int.emod_lt_of_pos _ units_minutesPerDay

end Day

section Runs

/-- What is finite by itself stays finite when a time of day is added. -/
theorem unwrapped_isFinite (hc : c.InDay) (hp : (c.product op).isFinite = true) :
    (c.unwrapped op).isFinite = true := by
  have sum : (c.minutesOfDay + c.product op).isFinite = true := by
    have hday := isWhole_minutesPerDay.finite
    have hm := Scalar.isFinite_of_le hc.low hc.high hday
    have hp := Scalar.isFinite_number hp
    have low := (Scalar.toRat_le_iff Scalar.isFinite_zero hm).mp hc.low
    have high := (Scalar.toRat_le_iff hm hday).mp hc.high
    have own := abs_le.mp (Scalar.abs_toRat_le hp)
    rw [Scalar.toRat_zero] at low
    rw [isWhole_minutesPerDay.toRat] at high
    refine Scalar.isFinite_of_number (Scalar.isFinite_add hm hp (abs_lt.mpr ?_))
    norm_num [Scalar.overflow] at own high ⊢
    constructor <;> linarith
  cases op with
  | set minutes => exact hp
  | frames | seconds => exact sum

/-- One operation leaves the clock within the day, and short of its end unless it comes from just
short of it. -/
theorem perform_inDay (hc : c.InDay) (hp : (c.product op).isFinite = true) :
    (c.perform op).InDay ∧
      ((c.perform op).minutesOfDay < minutesPerDay ↔ ¬JustShort (c.unwrapped op)) := by
  have hx := unwrapped_isFinite hc hp
  obtain ⟨-, low, high⟩ := Scalar.modulo_finite hx isFinite_minutesPerDay units_minutesPerDay
  rw [← perform_minutesOfDay] at low high
  rw [perform_minutesOfDay]
  exact ⟨⟨low, high⟩, modulo_lt_midnight hx⟩

/-- By induction on the operations. -/
theorem run_inDay (hc : c.InDay) (hf : c.StaysFinite ops) : (c.run ops).InDay := by
  induction ops generalizing c with
  | nil => exact hc
  | cons op ops ih =>
    refine ih (perform_inDay hc (hf [] op ops rfl)).1 fun before op' after he => ?_
    exact hf (op :: before) op' after (by rw [he, List.cons_append])

/-- Time that only goes on does not come from below zero. -/
theorem unwrapped_nonneg (hc : c.InDay) (hp : (c.product op).isFinite = true)
    (hrate : 0 ≤ c.minutesPerFrame) (hset : ∀ m, op = .set m → 0 ≤ m) : 0 ≤ c.unwrapped op := by
  have hnum := (Scalar.isFinite_number (unwrapped_isFinite hc hp)).ne_nan
  have hnow := Scalar.not_neg_of_nonneg hc.low
  have hmul (n : Scalar) : ¬n.max 0 * c.minutesPerFrame < 0 :=
    Scalar.mul_not_neg n.max_zero_not_neg (Scalar.not_neg_of_nonneg hrate)
  cases op with
  | set minutes => exact hset minutes rfl
  | frames n => exact Scalar.nonneg_of_not_neg hnum (Scalar.add_not_neg hnow (hmul _))
  | seconds s => exact Scalar.nonneg_of_not_neg hnum (Scalar.add_not_neg hnow (hmul _))

/-- After every operation of a run whose products are finite, the time of day is not below midnight
and not above the next one. It is the next one only if the minutes that the operation came to were
just short of a whole number of days; and so it never is on a clock that neither runs backwards nor
is set to what is below zero. -/
theorem time_of_day_in_range (c : Clock) (ops : List Operation) (hc : c.InDay)
    (hf : c.StaysFinite ops) (before : List Operation) (op : Operation) (after : List Operation)
    (he : ops = before ++ op :: after) :
    ((c.run before).perform op).InDay ∧
      (((c.run before).perform op).minutesOfDay < minutesPerDay ↔
        ¬JustShort ((c.run before).unwrapped op)) ∧
      (0 ≤ c.minutesPerFrame → (∀ m, .set m ∈ ops → 0 ≤ m) →
        ((c.run before).perform op).minutesOfDay < minutesPerDay) := by
  have hb : (c.run before).InDay := run_inDay hc fun before' op' after' he' =>
    hf before' op' (after' ++ op :: after) (by rw [he, he', List.append_assoc, List.cons_append])
  have hp := hf before op after he
  obtain ⟨hday, hlt⟩ := perform_inDay hb hp
  refine ⟨hday, hlt, fun hrate hset => hlt.mpr ?_⟩
  refine not_justShort (unwrapped_isFinite hb hp) (unwrapped_nonneg hb hp ?_ fun m hm => ?_)
  · rwa [run_minutesPerFrame]
  · exact hset m (by simp [he, hm])

theorem staysFinite_cons (hp : (c.product op).isFinite = true) (hf : (c.perform op).StaysFinite ops) :
    c.StaysFinite (op :: ops) := by
  intro before op' after he
  cases before with
  | nil =>
    cases he
    exact hp
  | cons first before =>
    cases he
    exact hf before op' after rfl

theorem staysFinite_nil (c : Clock) : c.StaysFinite [] := by
  intro before op after he
  cases before <;> cases he

def quick : Clock := { minutesPerFrame := 10 }

/-- Past midnight, and on for as long as a stall counts. -/
def lateEvening : List Operation := [.set 1430, .frames 2, .seconds 5]

theorem lateEvening_in_range :
    quick.InDay ∧ quick.StaysFinite lateEvening ∧
      ((quick.run [.set 1430]).perform (.frames 2)).minutesOfDay = 10 ∧
      ((quick.run [.set 1430, .frames 2]).perform (.seconds 5)).minutesOfDay = 160 ∧
      ((quick.run [.set 1430]).perform (.frames 2)).minutesOfDay < minutesPerDay := by
  have hday : quick.InDay := ⟨by decide +kernel, by decide +kernel⟩
  have hf : quick.StaysFinite lateEvening :=
    staysFinite_cons (by decide +kernel) <| staysFinite_cons (by decide +kernel) <|
      staysFinite_cons (by decide +kernel) <| staysFinite_nil _
  refine ⟨hday, hf, by decide +kernel, by decide +kernel, ?_⟩
  refine (time_of_day_in_range quick lateEvening hday hf [.set 1430] (.frames 2) [.seconds 5]
    rfl).2.2 (by decide +kernel) fun m hm => ?_
  obtain rfl : m = 1430 := by simpa [lateEvening] using hm
  decide +kernel

/-- A ten-billionth of a minute before midnight is midnight, and not the first but the last. -/
theorem not_before_midnight :
    ¬∀ (c : Clock) (ops : List Operation), c.minutesOfDay = 720 → c.StaysFinite ops →
      ∀ before op after, ops = before ++ op :: after →
        0 ≤ ((c.run before).perform op).minutesOfDay ∧
          ((c.run before).perform op).minutesOfDay < minutesPerDay := by
  intro h
  have hf : ({} : Clock).StaysFinite [.set ⟨0xaedbe6ff⟩] :=
    staysFinite_cons (by decide +kernel) (staysFinite_nil _)
  exact absurd (h {} [.set ⟨0xaedbe6ff⟩] rfl hf [] _ [] rfl).2 (by decide +kernel)

end Runs

end EffectMachine.Clock
