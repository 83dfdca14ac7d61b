import EffectMachine.Proofs.World.TimeOfDay

namespace EffectMachine

/-- What a time of day is computed with. -/
class DayArithmetic (α : Type) extends Add α, Sub α, Mul α, Div α where
  ofNat : Nat → α
  max : α → α → α
  modulo : α → α → α
  le : α → α → Bool
  lt : α → α → Bool

instance : DayArithmetic Scalar where
  ofNat := Scalar.ofNat
  max := Scalar.max
  modulo := Scalar.modulo
  le a b := a ≤ b
  lt a b := a < b

instance : DayArithmetic ℚ where
  ofNat := Nat.cast
  max := Max.max
  modulo := exactModulo
  le a b := a ≤ b
  lt a b := a < b

namespace DayArithmetic

section Formulas

variable {α : Type} [DayArithmetic α]

def framesUntil (rate now : α) (minute : UInt16) : α :=
  modulo (ofNat minute.toNat - now) (ofNat 1440) / rate

def later (rate now frames : α) : α := modulo (now + max frames (ofNat 0) * rate) (ofNat 1440)

def inWindow (now : α) (start finish : UInt16) : Bool :=
  let start := ofNat start.toNat
  let finish := ofNat finish.toNat
  if le start finish then le start now && lt now finish else le start now || lt now finish

end Formulas

section Exact

variable {x y : ℚ}

theorem exactModulo_nonneg (hy : 0 < y) : 0 ≤ exactModulo x y :=
  mul_nonneg (Int.fract_nonneg _) hy.le

/-- Whole days make no difference. -/
theorem exactModulo_add_sub (a b : ℚ) (hy : 0 < y) :
    exactModulo (a + exactModulo (b - a) y) y = exactModulo b y := by
  rw [exactModulo, exactModulo, exactModulo]
  congr 1
  refine Int.fract_eq_fract.mpr ⟨-⌊(b - a) / y⌋, ?_⟩
  rw [add_div, mul_div_cancel_right₀ _ hy.ne', Int.fract, sub_div]
  push_cast
  ring

theorem exactModulo_natCast (n : Nat) : exactModulo n 1440 = (n % 1440 : Nat) := by
  have h := Int.fract_div_natCast_eq_div_natCast_mod (k := ℚ) (m := n) (n := 1440)
  rw [Nat.cast_ofNat] at h
  rw [exactModulo, h, div_mul_cancel₀]
  norm_num

theorem ofNat_day : (ofNat 1440 : ℚ) = 1440 := Nat.cast_ofNat

/-- After so many frames it is exactly that minute. -/
theorem later_framesUntil {rate : ℚ} (hrate : 0 < rate) (now : ℚ) (minute : UInt16) :
    0 ≤ framesUntil rate now minute ∧
      later rate now (framesUntil rate now minute) = (minute.toNat % 1440 : Nat) := by
  have hday : (0 : ℚ) < 1440 := by norm_num
  have hframes : 0 ≤ framesUntil rate now minute := by
    rw [framesUntil, ofNat_day]
    exact div_nonneg (exactModulo_nonneg hday) hrate.le
  refine ⟨hframes, ?_⟩
  have hmax : max (framesUntil rate now minute) (ofNat 0) = framesUntil rate now minute :=
    max_eq_left hframes
  rw [later, hmax, framesUntil, ofNat_day, div_mul_cancel₀ _ hrate.ne']
  exact (exactModulo_add_sub now minute.toNat hday).trans (exactModulo_natCast _)

end Exact

end DayArithmetic

namespace Clock

open Scalar (IsFinite)

variable {c : Clock} {start finish minute : UInt16}

/-- The clock computes this formula for scalars. -/
theorem framesUntil_eq (h : ¬c.minutesPerFrame ≤ 0) :
    c.framesUntil minute = DayArithmetic.framesUntil c.minutesPerFrame c.minutesOfDay minute :=
  if_neg h

theorem tickFrames_eq (c : Clock) (frames : Scalar) :
    (c.tickFrames frames).1.minutesOfDay =
      DayArithmetic.later c.minutesPerFrame c.minutesOfDay frames := rfl

theorem inWindow_eq (c : Clock) (start finish : UInt16) :
    c.inWindow start finish = DayArithmetic.inWindow c.minutesOfDay start finish := by
  simp [inWindow, DayArithmetic.inWindow, DayArithmetic.ofNat, DayArithmetic.le, DayArithmetic.lt]

/-- Is a gate open at the minute that its start is, modulo a day? -/
def OpensAtStart (start finish : UInt16) : Prop :=
  start ≠ finish ∧
    (start.toNat < 1440 ∨ finish.toNat < start.toNat ∧ start.toNat % 1440 < finish.toNat)

instance (start finish : UInt16) : Decidable (OpensAtStart start finish) :=
  inferInstanceAs (Decidable (_ ∧ _))

/-- An arithmetic that has whole minutes in their order sees the gate so. -/
theorem inWindow_start {α : Type} [DayArithmetic α] {now : α}
    (ends : (DayArithmetic.le (DayArithmetic.ofNat start.toNat : α)
      (DayArithmetic.ofNat finish.toNat)) = decide (start.toNat ≤ finish.toNat))
    (low : DayArithmetic.le (DayArithmetic.ofNat start.toNat) now =
      decide (start.toNat ≤ start.toNat % 1440))
    (high : DayArithmetic.lt now (DayArithmetic.ofNat finish.toNat) =
      decide (start.toNat % 1440 < finish.toNat)) :
    DayArithmetic.inWindow now start finish = true ↔ OpensAtStart start finish := by
  have hne : start ≠ finish ↔ start.toNat ≠ finish.toNat := UInt16.toNat_inj.symm.not
  rw [DayArithmetic.inWindow, ends, low, high, OpensAtStart, hne]
  simp only [decide_eq_true_eq]
  split <;> simp only [Bool.and_eq_true, Bool.or_eq_true, decide_eq_true_eq] <;> omega

theorem exact_inWindow_start (start finish : UInt16) :
    DayArithmetic.inWindow ((start.toNat % 1440 : Nat) : ℚ) start finish = true ↔
      OpensAtStart start finish := by
  refine inWindow_start (decide_eq_decide.mpr Nat.cast_le) (decide_eq_decide.mpr Nat.cast_le)
    (decide_eq_decide.mpr Nat.cast_lt)

theorem isWhole_minute (minute : UInt16) :
    (Scalar.ofNat minute.toNat).IsWhole (minute.toNat : Int) :=
  Scalar.isWhole_ofNat (Nat.lt_trans minute.toNat_lt (by decide))

/-- Does the clock show an exact time of day? -/
structure Shows (c : Clock) (now : ℚ) : Prop where
  finite : IsFinite c.minutesOfDay.number
  exact : c.minutesOfDay.toRat = now

/-- A clock that shows it sees the gate so. -/
theorem Shows.inWindow (h : c.Shows (start.toNat % 1440 : Nat)) (finish : UInt16) :
    c.inWindow start finish = true ↔ OpensAtStart start finish := by
  have hnow : c.minutesOfDay.IsWhole (start.toNat % 1440 : Nat) :=
    (Scalar.isWhole_iff h.finite).mpr (by rw [h.exact, Int.cast_natCast])
  have hs := isWhole_minute start
  have hf := isWhole_minute finish
  rw [inWindow_eq]
  exact inWindow_start (decide_eq_decide.mpr ((hs.le_iff hf).trans Nat.cast_le))
    (decide_eq_decide.mpr ((hs.le_iff hnow).trans Nat.cast_le))
    (decide_eq_decide.mpr ((hnow.lt_iff hf).trans Nat.cast_lt))

/-- Time goes on, and it is some time of the day. -/
structure GoesOn (c : Clock) : Prop where
  rate : c.minutesPerFrame.isFinite = true
  forwards : 0 < c.minutesPerFrame
  low : 0 ≤ c.minutesOfDay
  high : c.minutesOfDay < minutesPerDay

def wait (c : Clock) (minute : UInt16) : Scalar :=
  (Scalar.ofNat minute.toNat - c.minutesOfDay).modulo minutesPerDay

def exactFrames (c : Clock) (minute : UInt16) : ℚ :=
  DayArithmetic.framesUntil c.minutesPerFrame.toRat c.minutesOfDay.toRat minute

def exactLater (c : Clock) (frames : ℚ) : ℚ :=
  DayArithmetic.later c.minutesPerFrame.toRat c.minutesOfDay.toRat frames

/-- What a clock says of a gate. -/
structure Forecasts (c : Clock) (start finish : UInt16) : Prop where
  /-- The frames are a number unless there are more of them than numbers go. -/
  finite : (c.framesUntil start).isFinite = true ↔
    (c.wait start).toRat / c.minutesPerFrame.toRat < Scalar.overflow
  ahead : 0 ≤ c.exactFrames start
  /-- After them it is the minute that the gate opens at, modulo a day. -/
  reaches : c.exactLater (c.exactFrames start) = (start.toNat % 1440 : Nat)
  opens : DayArithmetic.inWindow (c.exactLater (c.exactFrames start)) start finish = true ↔
    OpensAtStart start finish

theorem GoesOn.toRat_pos (h : c.GoesOn) : 0 < c.minutesPerFrame.toRat := by
  have := (Scalar.toRat_lt_iff Scalar.isFinite_zero (Scalar.isFinite_number h.rate)).mp h.forwards
  rwa [Scalar.toRat_zero] at this

/-- The minutes to wait are finite and never fewer than none. -/
theorem GoesOn.wait (h : c.GoesOn) (minute : UInt16) :
    IsFinite (c.wait minute).number ∧ 0 ≤ (c.wait minute).toRat := by
  have hday := isWhole_minutesPerDay.finite
  have hminute := isWhole_minute minute
  have hnow := Scalar.isFinite_of_le h.low (Scalar.le_of_lt h.high) hday
  have low := (Scalar.toRat_le_iff Scalar.isFinite_zero hnow).mp h.low
  have high := (Scalar.toRat_lt_iff hnow hday).mp h.high
  rw [Scalar.toRat_zero] at low
  rw [isWhole_minutesPerDay.toRat] at high
  have hdiff : IsFinite (Scalar.ofNat minute.toNat - c.minutesOfDay).number := by
    refine Scalar.isFinite_sub hminute.finite hnow (abs_lt.mpr ?_)
    have hlt : (minute.toNat : ℚ) < 65536 := by exact_mod_cast minute.toNat_lt
    have hge : (0 : ℚ) ≤ minute.toNat := by positivity
    rw [hminute.toRat, Int.cast_natCast]
    norm_num [Scalar.overflow] at high ⊢
    constructor <;> linarith
  obtain ⟨hfin, hlow, -⟩ := Scalar.modulo_finite (Scalar.isFinite_of_number hdiff)
    isFinite_minutesPerDay units_minutesPerDay
  have hnonneg := (Scalar.toRat_le_iff Scalar.isFinite_zero hfin).mp hlow
  rw [Scalar.toRat_zero] at hnonneg
  exact ⟨hfin, hnonneg⟩

/-- While time goes on, a clock forecasts every gate as the formulas say. -/
theorem GoesOn.forecasts (h : c.GoesOn) (start finish : UInt16) : c.Forecasts start finish := by
  have hrate := h.toRat_pos
  have hfin := Scalar.isFinite_number h.rate
  obtain ⟨hwait, hnonneg⟩ := h.wait start
  obtain ⟨hahead, hreach⟩ := DayArithmetic.later_framesUntil hrate c.minutesOfDay.toRat start
  refine ⟨?_, hahead, hreach, ?_⟩
  · have hpos : ¬c.minutesPerFrame ≤ 0 :=
      fun hn => ((Scalar.not_le_iff hfin.ne_nan Scalar.isFinite_zero.ne_nan).mpr h.forwards) hn
    have hframes : c.framesUntil start = c.wait start / c.minutesPerFrame := framesUntil_eq hpos
    have hiff := Scalar.isFinite_div_iff hwait hfin hrate.ne'
    rw [abs_of_nonneg (div_nonneg hnonneg hrate.le)] at hiff
    rw [hframes, ← hiff]
    exact ⟨Scalar.isFinite_number, Scalar.isFinite_of_number⟩
  · rw [exactLater, exactFrames, hreach]
    exact exact_inWindow_start start finish

end Clock
end EffectMachine
