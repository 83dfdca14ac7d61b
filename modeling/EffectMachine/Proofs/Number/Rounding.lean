import EffectMachine.Number.Dyadic
import Mathlib.Algebra.Order.Ring.Nat

namespace EffectMachine.Layout

section Halve

variable {m n k j : Nat}

theorem halve_zero (m : Nat) : halve m 0 = m := by
  simp [halve, Nat.mod_one]

theorem halve_le_add_one (m k : Nat) : halve m k ≤ m / 2 ^ k + 1 := by
  unfold halve
  dsimp only
  split
  · exact Nat.le_refl _
  · exact Nat.le_succ _

theorem le_halve (m k : Nat) : m / 2 ^ k ≤ halve m k := by
  unfold halve
  dsimp only
  split
  · exact Nat.le_succ _
  · exact Nat.le_refl _

/-- Where both lie between the same neighbours, the larger one is no further from the upper one. -/
theorem halve_mono (h : m ≤ n) (k : Nat) : halve m k ≤ halve n k := by
  have hq : m / 2 ^ k ≤ n / 2 ^ k := Nat.div_le_div_right h
  rcases Nat.lt_or_eq_of_le hq with hlt | heq
  · exact Nat.le_trans (halve_le_add_one m k) (Nat.le_trans hlt (le_halve n k))
  · have hm := Nat.div_add_mod m (2 ^ k)
    have hn := Nat.div_add_mod n (2 ^ k)
    have hr : m % 2 ^ k ≤ n % 2 ^ k := by
      rw [heq] at hm
      omega
    unfold halve
    simp only [Nat.pow_eq, heq]
    split <;> split <;> omega

/-- A power of two may be left out on both sides. -/
theorem halve_mul (m k j : Nat) : halve (m * 2 ^ j) (k + j) = halve m k := by
  have hj : 0 < 2 ^ j := Nat.two_pow_pos j
  unfold halve
  simp only [Nat.pow_eq, Nat.pow_add, Nat.mul_div_mul_right _ _ hj, Nat.mul_mod_mul_right]
  have hup : 2 ^ k * 2 ^ j < 2 * (m % 2 ^ k * 2 ^ j) ↔ 2 ^ k < 2 * (m % 2 ^ k) := by
    rw [← Nat.mul_assoc]
    exact Nat.mul_lt_mul_right hj
  have htie : 2 * (m % 2 ^ k * 2 ^ j) = 2 ^ k * 2 ^ j ↔ 2 * (m % 2 ^ k) = 2 ^ k := by
    rw [← Nat.mul_assoc]
    exact Nat.mul_left_inj (Nat.pos_iff_ne_zero.mp hj)
  simp only [hup, htie]

/-- What a power of two divides is halved without a rest. -/
theorem halve_exact (m k : Nat) : halve (m * 2 ^ k) k = m := by
  have h := halve_mul m 0 k
  rwa [Nat.zero_add, halve_zero] at h

end Halve

/-- How many of its last binary places a number of so many units loses. -/
def lostPlaces (n : Nat) : Nat := n.log2 - 23

/-- The place of the nearest pattern, if there were patterns without an end. -/
def unbounded (n : Nat) : Nat := lostPlaces n * 2 ^ 23 + halve n (lostPlaces n)

/-- The pattern nearest to so many units of the least scalar. -/
def nearest (n : Nat) : Nat := single.round ⟨false, n, single.leastExponent⟩

/-- Rounding is as if patterns had no end, held to infinity. -/
theorem nearest_eq (n : Nat) : nearest n = min single.infinityBits (unbounded n) := by
  rw [nearest, Layout.round]
  dsimp only
  split
  next h =>
    subst h
    decide
  next h =>
    have hlast : max single.leastExponent
        (single.leastExponent + (n.log2 : Int) - single.fractionBits) - single.leastExponent =
        (lostPlaces n : Int) := by
      change max _ (_ + _ - (23 : Int)) - _ = ((n.log2 - 23 : Nat) : Int)
      omega
    simp only [hlast, unbounded, Int.toNat_natCast, Nat.zero_add, if_neg Bool.false_ne_true]
    congr 2
    split
    next hz =>
      have hz : lostPlaces n = 0 := by omega
      simp [hz, halve_zero]
    next => rfl

section Unbounded

variable {m n k : Nat}

theorem lostPlaces_mono (h : m ≤ n) : lostPlaces m ≤ lostPlaces n := by
  refine Nat.sub_le_sub_right ?_ 23
  rcases Nat.eq_zero_or_pos m with rfl | hm
  · exact Nat.zero_le _
  · have hn : n ≠ 0 := by omega
    exact (Nat.le_log2 hn).mpr (Nat.le_trans (Nat.log2_self_le (Nat.ne_of_gt hm)) h)

/-- What is left has at most 24 places. -/
theorem div_lostPlaces_lt (n : Nat) : n / 2 ^ lostPlaces n < 2 ^ 24 := by
  rw [Nat.div_lt_iff_lt_mul (Nat.two_pow_pos _), ← Nat.pow_add]
  refine Nat.lt_of_lt_of_le Nat.lt_log2_self (Nat.pow_le_pow_right (by decide) ?_)
  unfold lostPlaces
  omega

/-- What loses places is left with 24 of them. -/
theorem le_div_lostPlaces (h : lostPlaces n ≠ 0) : 2 ^ 23 ≤ n / 2 ^ lostPlaces n := by
  have hn : n ≠ 0 := by
    rintro rfl
    exact h rfl
  rw [Nat.le_div_iff_mul_le (Nat.two_pow_pos _), ← Nat.pow_add]
  refine Nat.le_trans (Nat.pow_le_pow_right (by decide) ?_) (Nat.log2_self_le hn)
  unfold lostPlaces at h ⊢
  omega

theorem unbounded_mono (h : m ≤ n) : unbounded m ≤ unbounded n := by
  rcases Nat.lt_or_eq_of_le (lostPlaces_mono h) with hlt | heq
  · have hm := div_lostPlaces_lt m
    have hm' := halve_le_add_one m (lostPlaces m)
    have hn := le_div_lostPlaces (n := n) (by omega)
    have hn' := le_halve n (lostPlaces n)
    unfold unbounded
    omega
  · unfold unbounded
    rw [heq]
    exact Nat.add_le_add_left (halve_mono h _) _

theorem nearest_mono (h : m ≤ n) : nearest m ≤ nearest n := by
  rw [nearest_eq, nearest_eq]
  have hu := unbounded_mono h
  omega

theorem log2_mul_two_pow (hm : m ≠ 0) (k : Nat) : (m * 2 ^ k).log2 = m.log2 + k := by
  have hk := Nat.two_pow_pos k
  refine (Nat.log2_eq_iff (Nat.mul_ne_zero hm (Nat.ne_of_gt hk))).mpr ?_
  rw [Nat.pow_add, Nat.add_right_comm, Nat.pow_add]
  exact ⟨Nat.mul_le_mul_right _ (Nat.log2_self_le hm),
    Nat.mul_lt_mul_of_pos_right Nat.lt_log2_self hk⟩

/-- A number with a pattern of its own loses the places that its exponent says. -/
theorem lostPlaces_mul (hm : m < 2 ^ 24) (hk : 2 ^ 23 ≤ m ∨ k = 0) :
    lostPlaces (m * 2 ^ k) = k := by
  rcases Nat.eq_zero_or_pos m with rfl | hpos
  · rw [Nat.zero_mul]
    exact (hk.resolve_left (by decide)).symm
  · have hlog := (Nat.log2_lt (Nat.ne_of_gt hpos)).mpr hm
    rw [lostPlaces, log2_mul_two_pow (Nat.ne_of_gt hpos)]
    rcases hk with hk | rfl
    · have := (Nat.le_log2 (Nat.ne_of_gt hpos)).mpr hk
      omega
    · omega

/-- It has the place of that pattern. -/
theorem unbounded_mul (hm : m < 2 ^ 24) (hk : 2 ^ 23 ≤ m ∨ k = 0) :
    unbounded (m * 2 ^ k) = k * 2 ^ 23 + m := by
  rw [unbounded, lostPlaces_mul hm hk, halve_exact]

end Unbounded
end EffectMachine.Layout
