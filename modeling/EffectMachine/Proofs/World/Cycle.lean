import EffectMachine.Proofs.World.Orbit
import Mathlib.Data.Finset.Card
import Mathlib.Data.List.Prime
import Mathlib.Data.Nat.Prime.Basic
import Mathlib.Dynamics.PeriodicPts.Lemmas
import Mathlib.Order.Interval.Finset.Nat
import Mathlib.Tactic.FinCases
import Mathlib.Tactic.NormNum.Prime

namespace EffectMachine.Rng

open Function (minimalPeriod IsPeriodicPt)

/-- The exclusive or of those of the words from `x` on, so many in all, that have their binary place
in `picks`. -/
def blend : Nat → Nat → UInt32 → UInt32
  | 0, _, _ => 0
  | n + 1, picks, x => (if picks % 2 = 1 then x else 0) ^^^ blend n (picks / 2) (mix x)

theorem mix_blend (n picks : Nat) (x : UInt32) : mix (blend n picks x) = blend n picks (mix x) := by
  induction n generalizing picks x with
  | zero => exact mix_zero
  | succ n ih =>
    rw [blend, blend, mix_xor, ih]
    split
    · rfl
    · rw [mix_zero]

theorem iterate_blend (n picks k : Nat) (x : UInt32) :
    mix^[k] (blend n picks x) = blend n picks (mix^[k] x) :=
  Function.Commute.iterate_left (mix_blend n picks) k x

/-- So many mixes of one are a blend of its first 32 words. -/
def Leaps (k picks : Nat) : Prop := mix^[k] 1 = blend 32 picks 1

/-- And so are as many of any word that comes after one. -/
theorem Leaps.after {k picks : Nat} (h : Leaps k picks) (j : Nat) :
    mix^[j + k] 1 = blend 32 picks (mix^[j] 1) := by
  rw [Function.iterate_add_apply, h, iterate_blend]

/-- The picks for twice as many mixes. -/
def Doubles (picks picks' : Nat) : Prop := blend 32 picks' 1 = blend 32 picks (blend 32 picks 1)

instance (picks picks' : Nat) : Decidable (Doubles picks picks') :=
  inferInstanceAs (Decidable (_ = _))

theorem Leaps.double {k picks picks' : Nat} (h : Leaps k picks) (hd : Doubles picks picks') :
    Leaps (2 * k) picks' := by
  rw [Leaps, hd, ← h, ← h.after, Nat.two_mul]

/-- Mixes a word as often as a number says whose binary places have these picks, lowest first. -/
def leap : List Nat → Nat → UInt32 → UInt32
  | [], _, x => x
  | picks :: table, n, x => leap table (n / 2) (if n % 2 = 1 then blend 32 picks x else x)

/-- By induction on the table. -/
theorem leap_eq {k picks : Nat} {table : List Nat} (hk : Leaps k picks)
    (ht : (picks :: table).IsChain Doubles) {n : Nat} (hn : n < 2 ^ (table.length + 1)) (j : Nat) :
    leap (picks :: table) n (mix^[j] 1) = mix^[j + k * n] 1 := by
  have first : (if n % 2 = 1 then blend 32 picks (mix^[j] 1) else mix^[j] 1) =
      mix^[j + k * (n % 2)] 1 := by
    rcases Nat.mod_two_eq_zero_or_one n with h | h
    · rw [h, if_neg Nat.zero_ne_one, Nat.mul_zero, Nat.add_zero]
    · rw [h, if_pos rfl, Nat.mul_one, hk.after]
  have split : k * n = k * (n % 2) + 2 * k * (n / 2) := by
    rw [Nat.mul_comm 2 k, Nat.mul_assoc, ← Nat.mul_add, Nat.mod_add_div]
  rw [leap, first]
  cases table with
  | nil =>
    have hz : n / 2 = 0 := by
      rw [List.length_nil] at hn
      omega
    rw [leap, split, hz, Nat.mul_zero, Nat.add_zero]
  | cons picks' table =>
    obtain ⟨hd, ht⟩ := List.isChain_cons_cons.mp ht
    have hn' : n / 2 < 2 ^ (table.length + 1) := by
      rw [List.length_cons, Nat.pow_succ] at hn
      omega
    rw [leap_eq (hk.double hd) ht hn', split, Nat.add_assoc]

/-- The picks for `2 ^ 0`, `2 ^ 1` and so on up to `2 ^ 31` mixes. A mix respects exclusive or, so
each entry doubles the one before. -/
def doublings : List Nat :=
  [0x2, 0x4, 0x10, 0x100, 0x10000, 0x3ec241, 0x9968e855, 0x3d22aa5f, 0x8f64cbe9, 0x4de7b28f,
    0xca26a09e, 0x5af3f93e, 0x58d49ae1, 0xa8a5a8da, 0xf80f61b2, 0xa1d2664f, 0x80ad6e7a, 0x34b4f01f,
    0x1058187d, 0xc9cfd3d5, 0x3d998ff3, 0xf0158c73, 0x17caffb, 0xa6a00168, 0x17ec2bc1, 0x1130b133,
    0x5255f2bc, 0xd427afcf, 0xe772825f, 0xaaf60c53, 0x722b754e, 0xe7505040]

theorem doublings_double : doublings.IsChain Doubles := by decide +kernel

theorem leap_doublings {n : Nat} (hn : n < 2 ^ 32) : leap doublings n 1 = mix^[n] 1 := by
  have first : Leaps 1 0x2 := show mix 1 = blend 32 0x2 1 by decide +kernel
  have h := leap_eq first doublings_double hn 0
  rwa [Nat.one_mul, Nat.zero_add] at h

def cycleLength : Nat := 2 ^ 32 - 1

def primeFactors : List Nat := [3, 5, 17, 257, 65537]

theorem prod_primeFactors : primeFactors.prod = cycleLength := by decide

theorem mem_primeFactors {q : Nat} (hq : q.Prime) (hd : q ∣ cycleLength) : q ∈ primeFactors := by
  have primes : ∀ p ∈ primeFactors, Prime p := by
    intro p hp
    apply Nat.Prime.prime
    fin_cases hp <;> norm_num
  rw [← prod_primeFactors] at hd
  exact mem_list_primes_of_dvd_prod hq.prime primes hd

theorem isPeriodicPt_one : IsPeriodicPt mix cycleLength 1 := by
  have back : leap doublings cycleLength 1 = 1 := by decide +kernel
  rwa [leap_doublings (by decide)] at back

/-- No prime factor shortens the way back. -/
theorem not_isPeriodicPt_one {q : Nat} (hq : q ∈ primeFactors) :
    ¬IsPeriodicPt mix (cycleLength / q) 1 := by
  have away : ∀ q ∈ primeFactors, leap doublings (cycleLength / q) 1 ≠ 1 := by decide +kernel
  intro h
  have hlt : cycleLength / q < 2 ^ 32 := Nat.lt_of_le_of_lt (Nat.div_le_self ..) (by decide)
  exact away q hq (by rw [leap_doublings hlt, h])

theorem minimalPeriod_one : minimalPeriod mix 1 = cycleLength := by
  obtain ⟨m, hm⟩ := isPeriodicPt_one.minimalPeriod_dvd
  rcases eq_or_ne m 1 with rfl | hne
  · rw [hm, Nat.mul_one]
  · obtain ⟨q, hq, c, rfl⟩ := Nat.exists_prime_and_dvd hne
    have hd : q ∣ cycleLength := ⟨minimalPeriod mix 1 * c, by rw [hm]; ac_rfl⟩
    have early : cycleLength / q = minimalPeriod mix 1 * c := by
      rw [hm]
      exact Nat.div_eq_of_eq_mul_right hq.pos (by ac_rfl)
    exact absurd (Function.isPeriodicPt_iff_minimalPeriod_dvd.mpr ⟨c, early⟩)
      (not_isPeriodicPt_one (mem_primeFactors hq hd))

/-- There are no other words than those on the way from one back to one. -/
theorem exists_iterate_one {x : UInt32} (hx : x ≠ 0) : ∃ n < cycleLength, mix^[n] 1 = x := by
  have distinct : Set.InjOn (fun n => (mix^[n] 1).toNat) (Finset.range cycleLength) := by
    intro m hm n hn h
    rw [Finset.coe_range, ← minimalPeriod_one] at hm hn
    exact Function.iterate_injOn_Iio_minimalPeriod hm hn (UInt32.toNat_inj.mp h)
  have within : (Finset.range cycleLength).image (fun n => (mix^[n] 1).toNat) ⊆
      Finset.Ico 1 (2 ^ 32) := by
    intro k hk
    obtain ⟨n, -, rfl⟩ := Finset.mem_image.mp hk
    have hne := iterate_ne_zero (x := 1) (by decide) n
    exact Finset.mem_Ico.mpr
      ⟨Nat.pos_of_ne_zero fun hz => hne (UInt32.toNat_inj.mp hz), UInt32.toNat_lt _⟩
  have all := Finset.eq_of_subset_of_card_le within
    (by rw [Finset.card_image_of_injOn distinct, Finset.card_range, Nat.card_Ico]; rfl)
  have hmem : x.toNat ∈ Finset.Ico 1 (2 ^ 32) := Finset.mem_Ico.mpr
    ⟨Nat.pos_of_ne_zero fun hz => hx (UInt32.toNat_inj.mp hz), x.toNat_lt⟩
  rw [← all] at hmem
  obtain ⟨n, hn, h⟩ := Finset.mem_image.mp hmem
  exact ⟨n, Finset.mem_range.mp hn, UInt32.toNat_inj.mp h⟩

/-- Every word but zero comes back after that many mixes, and not before. -/
theorem minimalPeriod_mix {x : UInt32} (hx : x ≠ 0) : minimalPeriod mix x = cycleLength := by
  obtain ⟨n, -, rfl⟩ := exists_iterate_one hx
  have back : 1 ∈ Function.periodicPts mix := ⟨cycleLength, by decide, isPeriodicPt_one⟩
  rw [Function.minimalPeriod_apply_iterate back, minimalPeriod_one]

/-- Once round more makes no difference. -/
theorem iterate_add_cycleLength {x : UInt32} (hx : x ≠ 0) (n : Nat) :
    mix^[n + cycleLength] x = mix^[n] x := by
  rw [← minimalPeriod_mix hx, Function.iterate_add_minimalPeriod_eq]

/-- Any word but zero leads to any other. -/
theorem exists_iterate {x y : UInt32} (hx : x ≠ 0) (hy : y ≠ 0) :
    ∃ n < cycleLength, mix^[n] x = y := by
  obtain ⟨i, hi, rfl⟩ := exists_iterate_one hx
  obtain ⟨j, hj, rfl⟩ := exists_iterate_one hy
  rcases Nat.le_total i j with h | h
  · exact ⟨j - i, by omega, by rw [← Function.iterate_add_apply, Nat.sub_add_cancel h]⟩
  · rcases Nat.eq_or_lt_of_le h with rfl | hlt
    · exact ⟨0, by decide, rfl⟩
    · have round : j + cycleLength - i + i = j + cycleLength := by omega
      refine ⟨j + cycleLength - i, by omega, ?_⟩
      rw [← Function.iterate_add_apply, round, iterate_add_cycleLength (by decide)]

/-- It does so in pairs of mixes too: the cycle has an odd length, so what is an odd number of mixes
away is an even number away once round more. -/
theorem exists_pairs {x y : UInt32} (hx : x ≠ 0) (hy : y ≠ 0) :
    ∃ n < cycleLength, mix^[2 * n] x = y := by
  obtain ⟨n, hn, rfl⟩ := exists_iterate hx hy
  have odd : cycleLength % 2 = 1 := by decide
  rcases Nat.mod_two_eq_zero_or_one n with h | h
  · exact ⟨n / 2, by omega, by rw [show 2 * (n / 2) = n by omega]⟩
  · refine ⟨(n + cycleLength) / 2, by omega, ?_⟩
    rw [show 2 * ((n + cycleLength) / 2) = n + cycleLength by omega, iterate_add_cycleLength hx]

end EffectMachine.Rng
