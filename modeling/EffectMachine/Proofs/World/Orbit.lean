import EffectMachine.World.Random
import Mathlib.Data.Fintype.EquivFin
import Mathlib.Logic.Function.Iterate

namespace EffectMachine

namespace Rng

/-- The places of a word moved up, and what falls out lost. -/
def up (k : Nat) (x : BitVec 32) : BitVec 32 := x <<< k

def down (k : Nat) (x : BitVec 32) : BitVec 32 := x >>> k

/-- A word changed by what a shift makes of it. -/
def stirred (shift : BitVec 32 → BitVec 32) (x : BitVec 32) : BitVec 32 := x ^^^ shift x

/-- A mix is three shifts, one after the other. -/
theorem toBitVec_mix (x : UInt32) :
    (mix x).toBitVec = stirred (up 5) (stirred (down 17) (stirred (up 13) x.toBitVec)) := rfl

theorem stirred_xor {shift : BitVec 32 → BitVec 32}
    (hs : ∀ x y, shift (x ^^^ y) = shift x ^^^ shift y) (x y : BitVec 32) :
    stirred shift (x ^^^ y) = stirred shift x ^^^ stirred shift y := by
  unfold stirred
  rw [hs]
  ac_rfl

/-- A shift that leaves nothing in the end leaves nothing as it is but zero. -/
theorem eq_zero_of_stirred {shift : BitVec 32 → BitVec 32} {x : BitVec 32} {n : Nat}
    (hn : shift^[n] x = 0#32) (h : stirred shift x = 0#32) : x = 0#32 := by
  have fixed : shift x = x := (BitVec.xor_eq_zero_iff.mp h).symm
  rw [← hn, Function.iterate_fixed fixed]

/-- Shifts by as many places add up. -/
theorem iterate_shift {shift : Nat → BitVec 32 → BitVec 32} (zero : ∀ x, shift 0 x = x)
    (add : ∀ x m n, shift (m + n) x = shift n (shift m x)) (k n : Nat) (x : BitVec 32) :
    (shift k)^[n] x = shift (k * n) x := by
  induction n with
  | zero => exact (zero x).symm
  | succ n ih => rw [Function.iterate_succ_apply', ih, Nat.mul_succ, add]

theorem mix_xor (x y : UInt32) : mix (x ^^^ y) = mix x ^^^ mix y := by
  have ups (k : Nat) (x y : BitVec 32) := BitVec.shiftLeft_xor_distrib x y k
  have downs (k : Nat) (x y : BitVec 32) := BitVec.ushiftRight_xor_distrib x y k
  apply UInt32.toBitVec_inj.mp
  rw [UInt32.toBitVec_xor, toBitVec_mix, toBitVec_mix, toBitVec_mix, UInt32.toBitVec_xor,
    stirred_xor (ups 13), stirred_xor (downs 17), stirred_xor (ups 5)]

theorem mix_zero : mix 0 = 0 := rfl

/-- A mix takes nothing but zero to zero. -/
theorem mix_eq_zero {x : UInt32} (h : mix x = 0) : x = 0 := by
  have ups := @iterate_shift up BitVec.shiftLeft_zero BitVec.shiftLeft_add
  have downs := @iterate_shift down BitVec.ushiftRight_zero BitVec.shiftRight_add
  have first (x : BitVec 32) : (up 13)^[3] x = 0#32 := by
    rw [ups]
    exact BitVec.shiftLeft_eq_zero (by decide)
  have second (x : BitVec 32) : (down 17)^[2] x = 0#32 := by
    rw [downs]
    exact BitVec.ushiftRight_eq_zero (by decide)
  have third (x : BitVec 32) : (up 5)^[7] x = 0#32 := by
    rw [ups]
    exact BitVec.shiftLeft_eq_zero (by decide)
  have hx := congrArg UInt32.toBitVec h
  rw [toBitVec_mix] at hx
  have hx' := eq_zero_of_stirred (second _) (eq_zero_of_stirred (third _) hx)
  exact UInt32.toBitVec_inj.mp (eq_zero_of_stirred (first _) hx')

theorem mix_injective : Function.Injective mix := by
  intro x y h
  have hz : mix (x ^^^ y) = 0 := by rw [mix_xor, h, UInt32.xor_self]
  exact UInt32.xor_eq_zero_iff.mp (mix_eq_zero hz)

theorem iterate_ne_zero {x : UInt32} (hx : x ≠ 0) (n : Nat) : mix^[n] x ≠ 0 := by
  induction n with
  | zero => exact hx
  | succ n ih =>
    rw [Function.iterate_succ_apply']
    exact fun hz => ih (mix_eq_zero hz)

def next (g : Rng) : Rng := ⟨mix g.state⟩

theorem next_injective : Function.Injective next := by
  intro g g' h
  cases g
  cases g'
  exact congrArg Rng.mk (mix_injective (congrArg state h))

theorem state_iterate (n : Nat) (g : Rng) : (next^[n] g).state = mix^[n] g.state := by
  have step : Function.Semiconj state next mix := fun _ => rfl
  exact step.iterate_right n g

instance : Finite Rng :=
  Finite.of_injective (fun g => g.state.toFin) fun g g' h => by
    cases g
    cases g'
    exact congrArg Rng.mk (UInt32.toFin_inj.mp h)

theorem next_bijective : Function.Bijective next :=
  Finite.injective_iff_bijective.mp next_injective

/-- Words lead from one generator to the other. -/
def Reaches (g g' : Rng) : Prop := ∃ n, next^[n] g = g'

theorem Reaches.refl (g : Rng) : g.Reaches g := ⟨0, rfl⟩

theorem Reaches.trans {g g' g'' : Rng} (h : g.Reaches g') (h' : g'.Reaches g'') :
    g.Reaches g'' := by
  obtain ⟨n, rfl⟩ := h
  obtain ⟨n', rfl⟩ := h'
  exact ⟨n' + n, Function.iterate_add_apply ..⟩

/-- Zero would stay zero for ever. -/
def IsAlive (g : Rng) : Prop := g.state ≠ 0

theorem ofSeed_isAlive (seed : UInt32) : (ofSeed seed).IsAlive := by
  unfold ofSeed IsAlive
  split
  · decide
  · assumption

theorem IsAlive.reaches {g g' : Rng} (h : g.IsAlive) (hg : g.Reaches g') : g'.IsAlive := by
  obtain ⟨n, rfl⟩ := hg
  rw [IsAlive, state_iterate]
  exact iterate_ne_zero h n

end Rng

namespace Draw

variable {α β : Type}

def Advances (d : Draw α) : Prop := ∀ g : Rng, g.Reaches (d g).2

theorem Advances.pure (a : α) : (Pure.pure a : Draw α).Advances := Rng.Reaches.refl

theorem Advances.bind {d : Draw α} {f : α → Draw β} (hd : d.Advances) (hf : ∀ a, (f a).Advances) :
    (d >>= f).Advances :=
  fun g => (hd g).trans (hf _ _)

theorem word_advances : word.Advances := fun _ => ⟨1, rfl⟩

theorem unit_advances : unit.Advances := word_advances.bind fun _ => .pure _

theorem range_advances (lo hi : Scalar) : (range lo hi).Advances :=
  unit_advances.bind fun _ => .pure _

theorem below_advances (bound : Int32) : (below bound).Advances := by
  unfold below
  split
  · exact .pure _
  · exact word_advances.bind fun _ => .pure _

theorem variance_advances (v : UInt16) : (variance v).Advances := by
  unfold variance
  split
  · exact .pure _
  · exact (below_advances _).bind fun _ => .pure _

theorem jitter_advances (extent : Vec3) : (jitter extent).Advances :=
  (range_advances _ _).bind fun _ => (range_advances _ _).bind fun _ =>
    (range_advances _ _).bind fun _ => .pure _

theorem jitterColor_advances (extent : Color) : (jitterColor extent).Advances :=
  (range_advances _ _).bind fun _ => (range_advances _ _).bind fun _ =>
    (range_advances _ _).bind fun _ => (range_advances _ _).bind fun _ => .pure _

/-- By induction on the pairs. -/
theorem directionWithin_advances (pairs : Nat) : (directionWithin pairs).Advances := by
  induction pairs with
  | zero => exact .pure _
  | succ pairs ih =>
    refine (range_advances _ _).bind fun x => (range_advances _ _).bind fun y => ?_
    split
    · exact .pure _
    · exact ih

theorem direction_advances : direction.Advances :=
  (directionWithin_advances _).bind fun _ => .pure _

theorem inSphere_advances (radius : Scalar) : (inSphere radius).Advances :=
  direction_advances.bind fun _ => unit_advances.bind fun _ => .pure _

end Draw
end EffectMachine
