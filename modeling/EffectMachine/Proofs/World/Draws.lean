import EffectMachine.Proofs.Number.Wholes
import EffectMachine.Proofs.Tick
import EffectMachine.Proofs.World.Orbit
import EffectMachine.Sequence.Perform

namespace EffectMachine

inductive DrawCall where
  | word
  | unit
  | range (lo hi : Scalar)
  | below (bound : Int32)
  | variance (variance : UInt16)
  | jitter (extent : Vec3)
  | jitterColor (extent : Color)
  | direction
  | inSphere (radius : Scalar)

namespace DrawCall

def after : DrawCall → Rng → Rng
  | word, g => (Draw.word g).2
  | unit, g => (Draw.unit g).2
  | range lo hi, g => (Draw.range lo hi g).2
  | below bound, g => (Draw.below bound g).2
  | variance v, g => (Draw.variance v g).2
  | jitter extent, g => (Draw.jitter extent g).2
  | jitterColor extent, g => (Draw.jitterColor extent g).2
  | direction, g => (Draw.direction g).2
  | inSphere radius, g => (Draw.inSphere radius g).2

theorem reaches_after (c : DrawCall) (g : Rng) : g.Reaches (c.after g) := by
  cases c with
  | word => exact Draw.word_advances g
  | unit => exact Draw.unit_advances g
  | range lo hi => exact Draw.range_advances lo hi g
  | below bound => exact Draw.below_advances bound g
  | variance v => exact Draw.variance_advances v g
  | jitter extent => exact Draw.jitter_advances extent g
  | jitterColor extent => exact Draw.jitterColor_advances extent g
  | direction => exact Draw.direction_advances g
  | inSphere radius => exact Draw.inSphere_advances radius g

end DrawCall

def Rng.after (g : Rng) (calls : List DrawCall) : Rng := calls.foldl (fun g c => c.after g) g

/-- By induction on the draws. -/
theorem Rng.reaches_after (g : Rng) (calls : List DrawCall) : g.Reaches (g.after calls) := by
  induction calls generalizing g with
  | nil => exact .refl g
  | cons c calls ih => exact (c.reaches_after g).trans (ih _)

namespace Draw

/-- A word without its highest place is the same number with a sign. -/
theorem toInt_toInt32 {w : UInt32} (h : w.toNat < 2 ^ 31) : w.toInt32.toInt = w.toNat :=
  BitVec.toInt_eq_toNat_of_lt (show 2 * w.toNat < 2 ^ 32 by omega)

theorem toNat_toUInt32 {n : Int32} (h : 0 < n) :
    0 < n.toUInt32.toNat ∧ n.toUInt32.toNat < 2 ^ 31 ∧ n.toInt = n.toUInt32.toNat := by
  have hpos : 0 < n.toInt := Int32.lt_iff_toInt_lt.mp h
  have hlow : 2 * n.toUInt32.toNat < 2 ^ 32 := BitVec.toInt_pos_iff.mp (Int.le_of_lt hpos)
  have hn : n.toInt = n.toUInt32.toNat := toInt_toInt32 (w := n.toUInt32) (by omega)
  exact ⟨by omega, by omega, hn⟩

theorem below_of_nonpos {bound : Int32} (h : ¬0 < bound) (g : Rng) : below bound g = (0, g) := by
  rw [below, if_pos (Int32.not_lt.mp h)]
  rfl

/-- Of one word, what is left below the bound. -/
theorem below_of_pos {bound : Int32} (h : 0 < bound) (g : Rng) :
    ∃ k < bound.toUInt32.toNat, (below bound g).1.toInt = k ∧ (below bound g).2 = g.next := by
  obtain ⟨hpos, hlt, -⟩ := toNat_toUInt32 h
  have drawn : below bound g = ((g.next.state % bound.toUInt32).toInt32, g.next) := by
    rw [below, if_neg (Int32.not_le.mpr h)]
    rfl
  have left : (g.next.state % bound.toUInt32).toNat < bound.toUInt32.toNat := by
    rw [UInt32.toNat_mod]
    exact Nat.mod_lt _ hpos
  rw [drawn]
  exact ⟨_, left, toInt_toInt32 (Nat.lt_trans left hlt), rfl⟩

theorem below_range {bound : Int32} (h : 0 < bound) (g : Rng) :
    0 ≤ (below bound g).1 ∧ (below bound g).1 < bound := by
  obtain ⟨k, hk, hx, -⟩ := below_of_pos h g
  obtain ⟨-, -, hb⟩ := toNat_toUInt32 h
  refine ⟨Int32.le_iff_toInt_le.mpr ?_, Int32.lt_iff_toInt_lt.mpr ?_⟩
  · rw [hx]
    exact Int.natCast_nonneg k
  · rw [hx, hb]
    exact Int.ofNat_lt.mpr hk

/-- The number of what there is to choose from may be too large to be told; then the bound is what
is left of it, or the choice is the first without a draw. -/
theorem below_length {n : Nat} (h : 0 < n) (g : Rng) :
    ∃ k < n, (below (Int32.ofNat n) g).1.toInt = k := by
  by_cases hb : 0 < Int32.ofNat n
  · obtain ⟨k, hk, hx, -⟩ := below_of_pos hb g
    have hn : (Int32.ofNat n).toUInt32.toNat = n % 2 ^ 32 := UInt32.toNat_ofNat'
    exact ⟨k, Nat.lt_of_lt_of_le hk (hn ▸ Nat.mod_le n _), hx⟩
  · exact ⟨0, h, by rw [below_of_nonpos hb]; rfl⟩

/-- A variance has no more than 16 binary places, so a scalar holds every number up to it. -/
theorem variance_whole (v : UInt16) (g : Rng) : ∃ k ≤ v.toNat, (variance v g).1.IsWhole k := by
  by_cases hv : v = 0
  · rw [variance, if_pos hv]
    exact ⟨0, Nat.zero_le _, Scalar.isWhole_zero⟩
  · obtain ⟨k, hk, hx⟩ := below_length (Nat.succ_pos v.toNat) g
    have hlt := v.toNat_lt
    have drawn : (variance v g).1 = Scalar.ofNat k := by
      rw [variance, if_neg hv]
      change Scalar.ofInt (below (Int32.ofNat (v.toNat + 1)) g).1.toInt = _
      rw [hx]
      rfl
    rw [drawn]
    exact ⟨k, by omega, Scalar.isWhole_ofNat (by omega)⟩

end Draw

namespace SequenceBody

variable {s : SequenceBody}

/-- Runs the effects of a routine that was chosen in place. -/
def takeUp (s : SequenceBody) (pick : ResourceId) : Tick Flow := do
  match (← read).directory.routine? pick (.ancestors s.routine.origin) with
  | some chosen => return .splice chosen.effects
  | none =>
    Tick.note (.choiceMissing s.routine.id pick)
    return .proceed

/-- What is chosen is one of the choices. -/
theorem chooseRoutine_eq {choices : List ResourceId} (hc : choices ≠ []) (r : Surroundings)
    (h : Host) :
    let draw := Draw.below (Int32.ofNat choices.length) h.rng
    ∃ i : Fin choices.length, draw.1.toInt = i ∧
      s.chooseRoutine choices r h = s.takeUp (choices.get i) r { h with rng := draw.2 } := by
  intro draw
  obtain ⟨k, hk, hx⟩ := Draw.below_length (List.length_pos_iff.mpr hc) h.rng
  refine ⟨⟨k, hk⟩, hx, ?_⟩
  have hpick : choices[draw.1.toInt.toNat]?.getD ResourceId.none = choices[k] := by
    rw [show draw.1.toInt = k from hx, Int.toNat_natCast, List.getElem?_eq_getElem hk]
    rfl
  have drawn : s.chooseRoutine choices r h =
      s.takeUp (choices[draw.1.toInt.toNat]?.getD ResourceId.none) r { h with rng := draw.2 } := by
    rw [chooseRoutine, if_neg (by simpa using hc)]
    rfl
  rw [drawn, hpick]
  rfl

end SequenceBody
end EffectMachine
