import EffectMachine.Particle.Advance
import EffectMachine.Proofs.World.Cycle

namespace EffectMachine

namespace Draw

/-- One pair: the point of the sphere above it, if it lies in the disc. -/
def point? : Draw (Option Vec3) := do
  let x ← range (-1) 1
  let y ← range (-1) 1
  return onSphere? x y

/-- The pairs up to the first in the disc: so many are not, and the next one is. -/
structure Finds (g : Rng) (misses : Nat) (d : Vec3) : Prop where
  missed : ∀ m < misses, (point? (Rng.next^[2 * m] g)).1 = none
  found : (point? (Rng.next^[2 * misses] g)).1 = some d

variable {g : Rng} {misses : Nat} {d : Vec3}

/-- After a miss the same pair is found with one miss less. -/
theorem Finds.tail (h : Finds g (misses + 1) d) : Finds (Rng.next^[2] g) misses d where
  missed m hm := by
    rw [← Function.iterate_add_apply]
    exact h.missed (m + 1) (Nat.succ_lt_succ hm)
  found := by
    rw [← Function.iterate_add_apply]
    exact h.found

theorem directionWithin_succ (pairs : Nat) (g : Rng) : directionWithin (pairs + 1) g =
    match (point? g).1 with
    | some d => (some d, Rng.next^[2] g)
    | none => directionWithin pairs (Rng.next^[2] g) := by
  change (match (point? g).1 with
    | some d => (pure (some d) : Draw _)
    | none => directionWithin pairs) (Rng.next^[2] g) = _
  cases (point? g).1 <;> rfl

/-- The loop stops at the pair that is found, if it may go on for so long. -/
theorem Finds.directionWithin_eq (h : Finds g misses d) (pairs : Nat) : directionWithin pairs g =
    if misses < pairs then (some d, Rng.next^[2 * misses + 2] g)
    else (none, Rng.next^[2 * pairs] g) := by
  induction pairs generalizing g misses with
  | zero => rfl
  | succ pairs ih =>
    rw [directionWithin_succ]
    cases misses with
    | zero =>
      rw [show (point? g).1 = some d from h.found, if_pos (Nat.succ_pos pairs)]
    | succ misses =>
      rw [show (point? g).1 = none from h.missed 0 (Nat.succ_pos misses), ih h.tail,
        ← Function.iterate_add_apply, ← Function.iterate_add_apply]
      simp only [Nat.succ_lt_succ_iff]
      rfl

/-- A state before a pair that lies in the disc is met on the way round. -/
theorem exists_finds (hg : g.IsAlive) : ∃ misses < Rng.cycleLength, ∃ d, Finds g misses d := by
  have inside : (point? ⟨32⟩).1.isSome := by decide +kernel
  obtain ⟨n, hn, hx⟩ := Rng.exists_pairs hg (y := 32) (by decide)
  have here : Rng.next^[2 * n] g = ⟨32⟩ := congrArg Rng.mk (by rw [Rng.state_iterate, hx])
  rw [← here] at inside
  have hit : ∃ n, (point? (Rng.next^[2 * n] g)).1.isSome := ⟨n, inside⟩
  obtain ⟨d, hd⟩ := Option.isSome_iff_exists.mp (Nat.find_spec hit)
  refine ⟨Nat.find hit, Nat.lt_of_le_of_lt (Nat.find_min' hit inside) hn, d, fun m hm => ?_, hd⟩
  exact Option.not_isSome_iff_eq_none.mp (Nat.find_min hit hm)

/-- The pairs that a direction may use up are more than there are states. -/
theorem Finds.direction_eq (h : Finds g misses d) (hm : misses < Rng.cycleLength) :
    direction g = (d, Rng.next^[2 * misses + 2] g) := by
  have allowed : misses < 0x100000000 := Nat.lt_trans hm (by decide)
  have looped := h.directionWithin_eq 0x100000000
  rw [if_pos allowed] at looped
  change ((directionWithin 0x100000000 g).1.getD Vec3.zero, (directionWithin 0x100000000 g).2) = _
  rw [looped]
  rfl

/-- One more word tells how far out. -/
theorem inSphere_eq {g' : Rng} (h : direction g = (d, g')) (radius : Scalar) :
    inSphere radius g = (d * (unit g').1.cbrt * radius, g'.next) := by
  change ((direction g).1 * (unit (direction g).2).1.cbrt * radius, (direction g).2.next) = _
  rw [h]

end Draw

/-- A generator that is alive finds a direction: the first pair in the disc comes after finitely
many others, fewer than there are states. A loop that may go on for so long returns what that pair
gives, and leaves the generator right after it. A direction is drawn by such a loop, so there always
are a point inside a sphere and a jitter of the base, which need one. -/
theorem directions_are_found (g : Rng) (hg : g.IsAlive) :
    ∃ misses < Rng.cycleLength, ∃ d, Draw.Finds g misses d ∧
      let g' := Rng.next^[2 * misses + 2] g
      (∀ pairs, Draw.directionWithin pairs g =
        if misses < pairs then (some d, g') else (none, Rng.next^[2 * pairs] g)) ∧
      Draw.direction g = (d, g') ∧
      (∀ radius, Draw.inSphere radius g = (d * (Draw.unit g').1.cbrt * radius, g'.next)) ∧
      ∀ (e : EmitterBody) elapsed radius r (h : Host),
        e.applyUpdater elapsed (.baseJitter radius) r { h with rng := g } =
          ({ e with jitter := d * (Draw.unit g').1.cbrt * radius }, { h with rng := g'.next }) := by
  obtain ⟨misses, hm, d, found⟩ := Draw.exists_finds hg
  have direction := found.direction_eq hm
  have inside := Draw.inSphere_eq direction
  refine ⟨misses, hm, d, found, found.directionWithin_eq, direction, inside, ?_⟩
  intro e elapsed radius r h
  change ({ e with jitter := (Draw.inSphere radius g).1 },
    { h with rng := (Draw.inSphere radius g).2 }) = _
  rw [inside]

/-- From here three pairs are outside the disc. -/
theorem seed21_finds : ∃ d, Draw.Finds (Rng.ofSeed 21) 3 d ∧
    Draw.direction (Rng.ofSeed 21) = (d, Rng.next^[8] (Rng.ofSeed 21)) := by
  obtain ⟨misses, -, d, found, loop, direction, -⟩ :=
    directions_are_found (Rng.ofSeed 21) (Rng.ofSeed_isAlive 21)
  have outside : (Draw.directionWithin 3 (Rng.ofSeed 21)).1.isSome = false := by decide +kernel
  have inside : (Draw.directionWithin 4 (Rng.ofSeed 21)).1.isSome = true := by decide +kernel
  have late : ¬misses < 3 := by
    intro h
    rw [loop 3, if_pos h] at outside
    cases outside
  have early : misses < 4 := by
    by_contra h
    rw [loop 4, if_neg h] at inside
    cases inside
  obtain rfl : misses = 3 := by omega
  exact ⟨d, found, direction⟩

end EffectMachine
