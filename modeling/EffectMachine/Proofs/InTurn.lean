import EffectMachine.Proofs.Sequence.Later
import EffectMachine.Proofs.Tick

namespace EffectMachine

variable {α : Type}

section Standing

/-- Where an element of a list stands once all are gone that are not kept. -/
def standing (keep : α → Bool) (xs : List α) (i : Nat) : Option Nat :=
  if (xs[i]?).any keep then some ((xs.take i).countP keep) else none

variable {keep : α → Bool} {xs : List α} {i j : Nat} {x : α}

theorem standing_of_kept (hx : xs[i]? = some x) (hk : keep x = true) :
    standing keep xs i = some ((xs.take i).countP keep) := by
  rw [standing, hx, Option.any_some, hk, if_pos rfl]

theorem standing_of_gone (hx : xs[i]? = some x) (hk : keep x = false) :
    standing keep xs i = none := by
  rw [standing, hx, Option.any_some, hk, if_neg Bool.false_ne_true]

/-- What is kept stands behind as many as were kept before it. -/
theorem getElem?_filter_countP (hx : xs[i]? = some x) (hk : keep x = true) :
    (xs.filter keep)[(xs.take i).countP keep]? = some x := by
  induction xs generalizing i with
  | nil => cases hx
  | cons y ys ih =>
    cases i with
    | zero =>
      obtain rfl : y = x := Option.some.inj hx
      rw [List.filter_cons_of_pos hk]
      rfl
    | succ i =>
      rw [List.take_succ_cons, List.countP_cons, List.filter_cons]
      split
      · exact ih hx
      · exact ih hx

/-- Whatever stands in the list afterwards stood in it before. -/
theorem exists_standing (hx : (xs.filter keep)[j]? = some x) :
    ∃ i, xs[i]? = some x ∧ standing keep xs i = some j := by
  suffices h : ∃ i, xs[i]? = some x ∧ keep x = true ∧ (xs.take i).countP keep = j by
    obtain ⟨i, hi, hk, hj⟩ := h
    exact ⟨i, hi, hj ▸ standing_of_kept hi hk⟩
  induction xs generalizing j with
  | nil => cases hx
  | cons y ys ih =>
    cases hy : keep y with
    | false =>
      rw [List.filter_cons_of_neg (by simp [hy])] at hx
      obtain ⟨i, hi, hk, hj⟩ := ih hx
      refine ⟨i + 1, hi, hk, ?_⟩
      rw [List.take_succ_cons, List.countP_cons_of_neg (by simp [hy]), hj]
    | true =>
      rw [List.filter_cons_of_pos hy] at hx
      cases j with
      | zero =>
        obtain rfl : y = x := Option.some.inj hx
        exact ⟨0, rfl, hy, rfl⟩
      | succ j =>
        obtain ⟨i, hi, hk, hj⟩ := ih hx
        refine ⟨i + 1, hi, hk, ?_⟩
        rw [List.take_succ_cons, List.countP_cons_of_pos hy, hj]

/-- No two that are kept come to stand at one place. -/
theorem standing_inj {i' : Nat} (hi : standing keep xs i = some j)
    (hi' : standing keep xs i' = some j) : i = i' := by
  induction xs generalizing i i' j with
  | nil => simp [standing] at hi
  | cons y ys ih =>
    have first (n : Nat) : standing keep (y :: ys) (n + 1) =
        (standing keep ys n).map (· + if keep y then 1 else 0) := by
      simp only [standing, List.getElem?_cons_succ, List.take_succ_cons, List.countP_cons]
      split <;> rfl
    have behind {n : Nat} (h₀ : standing keep (y :: ys) 0 = some j)
        (hn : standing keep (y :: ys) (n + 1) = some j) : False := by
      simp only [standing, List.getElem?_cons_zero, Option.any_some, List.take_zero,
        List.countP_nil] at h₀
      split at h₀
      next hy =>
        cases h₀
        rw [first, if_pos hy] at hn
        obtain ⟨k, -, hk⟩ := Option.map_eq_some_iff.mp hn
        cases hk
      next => cases h₀
    cases i with
    | zero =>
      cases i' with
      | zero => rfl
      | succ n => exact (behind hi hi').elim
    | succ m =>
      cases i' with
      | zero => exact (behind hi' hi).elim
      | succ n =>
        rw [first] at hi hi'
        obtain ⟨k, hk, rfl⟩ := Option.map_eq_some_iff.mp hi
        obtain ⟨k', hk', he⟩ := Option.map_eq_some_iff.mp hi'
        rw [Nat.add_right_cancel he] at hk'
        rw [ih hk hk']

/-- No two elements come to stand in one place, whether or not the tick was cut short. -/
theorem ite_standing_inj {cut : Prop} [Decidable cut] {i' : Nat}
    (hi : (if cut then some i else standing keep xs i) = some j)
    (hi' : (if cut then some i' else standing keep xs i') = some j) : i = i' := by
  split at hi
  next hc =>
    rw [if_pos hc] at hi'
    exact Option.some.inj (hi.trans hi'.symm)
  next hc =>
    rw [if_neg hc] at hi'
    exact standing_inj hi hi'

/-- What has become of an element: it stands somewhere in a list, or it is gone. -/
def Fares (stays : α → α → Prop) (gone : α → Bool) (ys : List α) (x : α) : Option Nat → Prop
  | some j => ∃ y, ys[j]? = some y ∧ stays x y
  | none => gone x = true

variable {stays : α → α → Prop} {gone : α → Bool} {ys : List α}

theorem Fares.unmoved (hx : xs[i]? = some x) (h : Extends stays xs ys) :
    Fares stays gone ys x (some i) :=
  h i x hx

/-- Those that are gone were let go, and what is left goes on in the list. -/
theorem Fares.left (hx : xs[i]? = some x)
    (h : Extends stays (xs.filter fun x => !gone x) ys) :
    Fares stays gone ys x (standing (fun x => !gone x) xs i) := by
  cases hg : gone x with
  | true =>
    rw [standing_of_gone hx (by simp [hg])]
    exact hg
  | false =>
    have hk : (!gone x) = true := by rw [hg]; rfl
    rw [standing_of_kept hx hk]
    exact h _ x (getElem?_filter_countP hx hk)

theorem Fares.map {β : Type} {f : α → β} {stays' : β → β → Prop} {gone' : β → Bool}
    {place : Option Nat} (h : Fares stays gone ys x place)
    (hs : ∀ x y, stays x y → stays' (f x) (f y)) (hg : ∀ x, gone x = gone' (f x)) :
    Fares stays' gone' (ys.map f) (f x) place := by
  cases place with
  | none => exact (hg x).symm.trans h
  | some j =>
    obtain ⟨y, hy, hr⟩ := h
    exact ⟨f y, by rw [List.getElem?_map, hy]; rfl, hs x y hr⟩

end Standing

def inTurn (f : α → Tick (α × Option Halt)) : List α → Tick (List α × Option Halt)
  | [] => return ([], none)
  | x :: xs => do
    let (x, halt) ← f x
    if halt.isSome then return (x :: xs, halt)
    let (xs, halt) ← inTurn f xs
    return (x :: xs, halt)

/-- The host as an element finds it, unless the tick is stopped before its turn. -/
def turnHost? (f : α → Tick (α × Option Halt)) (xs : List α) (i : Nat) (r : Surroundings)
    (h : Host) : Option Host :=
  let before := inTurn f (xs.take i) r h
  if before.1.2.isNone then some before.2 else none

section InTurn

variable {f : α → Tick (α × Option Halt)} {xs : List α} {i : Nat} {x : α} {r : Surroundings}
  {h : Host}

/-- The first element moves, and the others after it unless it stops the tick. -/
theorem inTurn_cons (x : α) (xs : List α) (r : Surroundings) (h : Host) :
    inTurn f (x :: xs) r h =
      if (f x r h).1.2.isSome then (((f x r h).1.1 :: xs, (f x r h).1.2), (f x r h).2)
      else
        let rest := inTurn f xs r (f x r h).2
        (((f x r h).1.1 :: rest.1.1, rest.1.2), rest.2) := by
  rw [inTurn, Tick.run_bind]
  dsimp only
  split <;> rfl

theorem turnHost?_succ (x : α) (xs : List α) (i : Nat) (r : Surroundings) (h : Host) :
    turnHost? f (x :: xs) (i + 1) r h =
      if (f x r h).1.2.isSome then none else turnHost? f xs i r (f x r h).2 := by
  rw [turnHost?, List.take_succ_cons, inTurn_cons]
  cases hx : (f x r h).1.2 with
  | some why => simp
  | none => simp [turnHost?]

/-- What stands at an index has had its turn, unless the tick was stopped before. -/
theorem getElem?_inTurn (hx : xs[i]? = some x) :
    (inTurn f xs r h).1.1[i]? =
      some (match turnHost? f xs i r h with
        | some h => (f x r h).1.1
        | none => x) := by
  induction xs generalizing i h with
  | nil => cases hx
  | cons y ys ih =>
    rw [inTurn_cons]
    cases i with
    | zero =>
      obtain rfl : y = x := Option.some.inj hx
      split <;> rfl
    | succ i =>
      rw [turnHost?_succ]
      split
      · exact hx
      · exact ih hx

/-- An element without a turn is behind one that has stopped the tick. -/
theorem isSome_of_turnHost? (hn : turnHost? f xs i r h = none) :
    (inTurn f xs r h).1.2.isSome = true := by
  induction xs generalizing i h with
  | nil => simp [turnHost?, inTurn] at hn
  | cons y ys ih =>
    rw [inTurn_cons]
    cases i with
    | zero => simp [turnHost?, inTurn] at hn
    | succ i =>
      rw [turnHost?_succ] at hn
      split at hn
      next hy => rw [if_pos hy]; exact hy
      next hy => rw [if_neg hy]; exact ih hn

/-- Elements move where they stand, and none is lost on the way. -/
theorem length_inTurn (xs : List α) : (inTurn f xs).Always fun x => x.1.length = xs.length := by
  intro r h
  induction xs generalizing h with
  | nil => rfl
  | cons x xs ih =>
    rw [inTurn_cons]
    split
    · rfl
    · exact congrArg Nat.succ (ih _)

/-- What each keeps in its turn holds of all of them afterwards. -/
theorem inTurn_all {P : α → Prop} (hf : ∀ x, P x → (f x).Always fun y => P y.1) (xs : List α)
    (hx : ∀ x ∈ xs, P x) : (inTurn f xs).Always fun x => ∀ y ∈ x.1, P y := by
  intro r h
  induction xs generalizing h with
  | nil => exact fun y hy => nomatch hy
  | cons x xs ih =>
    obtain ⟨hx, hxs⟩ := List.forall_mem_cons.mp hx
    rw [inTurn_cons]
    split
    · exact List.forall_mem_cons.mpr ⟨hf x hx r h, hxs⟩
    · exact List.forall_mem_cons.mpr ⟨hf x hx r h, ih hxs _⟩

end InTurn

/-- Particles that own one another move as any list does. -/
theorem advanceParticles_eq (scope : SpawnScope) (elapsed : Scalar) (anchor : Anchor) :
    advanceParticles scope elapsed anchor = inTurn (Particle.advance scope elapsed anchor) := by
  funext ps
  induction ps with
  | nil => rfl
  | cons p ps ih => rw [advanceParticles, inTurn, ih]

/-- Emitters too move as any list does. -/
theorem advanceEmitters_eq (parent : Option Anchor) (elapsed : Scalar) :
    advanceEmitters parent elapsed = inTurn (Emitter.advance parent elapsed) := by
  funext es
  induction es with
  | nil => rfl
  | cons e es ih => rw [advanceEmitters, inTurn, ih]

end EffectMachine
