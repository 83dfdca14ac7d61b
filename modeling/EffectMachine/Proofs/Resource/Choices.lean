import EffectMachine.Resource.Directory
import Mathlib.Data.Finite.Prod

namespace EffectMachine

instance : Finite ResourceId := by
  refine Finite.of_injective (fun id => (id.b0.toFin, id.b1.toFin, id.b2.toFin, id.b3.toFin)) ?_
  rintro ⟨a0, a1, a2, a3⟩ ⟨b0, b1, b2, b3⟩ h
  simpa only [Prod.mk.injEq, UInt8.toFin_inj, ResourceId.mk.injEq] using h

namespace Directory

variable (d : Directory) (origin : ResourcePath)

def choice? (id : ResourceId) : Option Routine := d.routine? id (.ancestors origin)

def Chooses (id id' : ResourceId) : Prop :=
  ∃ r, d.choice? origin id = some r ∧
    ∃ e ∈ r.effects, ∃ choices, e.action = .randomRoutine choices ∧ id' ∈ choices

/-- No routine leads back to itself through random choices. -/
def IsAcyclic : Prop := ∀ origin id, ¬Relation.TransGen (d.Chooses origin) id id

/-- The effects that may come in place of one. -/
inductive Splices (e : Effect) : List Effect → Prop where
  | intro (choices : List ResourceId) (id : ResourceId) (r : Routine)
      (action : e.action = .randomRoutine choices) (mem : id ∈ choices)
      (found : d.choice? origin id = some r) : Splices e r.effects

/-- A loop over these effects ends within so many turns, whatever is drawn. -/
def EndsWithin : Nat → List Effect → Prop
  | _, [] => True
  | 0, _ :: _ => False
  | n + 1, e :: es => EndsWithin n es ∧ ∀ new, d.Splices origin e new → EndsWithin n (new ++ es)

variable {d : Directory} {origin : ResourcePath} {m n : Nat} {e : Effect} {es fs : List Effect}

@[simp] theorem endsWithin_nil : d.EndsWithin origin n [] := by
  cases n <;> trivial

namespace EndsWithin

/-- With more turns a loop ends all the same. -/
theorem succ (h : d.EndsWithin origin n es) : d.EndsWithin origin (n + 1) es := by
  induction n generalizing es with
  | zero =>
    cases es with
    | nil => trivial
    | cons => exact h.elim
  | succ n ih =>
    cases es with
    | nil => trivial
    | cons e es => exact ⟨ih h.1, fun new hn => ih (h.2 new hn)⟩

theorem mono (h : d.EndsWithin origin m es) (hm : m ≤ n) : d.EndsWithin origin n es := by
  induction hm with
  | refl => exact h
  | step _ ih => exact ih.succ

theorem exists_succ (h : d.EndsWithin origin n (e :: es)) : ∃ m, n = m + 1 := by
  cases n with
  | zero => exact h.elim
  | succ m => exact ⟨m, rfl⟩

/-- A loop over two lists takes the turns of both. -/
theorem append (hm : d.EndsWithin origin m es) (hn : d.EndsWithin origin n fs) :
    d.EndsWithin origin (m + n) (es ++ fs) := by
  induction m generalizing es with
  | zero =>
    cases es with
    | nil => exact hn.mono (Nat.le_add_left ..)
    | cons => exact hm.elim
  | succ m ih =>
    cases es with
    | nil => exact hn.mono (Nat.le_add_left ..)
    | cons e es =>
      rw [Nat.add_right_comm]
      refine ⟨ih hm.1, fun new hs => ?_⟩
      have hl := ih (hm.2 new hs)
      rw [List.append_assoc] at hl
      exact hl

end EndsWithin

/-- What holds of each with some bound holds of all with one. -/
theorem exists_bound {α : Type} {P : Nat → α → Prop}
    (mono : ∀ {m n a}, P m a → m ≤ n → P n a) (as : List α) (h : ∀ a ∈ as, ∃ n, P n a) :
    ∃ n, ∀ a ∈ as, P n a := by
  induction as with
  | nil => exact ⟨0, by simp⟩
  | cons a as ih =>
    obtain ⟨m, hm⟩ := h a List.mem_cons_self
    obtain ⟨n, hn⟩ := ih fun b hb => h b (List.mem_cons_of_mem _ hb)
    refine ⟨m + n, List.forall_mem_cons.mpr ⟨mono hm (Nat.le_add_right ..), fun b hb => ?_⟩⟩
    exact mono (hn b hb) (Nat.le_add_left ..)

/-- Everything that may be chosen in place of the effect ends within so many turns. -/
def ChoosesWithin (d : Directory) (origin : ResourcePath) (n : Nat) (e : Effect) : Prop :=
  ∀ new, d.Splices origin e new → d.EndsWithin origin n new

theorem exists_endsWithin_of_each (h : ∀ e ∈ es, ∃ n, d.ChoosesWithin origin n e) :
    ∃ n, d.EndsWithin origin n es := by
  induction es with
  | nil => exact ⟨0, trivial⟩
  | cons e es ih =>
    obtain ⟨m, hm⟩ := h e List.mem_cons_self
    obtain ⟨n, hn⟩ := ih fun f hf => h f (List.mem_cons_of_mem _ hf)
    exact ⟨m + n + 1, hn.mono (Nat.le_add_left ..), fun new hs => (hm new hs).append hn⟩

/-- Where every routine that can be chosen has a bound, the choice has one. -/
theorem exists_choosesWithin
    (h : ∀ choices, e.action = .randomRoutine choices → ∀ id ∈ choices,
      ∃ n, ∀ r, d.choice? origin id = some r → d.EndsWithin origin n r.effects) :
    ∃ n, d.ChoosesWithin origin n e := by
  by_cases ha : ∃ choices, e.action = .randomRoutine choices
  case neg =>
    refine ⟨0, fun new hs => ?_⟩
    cases hs with
    | intro choices _ _ action => exact (ha ⟨choices, action⟩).elim
  obtain ⟨choices, ha⟩ := ha
  obtain ⟨n, hn⟩ := exists_bound (fun hm hl r hr => (hm r hr).mono hl) choices (h choices ha)
  refine ⟨n, fun new hs => ?_⟩
  cases hs with
  | intro choices' id r action mem found =>
    rw [ha] at action
    cases action
    exact hn id mem r found

/-- What comes later in a chain of choices comes before in an induction. -/
theorem IsAcyclic.wellFounded (h : d.IsAcyclic) (origin : ResourcePath) :
    WellFounded fun id' id => Relation.TransGen (d.Chooses origin) id id' :=
  have : IsTrans ResourceId fun id' id => Relation.TransGen (d.Chooses origin) id id' :=
    ⟨fun _ _ _ hb hc => hc.trans hb⟩
  have : Std.Irrefl fun id' id => Relation.TransGen (d.Chooses origin) id id' := ⟨h origin⟩
  Finite.wellFounded_of_trans_of_irrefl _

/-- By induction on the chains of choices, of which each has an end. -/
theorem IsAcyclic.exists_of_choice (h : d.IsAcyclic) (origin : ResourcePath) (id : ResourceId) :
    ∃ n, ∀ r, d.choice? origin id = some r → d.EndsWithin origin n r.effects := by
  induction id using (h.wellFounded origin).induction with
  | h id ih =>
    cases hr : d.choice? origin id with
    | none => exact ⟨0, fun _ hn => by cases hn⟩
    | some r =>
      obtain ⟨n, hn⟩ : ∃ n, d.EndsWithin origin n r.effects := by
        refine exists_endsWithin_of_each fun e he => ?_
        refine exists_choosesWithin fun choices ha id' hid => ?_
        exact ih id' (.single ⟨r, hr, e, he, choices, ha, hid⟩)
      exact ⟨n, fun _ hs => Option.some.inj hs ▸ hn⟩

theorem IsAcyclic.exists_endsWithin (h : d.IsAcyclic) (origin : ResourcePath)
    (es : List Effect) : ∃ n, d.EndsWithin origin n es :=
  exists_endsWithin_of_each fun _ _ =>
    exists_choosesWithin fun _ _ id _ => h.exists_of_choice origin id

/-- What is found was put there under its name. -/
theorem exists_entry_of_resolve {id : ResourceId} {kind : ResourceKind} {scope : SearchScope}
    {x : Resource} (h : d.resolve id kind scope = some x) :
    ∃ path, (⟨path, kind, id⟩, x) ∈ d.entries := by
  unfold resolve at h
  split at h
  · cases h
  · obtain ⟨path, _, hp⟩ := List.exists_of_findSome?_eq_some h
    obtain ⟨before, after, he, _⟩ := List.lookup_eq_some_iff.mp hp
    exact ⟨path, by simp [he]⟩

theorem exists_entry_of_routine? {id : ResourceId} {scope : SearchScope} {r : Routine}
    (h : d.routine? id scope = some r) :
    ∃ path, (⟨path, .routine, id⟩, .routine r) ∈ d.entries := by
  unfold routine? at h
  split at h
  next hr =>
    cases h
    exact exists_entry_of_resolve hr
  next => cases h

theorem exists_entry_of_generator? {id : ResourceId} {scope : SearchScope} {g : Generator}
    (h : d.generator? id scope = some g) :
    ∃ path, (⟨path, .generator, id⟩, .generator g) ∈ d.entries := by
  unfold generator? at h
  split at h
  next hg =>
    cases h
    exact exists_entry_of_resolve hg
  next => cases h

end Directory

structure Routine.EndsWithin (d : Directory) (n : Nat) (r : Routine) : Prop where
  effects : d.EndsWithin r.origin n r.effects
  onComplete : d.EndsWithin r.origin n r.onComplete
  onStop : d.EndsWithin r.origin n r.onStop

namespace Routine

variable {d : Directory} {m n : Nat} {r : Routine}

theorem EndsWithin.mono (h : r.EndsWithin d m) (hm : m ≤ n) : r.EndsWithin d n :=
  ⟨h.effects.mono hm, h.onComplete.mono hm, h.onStop.mono hm⟩

theorem exists_endsWithin (h : d.IsAcyclic) (r : Routine) : ∃ n, r.EndsWithin d n := by
  obtain ⟨a, ha⟩ := h.exists_endsWithin r.origin r.effects
  obtain ⟨b, hb⟩ := h.exists_endsWithin r.origin r.onComplete
  obtain ⟨c, hc⟩ := h.exists_endsWithin r.origin r.onStop
  exact ⟨a + b + c, ha.mono (by omega), hb.mono (by omega), hc.mono (by omega)⟩

end Routine

namespace Directory

variable {d : Directory} {m n : Nat}

/-- Loops over the lists of any routine that can be found end within so many turns. -/
def BoundsLoops (d : Directory) (n : Nat) : Prop :=
  ∀ id scope r, d.routine? id scope = some r → r.EndsWithin d n

theorem BoundsLoops.mono (h : d.BoundsLoops m) (hm : m ≤ n) : d.BoundsLoops n :=
  fun id scope r hr => (h id scope r hr).mono hm

theorem IsAcyclic.exists_boundsLoops (h : d.IsAcyclic) : ∃ n, d.BoundsLoops n := by
  have each : ∀ x ∈ d.entries, ∃ n, ∀ r, x.2 = .routine r → r.EndsWithin d n := by
    intro x _
    by_cases hx : ∃ r, x.2 = .routine r
    · obtain ⟨r, hx⟩ := hx
      obtain ⟨n, hn⟩ := r.exists_endsWithin h
      refine ⟨n, fun r' hr => ?_⟩
      rw [hx] at hr
      cases hr
      exact hn
    · exact ⟨0, fun r hr => (hx ⟨r, hr⟩).elim⟩
  obtain ⟨n, hn⟩ := exists_bound (fun hm hl r hr => (hm r hr).mono hl) d.entries each
  refine ⟨n, fun id scope r hr => ?_⟩
  obtain ⟨path, hm⟩ := exists_entry_of_routine? hr
  exact hn _ hm r rfl

end Directory
end EffectMachine
