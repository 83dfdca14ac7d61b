import EffectMachine.Proofs.Hosts

namespace EffectMachine

/-- The next name to give never comes before that of the host it began with. -/
def HostOrder.forward : HostOrder where
  rel h h' := h.nextSequence ≤ h'.nextSequence
  refl _ := Nat.le.refl
  trans := Nat.le_trans

theorem HostOrder.forward_admits (actors : List ActorId) : forward.Admits actors where
  draw _ _ _ := Nat.le_refl _
  note _ _ _ := Nat.le_refl _
  named _ := Nat.le_succ _
  command _ _ _ _ _ := Nat.le_refl _

namespace Tick

variable {α β : Type}

def Forward (x : Tick α) : Prop := ∀ r h, h.nextSequence ≤ (x r h).2.nextSequence

namespace Forward

theorem of_leads {x : Tick α} (hx : ∀ r, x.Leads r .forward) : x.Forward := hx

theorem pure (a : α) : (Pure.pure a : Tick α).Forward := of_leads fun _ => .pure a

theorem bind {x : Tick α} {f : α → Tick β} (hx : x.Forward) (hf : ∀ a, (f a).Forward) :
    (x >>= f).Forward :=
  of_leads fun r => .bind (hx r) fun a => hf a r

theorem ite {p : Prop} [Decidable p] {x y : Tick α} (hx : x.Forward) (hy : y.Forward) :
    (if p then x else y).Forward :=
  of_leads fun r => .ite (hx r) (hy r)

end Forward

end Tick

def HostOrder.unnamed : HostOrder where
  rel h h' := h'.nextSequence = h.nextSequence
  refl _ := rfl
  trans h h' := h'.trans h

theorem HostOrder.unnamed_calm : unnamed.Calm where
  draw _ _ _ := rfl
  note _ _ _ := rfl

section Few

variable (s : SequenceBody) (r : Surroundings) (h : Host)

theorem SideEffect.perform_nextSequence (action : Action) (x : SideEffect) :
    (x.perform action r h).2.nextSequence = h.nextSequence := by
  cases x <;> rfl

theorem SequenceBody.spawnRoutine_nextSequence_le (id : ResourceId) (blocking : Bool)
    (scope : SearchScope) :
    (s.spawnRoutine id blocking scope r h).2.nextSequence ≤ h.nextSequence + 1 := by
  rw [spawnRoutine, Tick.run_read_bind]
  by_cases deep : r.config.maxNestingDepth ≤ s.depth
  · rw [if_pos deep]
    exact Nat.le_succ _
  · rw [if_neg deep]
    cases r.directory.routine? id scope with
    | none => exact Nat.le_succ _
    | some routine => exact Nat.le_refl _

/-- An effect gives one name at most. -/
theorem SequenceBody.perform_nextSequence_le (e : Effect) :
    (s.perform e r h).2.nextSequence ≤ h.nextSequence + 1 := by
  rw [perform, Tick.run_read_bind]
  cases SideEffect.of? r.scene s.binding e with
  | some x => exact Nat.le_succ_of_le (Nat.le_of_eq (x.perform_nextSequence r h e.action))
  | none =>
    by_cases spawns : ∃ id blocking scope, s.steer e = s.spawnRoutine id blocking scope
    case pos =>
      obtain ⟨id, blocking, scope, hs⟩ := spawns
      exact hs ▸ s.spawnRoutine_nextSequence_le r h id blocking scope
    case neg =>
      have unnamed : (s.steer e).Leads r .unnamed :=
        s.leads_steer_of_spawnRoutine HostOrder.unnamed_calm e fun id blocking scope hs =>
          absurd ⟨id, blocking, scope, hs⟩ spawns
      exact Nat.le_succ_of_le (Nat.le_of_eq (unnamed h))

end Few

end EffectMachine
