import EffectMachine.Proofs.Names
import EffectMachine.Proofs.Particle.Levels
import EffectMachine.Proofs.Sequence.Conduct
import EffectMachine.Proofs.Sequence.Execute

namespace EffectMachine

/-- Whatever sequences hold and fail with. -/
def Conduct.any : Conduct := ⟨fun _ _ _ => True, fun _ => True⟩

theorem Conduct.any_follows (n : Nat) (s : SequenceBody) (e : Effect) (es : List Effect)
    (flow : Flow) : any.Follows n s e es flow := by
  cases flow with
  | spawned c => exact ⟨trivial, fun _ _ _ => ⟨trivial, fun _ _ => trivial⟩⟩
  | fault f => exact ⟨trivial, trivial⟩
  | _ => trivial

theorem Conduct.any_keptIn {r : Surroundings} {O : HostOrder} (hO : ∀ actors, O.Admits actors)
    (noted : ∀ n h, O.rel h { h with log := n :: h.log }) : any.KeptIn r O where
  noted _ := noted _
  frame _ _ _ _ _ _ := trivial
  dropped _ := trivial
  passed _ _ _ := trivial
  performed {n s e es} _ _ :=
    (s.leads_perform (hO _) e).keeps fun _ => any_follows n _ e es _
  stopped _ := trivial
  failed _ _ := trivial
  requeued _ _ := trivial
  moved _ elapsed := (leads_advanceEmitters (hO _) none elapsed _).keeps fun _ =>
    ⟨fun _ _ => trivial, trivial, trivial⟩

theorem Conduct.any_forward (r : Surroundings) : any.KeptIn r .forward :=
  any_keptIn HostOrder.forward_admits fun _ _ => Nat.le_refl _

namespace Sequence

theorem any_sound (s : Sequence) : s.Graded Conduct.any.Sound 0 :=
  fun _ _ _ => ⟨trivial, fun _ _ => trivial⟩

theorem forward_stop (s : Sequence) : s.stop.Forward :=
  .of_leads fun r => (stop_held (Conduct.any_forward r) s.any_sound).leads

theorem forward_advance (elapsed : Scalar) (s : Sequence) : (s.advance elapsed).Forward :=
  .of_leads fun r => (advance_held (Conduct.any_forward r) elapsed s s.any_sound).leads

/-- An instruction gives one name at most. What stops other sequences runs instructions of theirs. -/
theorem execute_nextSequence_le (run : StopHandlers Tick) (s : Sequence) {e : Effect}
    (he : ∀ id, e.action ≠ .stopRoutine id) (r : Surroundings) (h : Host) :
    (s.execute run e r h).2.nextSequence ≤ h.nextSequence + 1 := by
  rw [s.execute_host run he]
  exact s.body.perform_nextSequence_le r h e

end Sequence
end EffectMachine
