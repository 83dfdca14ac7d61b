import EffectMachine.Proofs.Particle.Levels
import EffectMachine.Proofs.Sequence.Conduct

namespace EffectMachine

/-- What holds of a sequence before it runs some effects, and the faults that it may fail with. -/
structure Invariant where
  holds : SequenceBody → List Effect → Prop
  allows : Fault → Prop

namespace Invariant

variable (I : Invariant)

def conduct : Conduct := ⟨fun _ => I.holds, I.allows⟩

def Follows (s : SequenceBody) (e : Effect) (es : List Effect) : Flow → Prop
  | .splice new => I.holds s (new ++ es)
  | .hold => I.holds s (e :: es)
  | .fault f => I.holds s es ∧ I.allows f
  | _ => I.holds s es

structure KeptIn (r : Surroundings) : Prop where
  /-- Neither the queue nor what the sequence waits for counts. -/
  frame : ∀ {s es}, I.holds s es → ∀ queue budget blockers scheduledStart refilled,
    I.holds { s with queue, budget, blockers, scheduledStart, refilled } es
  dropped : ∀ {s es}, I.holds s es → I.holds s []
  passed : ∀ {s e es}, I.holds s (e :: es) → s.control.isSkipping = true →
    e.action.isBlockBoundary = false → I.holds s es
  performed : ∀ {s e es}, I.holds s (e :: es) →
    (s.control.isSkipping && !e.action.isBlockBoundary) = false →
    (s.perform e).At r fun x => I.Follows x.1 e es x.2
  stopped : ∀ {s es}, I.holds s es → I.holds s.halted s.routine.onStop
  failed : ∀ {s es f}, I.holds s es → I.allows f → I.holds (s.failedWith f) []
  requeued : ∀ {s : SequenceBody}, I.holds s [] → s.queue = [] →
    I.holds s.requeued.1 s.requeued.1.work
  moved : ∀ {s es}, I.holds s es → ∀ elapsed,
    (advanceEmitters none elapsed s.emitters).At r fun x => I.conduct.AllowsHalt x.2 ∧
      I.holds { s with emitters := x.1 } es ∧
      I.holds { s with emitters := x.1.filter fun e => !e.isExpired } es
  started : ∀ {id scope routine}, r.directory.routine? id scope = some routine →
    ∀ name binding rate depth, I.holds (.fresh name routine binding rate depth) routine.effects

variable {I : Invariant} {r : Surroundings}

/-- Notices of no failure are always permitted. -/
theorem admits (actors : List ActorId) : (HostOrder.leaving I.conduct.Permits).Admits actors := by
  refine HostOrder.leaving_admits (fun n hn f hf => ?_) actors
  rw [hn] at hf
  cases hf

/-- Faults are all that an invariant counts of what happens outside. -/
theorem KeptIn.conduct (hk : I.KeptIn r) : I.conduct.KeptIn r (.leaving I.conduct.Permits) where
  noted hn h := HostOrder.leaving_note h hn
  frame := hk.frame
  dropped := hk.dropped
  passed := hk.passed
  performed {n s e es} h hs := by
    refine (s.leads_perform (admits _) e).keeps
      (((hk.performed h hs).and (s.perform_comesFrom e)).mono fun x hx => ?_)
    obtain ⟨body, flow⟩ := x
    obtain ⟨hf, hc⟩ := hx
    cases flow with
    | spawned child =>
      obtain ⟨id, scope, routine, name, rate, hr, -, rfl⟩ := hc
      refine ⟨hf, Sequence.graded_mk.mpr ⟨⟨?_, fun f hf => by cases hf⟩, by simp⟩⟩
      rw [fresh_work]
      exact hk.started hr _ _ _ _
    | _ => exact hf
  stopped := hk.stopped
  failed := hk.failed
  requeued := hk.requeued
  moved h elapsed := (leads_advanceEmitters (admits _) none elapsed _).keeps (hk.moved h elapsed)

end Invariant
end EffectMachine
