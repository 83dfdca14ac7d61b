import EffectMachine.Proofs.Sequence.Perform
import EffectMachine.Sequence.Run

namespace EffectMachine

namespace SequenceBody

/-- A relation that every change but a tick keeps up. -/
structure Lasting (R : SequenceBody → SequenceBody → Prop) : Prop where
  refl : ∀ s, R s s
  trans : ∀ s s' s'', R s s' → R s' s'' → R s s''
  does : ∀ (s : SequenceBody) s' e flow, s.Does e s' flow → R s s'
  halted : ∀ s : SequenceBody, R s s.halted
  fail : ∀ (s : SequenceBody) fault, (s.fail fault).Always (R s)
  requeued : ∀ s : SequenceBody, R s s.requeued.1
  waits : ∀ (s : SequenceBody) queue blockers scheduledStart budget,
    R s { s with queue, blockers, scheduledStart, budget }

theorem Lasting.charge {R : SequenceBody → SequenceBody → Prop} (hR : Lasting R)
    (s : SequenceBody) (head : Pending) (rest : List Pending) : R s (s.charge head rest) := by
  unfold SequenceBody.charge
  split
  · exact hR.refl s
  · exact hR.waits s _ s.blockers s.scheduledStart _

end SequenceBody

section Lasting

variable {R : SequenceBody → SequenceBody → Prop}

/-- Stop handlers after which everything below is there, and so related to what it was. -/
def StopHandlers.Preserve (run : StopHandlers Tick) (R : SequenceBody → SequenceBody → Prop) :
    Prop :=
  ∀ s, (run s).Always fun x => s.Pathwise R x.1

variable {run : StopHandlers Tick} (hR : SequenceBody.Lasting R)
include hR

mutual

/-- A stop keeps up a lasting relation at every place, if the stop handlers do. -/
theorem Sequence.stopWith_pathwise (hr : run.Preserve R) : ∀ s : Sequence,
    (s.stopWith run).Always fun x => s.Pathwise R x.1
  | .mk body children => by
    unfold Sequence.stopWith
    split
    · exact .pure (.refl hR.refl _)
    · refine .bind (stopAllWith_pathwise hr children) fun x hx => ?_
      have hh : (Sequence.mk body children).Pathwise R (.mk body.halted x.1) :=
        Sequence.pathwise_mk (hR.halted body) hx
      dsimp only
      split
      · exact .pure hh
      · exact .mono (hr _) fun y hy => hh.trans hR.trans hy

theorem stopAllWith_pathwise (hr : run.Preserve R) : ∀ cs : List Sequence,
    (stopAllWith run cs).Always fun x => Extends (Sequence.Pathwise R) cs x.1
  | [] => .pure .nil
  | c :: cs => by
    unfold stopAllWith
    refine .bind (Sequence.stopWith_pathwise hr c) fun x hx => ?_
    dsimp only
    split
    · exact .pure (.cons hx (.refl (Sequence.Pathwise.refl hR.refl) cs))
    · exact .bind (stopAllWith_pathwise hr cs) fun y hy => .pure (.cons hx hy)

end

mutual

theorem Sequence.stopRoutineWith_pathwise (hr : run.Preserve R) (id : ResourceId) : ∀ s : Sequence,
    (s.stopRoutineWith run id).Always fun x => s.Pathwise R x.1
  | .mk body children => by
    unfold Sequence.stopRoutineWith
    exact .bind (stopRoutineIn_pathwise hr id children) fun x hx =>
      .pure (Sequence.pathwise_mk (hR.refl body) hx)

theorem stopRoutineIn_pathwise (hr : run.Preserve R) (id : ResourceId) : ∀ cs : List Sequence,
    (stopRoutineIn run id cs).Always fun x => Extends (Sequence.Pathwise R) cs x.1
  | [] => .pure .nil
  | c :: cs => by
    have rest (c' : Sequence) (count : Nat) (halt : Option Halt) (hc : c.Pathwise R c') :
        Tick.Always (if halt.isSome then pure (c' :: cs, count, halt) else do
          let (cs, more, halt) ← stopRoutineIn run id cs
          return (c' :: cs, count + more, halt))
          fun x => Extends (Sequence.Pathwise R) (c :: cs) x.1 := by
      split
      · exact .pure (.cons hc (.refl (Sequence.Pathwise.refl hR.refl) cs))
      · exact .bind (stopRoutineIn_pathwise hr id cs) fun y hy => .pure (.cons hc hy)
    unfold stopRoutineIn
    dsimp only
    split
    · exact .bind (Sequence.stopWith_pathwise hR hr c) fun x hx => rest x.1 1 x.2 hx
    · exact .bind (Sequence.stopRoutineWith_pathwise hr id c) fun x hx => rest x.1 x.2.1 x.2.2 hx

end

namespace Sequence

theorem execute_pathwise (hr : run.Preserve R) (s : Sequence) (e : Effect) :
    (s.execute run e).Always fun x => s.Pathwise R x.1 := by
  refine .bind (s.body.perform_does e) fun x hx => ?_
  have hb : s.Pathwise R (mk x.1 s.children) := pathwise_body hR.refl (hR.does _ _ _ _ hx)
  obtain ⟨body, flow⟩ := x
  cases flow with
  | spawned child =>
    exact .pure (hb.trans hR.trans (pathwise_append hR.refl (mk body s.children) [child]))
  | stopRoutine id =>
    exact .bind (stopRoutineIn_pathwise hR hr id s.children) fun y hy =>
      .pure (hb.trans hR.trans (pathwise_children hR.refl hy))
  | proceed | splice | hold | fault => exact .pure hb

/-- Handlers keep up a lasting relation, by induction on their turns. -/
theorem runHandlers_pathwise (hr : run.Preserve R) (n : Nat) (es : List Effect) (s : Sequence) :
    (runHandlers run n es s).Always fun x => s.Pathwise R x.1 := by
  induction n generalizing es s with
  | zero => exact .pure (.refl hR.refl s)
  | succ n ih =>
    cases es with
    | nil =>
      exact .pure (pathwise_mapBody hR.refl
        (fun b => hR.waits b b.queue [] b.scheduledStart b.budget) s)
    | cons e es =>
      unfold runHandlers
      split
      · exact ih es s
      · refine .bind (execute_pathwise hR hr s e) fun x hx => ?_
        obtain ⟨s', next⟩ := x
        cases next with
        | proceed => exact .mono (ih es s') fun _ => hx.trans hR.trans
        | splice effects => exact .mono (ih (effects ++ es) s') fun _ => hx.trans hR.trans
        | hold =>
          exact .pure (hx.trans hR.trans (pathwise_mapBody hR.refl
            (fun b => hR.waits b [] [] none b.budget) s'))
        | halt why => exact .pure hx

theorem settle_pathwise (s : Sequence) (halt : Option Halt) :
    (s.settle halt).Always fun x => s.Pathwise R x.1 := by
  unfold settle
  split
  · exact .bind (hR.fail s.body _) fun b hb => .pure (pathwise_body hR.refl hb)
  · exact .pure (.refl hR.refl s)

theorem preserve_runStopHandlers (depth : Nat) : (runStopHandlers depth).Preserve R := by
  induction depth with
  | zero => exact fun s => .pure (.refl hR.refl s)
  | succ depth ih =>
    intro s
    refine .after _ fun r => .bind (runHandlers_pathwise hR ih r.fuel _ s) fun x hx => ?_
    exact .mono (settle_pathwise hR x.1 x.2) fun _ => hx.trans hR.trans

theorem stop_pathwise (s : Sequence) : s.stop.Always fun x => s.Pathwise R x.1 :=
  .after _ fun _ => stopWith_pathwise hR (preserve_runStopHandlers hR _) s

end Sequence

end Lasting

def StopHandlers.Persist (run : StopHandlers Tick) : Prop :=
  ∀ s, (run s).Always fun x => s.Later x.1

namespace SequenceBody

theorem later_halted (s : SequenceBody) : s.Later s.halted where
  id := rfl
  routine := rfl
  depth := rfl
  stopped _ := rfl
  failed h := h
  emitters := by
    simp only [halted, stopEmitters_eq_map]
    exact Extends.map Emitter.later_stop _

theorem fail_later (s : SequenceBody) (fault : Fault) :
    (s.fail fault).Always fun s' => s.Later s' := by
  refine .after _ fun _ => .pure ?_
  refine ⟨rfl, rfl, rfl, fun h => h, fun _ => rfl, ?_⟩
  simp only [stopEmitters_eq_map]
  exact Extends.map Emitter.later_stop _

theorem later_stopWhere (s : SequenceBody) (pick : EmitterBody → Bool) :
    s.Later (s.stopWhere pick) := by
  refine { Later.refl s with emitters := Extends.map (fun g => ?_) _ }
  split
  · exact g.later_stop
  · exact .refl g

theorem later_requeued (s : SequenceBody) : s.Later s.requeued.1 := by
  unfold requeued
  split
  · exact .of_eq rfl rfl rfl rfl rfl rfl
  · dsimp only
    split
    · exact { later_stopWhere s fun g => g.owner = some s.id with }
    · exact .of_eq rfl rfl rfl rfl rfl rfl

/-- To be later is a lasting relation. -/
theorem lasting_later : Lasting Later where
  refl := .refl
  trans _ _ _ := .trans
  does _ _ _ _ h := h.later
  halted := later_halted
  fail := fail_later
  requeued := later_requeued
  waits _ _ _ _ _ := .of_eq rfl rfl rfl rfl rfl rfl

theorem later_charge (s : SequenceBody) (head : Pending) (rest : List Pending) :
    s.Later (s.charge head rest) :=
  lasting_later.charge s head rest

end SequenceBody

section Stopping

open SequenceBody

variable {run : StopHandlers Tick}

theorem stopRoutineIn_later (hr : run.Persist) (id : ResourceId) (cs : List Sequence) :
    (stopRoutineIn run id cs).Always fun x => Extends Sequence.Later cs x.1 :=
  stopRoutineIn_pathwise lasting_later hr id cs

namespace Sequence

theorem settle_later (s : Sequence) (halt : Option Halt) :
    (s.settle halt).Always fun x => s.Later x.1 :=
  settle_pathwise lasting_later s halt

theorem persist_runStopHandlers (depth : Nat) : (runStopHandlers depth).Persist :=
  preserve_runStopHandlers lasting_later depth

theorem stop_later (s : Sequence) : s.stop.Always fun x => s.Later x.1 :=
  stop_pathwise lasting_later s

end Sequence

end Stopping
end EffectMachine
