import EffectMachine.Proofs.Scalars
import EffectMachine.Proofs.Sequence.Turns

namespace EffectMachine

namespace Sequence

def OwnsBlockers (s : Sequence) : Prop := ∀ id ∈ s.body.blockers, ∃ c ∈ s.children, c.body.id = id

/-- Those that it waits for are among its children, and it has no frames left to spend. -/
structure Waits (s : Sequence) : Prop where
  owns : s.OwnsBlockers
  spent : s.body.blockers ≠ [] → s.body.budget ≤ 0

/-- A sequence between two calls: it and all below it wait for children of their own. -/
def AtRest (s : Sequence) : Prop := ∀ path q, s.at? path = some q → q.Waits

/-- A sequence while its effects run. It may wait with frames left; the loop that runs its effects
sees to these when it gives up. -/
structure Underway (s : Sequence) : Prop where
  owns : s.OwnsBlockers
  children : ∀ c ∈ s.children, c.AtRest

variable {s s' : Sequence} {b : SequenceBody} {cs : List Sequence}

theorem ownsBlockers_of_free (h : s.body.blockers = []) : s.OwnsBlockers := by
  intro id hid
  rw [h] at hid
  cases hid

theorem waits_of_free (h : s.body.blockers = []) : s.Waits :=
  ⟨ownsBlockers_of_free h, fun hb => absurd h hb⟩

/-- The same blockers, with all children that were there. -/
theorem OwnsBlockers.of_extends (h : s.OwnsBlockers) (hb : b.blockers = s.body.blockers)
    (hc : Extends Later s.children cs) : (Sequence.mk b cs).OwnsBlockers := by
  intro id hid
  rw [body_mk, hb] at hid
  obtain ⟨c, hm, hn⟩ := h id hid
  obtain ⟨i, hi⟩ := List.getElem?_of_mem hm
  obtain ⟨c', hi', hl⟩ := hc i c hi
  exact ⟨c', List.mem_of_getElem? hi', hl.body.id.trans hn⟩

theorem OwnsBlockers.changed (h : s.OwnsBlockers) (hb : b.blockers = s.body.blockers) :
    (Sequence.mk b s.children).OwnsBlockers :=
  h.of_extends hb (.refl Later.refl _)

theorem atRest_mk : (mk b cs).AtRest ↔ (mk b cs).Waits ∧ ∀ c ∈ cs, c.AtRest :=
  forall_at?_mk

theorem AtRest.waits (h : s.AtRest) : s.Waits := h [] s rfl

theorem AtRest.children (h : s.AtRest) : ∀ c ∈ s.children, c.AtRest := by
  cases s with
  | mk body children => exact (atRest_mk.mp h).2

/-- All that is below a sequence at rest is at rest. -/
theorem AtRest.at? {path : List Nat} {q : Sequence} (h : s.AtRest) (hq : s.at? path = some q) :
    q.AtRest := by
  induction path generalizing s with
  | nil => exact Option.some.inj hq ▸ h
  | cons i path ih =>
    obtain ⟨c, hi, hq⟩ := Option.bind_eq_some_iff.mp hq
    exact ih (h.children c (List.mem_of_getElem? hi)) hq

theorem AtRest.underway (h : s.AtRest) : s.Underway := ⟨h.waits.owns, h.children⟩

theorem Waits.atRest (h : s.Waits) (hc : ∀ c ∈ s.children, c.AtRest) : s.AtRest := by
  cases s with
  | mk body children => exact atRest_mk.mpr ⟨h, hc⟩

theorem atRest_of_free (h : s.body.blockers = []) (hc : ∀ c ∈ s.children, c.AtRest) : s.AtRest :=
  (waits_of_free h).atRest hc

theorem fresh_atRest (id : SequenceId) (routine : Routine) (binding : Binding) (rate : Scalar)
    (depth : UInt8) : (mk (.fresh id routine binding rate depth) []).AtRest :=
  atRest_of_free rfl (by simp)

theorem start_atRest (routine : Routine) (binding : Binding) (rate : Scalar) (depth : UInt8) :
    (start routine binding rate depth).Always AtRest :=
  .after _ fun id => .pure (fresh_atRest id routine binding rate depth)

/-- Only what does not count has changed in the sequence itself. -/
theorem Underway.changed (h : s.Underway) (hb : b.blockers = s.body.blockers) :
    (Sequence.mk b s.children).Underway :=
  ⟨h.owns.changed hb, h.children⟩

theorem Underway.mapBody {f : SequenceBody → SequenceBody} (h : s.Underway)
    (hf : (f s.body).blockers = s.body.blockers) : (s.mapBody f).Underway := by
  cases s with
  | mk body children => exact h.changed hf

theorem AtRest.changed (h : s.AtRest) (hb : b.blockers = s.body.blockers)
    (hn : b.budget = s.body.budget) : (Sequence.mk b s.children).AtRest := by
  refine Waits.atRest ⟨h.waits.owns.changed hb, fun hne => ?_⟩ h.children
  rw [body_mk, hn]
  exact h.waits.spent (hb ▸ hne)

end Sequence

def Action.blocks : Action → Bool
  | .spawnRoutine _ blocking => blocking
  | .linkRoutine _ blocking => blocking
  | _ => false

/-- The blockers that an effect leaves: only a child that it starts becomes one. -/
def Flow.Awaits (s s' : SequenceBody) (blocks : Bool) : Flow → Prop
  | .spawned c =>
    c.AtRest ∧ s'.blockers = if blocks then s.blockers ++ [c.body.id] else s.blockers
  | _ => s'.blockers = s.blockers

namespace SequenceBody

variable {s s' : SequenceBody}

theorem spawnGenerator_blockers (id : ResourceId) (duration : UInt16)
    (follow : Option FollowPath) :
    (s.spawnGenerator id duration follow).Always fun s' => s'.blockers = s.blockers := by
  refine .after _ fun r => ?_
  split
  · exact .after _ fun _ => .pure rfl
  · exact .pure rfl

theorem spawnRoutine_awaits (id : ResourceId) (blocking : Bool) (scope : SearchScope) :
    (s.spawnRoutine id blocking scope).Always fun x => x.2.Awaits s x.1 blocking := by
  refine .after _ fun r => ?_
  dsimp only
  split
  · exact .after _ fun _ => .pure rfl
  · split
    · exact .after _ fun _ => .pure rfl
    · exact .bind (Sequence.start_atRest _ _ _ _) fun c hc => .pure ⟨hc, rfl⟩

theorem chooseRoutine_awaits (choices : List ResourceId) (blocks : Bool) :
    (s.chooseRoutine choices).Always fun flow => flow.Awaits s s blocks := by
  unfold chooseRoutine
  split
  · exact .after _ fun _ => .pure rfl
  · refine .after _ fun index => .after _ fun r => ?_
    split
    · exact .pure rfl
    · exact .after _ fun _ => .pure rfl

/-- An effect adds a blocker only for a child that it starts. -/
theorem steer_awaits (s : SequenceBody) (e : Effect) :
    (s.steer e).Always fun x => x.2.Awaits s x.1 e.action.blocks := by
  unfold steer
  split
  case h_1 | h_2 => exact .bind (spawnGenerator_blockers _ _ _) fun _ hs => .pure hs
  case h_5 id blocking ha =>
    rw [ha]
    exact fun r h => spawnRoutine_awaits id blocking _ r h
  case h_6 id blocking ha =>
    rw [ha]
    exact fun r h => spawnRoutine_awaits id blocking _ r h
  case h_7 => exact .bind (chooseRoutine_awaits _ _) fun _ hf => .pure hf
  case h_10 => split <;> exact .pure rfl
  case h_11 =>
    refine .after _ fun value => ?_
    split
    · exact .after _ fun _ => .pure rfl
    · exact .pure rfl
  case h_12 =>
    split
    · exact .after _ fun _ => .pure rfl
    · exact .pure rfl
  case h_15 =>
    refine .after _ fun r => ?_
    split <;> exact .pure rfl
  all_goals exact .pure rfl

theorem perform_awaits (s : SequenceBody) (e : Effect) :
    (s.perform e).Always fun x => x.2.Awaits s x.1 e.action.blocks := by
  refine .after _ fun r => ?_
  split
  · exact .after _ fun _ => .pure rfl
  · exact s.steer_awaits e

@[simp] theorem charge_blockers (s : SequenceBody) (head : Pending) (rest : List Pending) :
    (s.charge head rest).blockers = s.blockers := by
  unfold charge
  split <;> rfl

@[simp] theorem requeued_blockers (s : SequenceBody) : s.requeued.1.blockers = s.blockers := by
  unfold requeued
  split
  · rfl
  · dsimp only
    split <;> rfl

theorem capBudget_le (s : SequenceBody) : s.capBudget.budget ≤ 0 := s.budget.min_zero_le

theorem fail_blockers (s : SequenceBody) (f : Fault) :
    (s.fail f).Always fun s' => s'.blockers = [] :=
  .after _ fun _ => .pure rfl

end SequenceBody

namespace Sequence

variable {s s' : Sequence}

def Rests (x : Sequence × Option Halt) : Prop := x.2 ≠ some .outOfFuel → x.1.AtRest

def AllRest (x : List Sequence × Option Halt) : Prop :=
  x.2 ≠ some .outOfFuel → ∀ c ∈ x.1, c.AtRest

/-- A loop has come to its end: it rests but for the fault that it came back with. -/
def ComesToRest (x : Sequence × Option Halt) : Prop :=
  x.2 ≠ some .outOfFuel → x.1.Underway ∧ (x.2 = none → x.1.Waits)

theorem AtRest.comesToRest (h : s.AtRest) (halt : Option Halt) : ComesToRest (s, halt) :=
  fun _ => ⟨h.underway, fun _ => h.waits⟩

theorem ne_outOfFuel_of_not_isSome {halt : Option Halt} (h : ¬halt.isSome = true) :
    halt ≠ some .outOfFuel := by
  rintro rfl
  exact h rfl

section Stopping

variable {run : StopHandlers Tick}

/-- Stop handlers that leave the sequence that they run in at rest. -/
def RestAfter (run : StopHandlers Tick) : Prop := ∀ s, s.Underway → (run s).Always Rests

mutual

theorem stopWith_rests (hrun : RestAfter run) : ∀ s : Sequence,
    s.AtRest → (s.stopWith run).Always Rests
  | .mk body children, h => by
    unfold Sequence.stopWith
    split
    · exact .pure fun _ => h
    · refine .bind (stopAllWith_rests hrun children h.children) fun x hx => ?_
      dsimp only
      split
      next => exact .pure fun hn => atRest_of_free rfl (hx hn)
      next hs =>
        exact hrun _ ⟨ownsBlockers_of_free rfl, hx (ne_outOfFuel_of_not_isSome hs)⟩

/-- Stopping several sequences leaves each of them at rest. -/
theorem stopAllWith_rests (hrun : RestAfter run) : ∀ cs : List Sequence,
    (∀ c ∈ cs, c.AtRest) → (stopAllWith run cs).Always AllRest
  | [], _ => .pure fun _ => by simp
  | c :: cs, h => by
    obtain ⟨hc, hcs⟩ := List.forall_mem_cons.mp h
    unfold stopAllWith
    refine .bind (stopWith_rests hrun c hc) fun x hx => ?_
    dsimp only
    split
    next => exact .pure fun hn => List.forall_mem_cons.mpr ⟨hx hn, hcs⟩
    next hs =>
      have hx := hx (ne_outOfFuel_of_not_isSome hs)
      exact .bind (stopAllWith_rests hrun cs hcs) fun y hy =>
        .pure fun hn => List.forall_mem_cons.mpr ⟨hx, hy hn⟩

end

mutual

theorem stopRoutineWith_rests (hr : run.Persist) (hrun : RestAfter run) (id : ResourceId) :
    ∀ s : Sequence, s.AtRest → (s.stopRoutineWith run id).Always fun x => Rests (x.1, x.2.2)
  | .mk body children, h => by
    unfold Sequence.stopRoutineWith
    intro r host
    -- No child goes away, so each blocker still finds its own.
    have hl := stopRoutineIn_later hr id children r host
    have hx := stopRoutineIn_rests hr hrun id children h.children r host
    exact fun hn => Waits.atRest ⟨h.waits.owns.of_extends rfl hl, h.waits.spent⟩ (hx hn)

theorem stopRoutineIn_rests (hr : run.Persist) (hrun : RestAfter run) (id : ResourceId) :
    ∀ cs : List Sequence, (∀ c ∈ cs, c.AtRest) →
      (stopRoutineIn run id cs).Always fun x => AllRest (x.1, x.2.2)
  | [], _ => .pure fun _ => by simp
  | c :: cs, h => by
    obtain ⟨hc, hcs⟩ := List.forall_mem_cons.mp h
    have rest (c' : Sequence) (count : Nat) (halt : Option Halt) (hx : Rests (c', halt)) :
        Tick.Always (if halt.isSome then pure (c' :: cs, count, halt) else do
          let (cs, more, halt) ← stopRoutineIn run id cs
          return (c' :: cs, count + more, halt)) fun x => AllRest (x.1, x.2.2) := by
      split
      next => exact .pure fun hn => List.forall_mem_cons.mpr ⟨hx hn, hcs⟩
      next hs =>
        have hx := hx (ne_outOfFuel_of_not_isSome hs)
        exact .bind (stopRoutineIn_rests hr hrun id cs hcs) fun y hy =>
          .pure fun hn => List.forall_mem_cons.mpr ⟨hx, hy hn⟩
    unfold stopRoutineIn
    dsimp only
    split
    · exact .bind (stopWith_rests hrun c hc) fun x hx => rest x.1 1 x.2 hx
    · exact .bind (stopRoutineWith_rests hr hrun id c hc) fun x hx => rest x.1 x.2.1 x.2.2 hx

end

end Stopping

section Effects

variable {run : StopHandlers Tick}

/-- What an effect leaves underway, unless stopping others spent the fuel. -/
theorem execute_underway (hr : run.Persist) (hrun : RestAfter run) (hs : s.Underway)
    (e : Effect) :
    (s.execute run e).Always fun x => x.2 ≠ .halt .outOfFuel → x.1.Underway := by
  refine .bind (s.body.perform_awaits e) fun x hx => ?_
  obtain ⟨body, flow⟩ := x
  cases flow with
  | spawned child =>
    obtain ⟨hc, hb⟩ := hx
    refine .pure fun _ => ⟨fun id hid => ?_, fun c hm => ?_⟩
    · have hid : id ∈ s.body.blockers ∨ id = child.body.id := by
        rw [body_mk, hb] at hid
        split at hid
        · simpa using hid
        · exact .inl hid
      rcases hid with hid | rfl
      · obtain ⟨c, hm, hn⟩ := hs.owns id hid
        exact ⟨c, List.mem_append_left _ hm, hn⟩
      · exact ⟨child, by simp, rfl⟩
    · rcases List.mem_append.mp hm with hm | hm
      · exact hs.children c hm
      · exact List.mem_singleton.mp hm ▸ hc
  | stopRoutine id =>
    intro r h
    have hl := stopRoutineIn_later hr id s.children r h
    have hy := stopRoutineIn_rests hr hrun id s.children hs.children r h
    refine fun hn => ⟨hs.owns.of_extends hx hl, hy fun hf => hn ?_⟩
    dsimp only at hf ⊢
    rw [Tick.run_bind]
    simp only [hf, Tick.run_pure]
  | proceed | splice | hold | fault => exact .pure fun _ => hs.changed hx

/-- By induction on the fuel. -/
theorem runHandlers_comesToRest (hr : run.Persist) (hrun : RestAfter run) (n : Nat)
    (es : List Effect) (hs : s.Underway) : (runHandlers run n es s).Always ComesToRest := by
  induction n generalizing es s with
  | zero => exact .pure fun hn => absurd rfl hn
  | succ n ih =>
    cases es with
    | nil =>
      have hq : (s.mapBody fun body => { body with blockers := [] }).AtRest :=
        atRest_of_free (by simp) (by simpa using hs.children)
      exact .pure (hq.comesToRest none)
    | cons e es =>
      unfold runHandlers
      split
      · exact ih es hs
      · refine .bind (execute_underway hr hrun hs e) fun x hx => ?_
        obtain ⟨s', next⟩ := x
        cases next with
        | proceed => exact ih es (hx (by simp))
        | splice effects => exact ih (effects ++ es) (hx (by simp))
        | hold =>
          have hq : (s'.mapBody fun body =>
              { body with queue := [], scheduledStart := none, blockers := [] }).AtRest :=
            atRest_of_free (by simp) (by simpa using (hx (by simp)).children)
          exact .pure (hq.comesToRest none)
        | halt why =>
          refine .pure fun hn => ⟨hx fun hw => hn ?_, fun h => by cases h⟩
          rw [Next.halt.inj hw]

/-- The fault of a loop empties the blockers. -/
theorem settle_rests {x : Sequence × Option Halt} (h : ComesToRest x) :
    (x.1.settle x.2).Always Rests := by
  unfold settle
  split
  next f hf =>
    obtain ⟨hu, -⟩ := h (by rw [hf]; nofun)
    exact .bind (x.1.body.fail_blockers f) fun b hb =>
      .pure fun _ => atRest_of_free hb hu.children
  next hf =>
    refine .pure fun hn => ?_
    have hnone : x.2 = none := by
      cases hx : x.2 with
      | none => rfl
      | some why =>
        cases why with
        | fault f => exact absurd hx (hf f)
        | outOfFuel => exact absurd hx hn
    obtain ⟨hu, hw⟩ := h hn
    exact (hw hnone).atRest hu.children

/-- By induction on how deep handlers may stop others. -/
theorem restAfter_runStopHandlers (depth : Nat) : RestAfter (runStopHandlers depth) := by
  induction depth with
  | zero => exact fun s _ => .pure fun hn => absurd rfl hn
  | succ depth ih =>
    intro s hs
    refine .after _ fun r => ?_
    exact .bind (runHandlers_comesToRest (persist_runStopHandlers depth) ih _ _ hs) fun x hx =>
      settle_rests hx

theorem stop_rests (h : s.AtRest) : s.stop.Always Rests :=
  .after _ fun _ => stopWith_rests (restAfter_runStopHandlers _) s h

theorem stopRoutine_rests (h : s.AtRest) (id : ResourceId) :
    (s.stopRoutine id).Always fun x => Rests (x.1, x.2.2) :=
  .after _ fun _ =>
    stopRoutineWith_rests (persist_runStopHandlers _) (restAfter_runStopHandlers _) id s h

end Effects

section Draining

variable {run : StopHandlers Tick} {r : Surroundings} {h : Host} {event : DrainEvent}

theorem underway_takeHead (hs : s.Underway) (head : Pending) (rest : List Pending) :
    (s.takeHead head rest).Underway :=
  hs.changed (s.body.charge_blockers head rest)

/-- A turn of the draining loop keeps what is below at rest. -/
theorem Drains.underway (hr : run.Persist) (hrun : RestAfter run) (hs : s.Underway)
    (hd : s.Drains run r h s' event) (hn : event.halt? ≠ some .outOfFuel) : s'.Underway := by
  have ran {head rest} {x : Sequence × Next}
      (done : ((s.takeHead head rest).execute run head.effect r h).1 = x)
      (hx : x.2 ≠ .halt .outOfFuel) : x.1.Underway := by
    have he := execute_underway hr hrun (underway_takeHead hs head rest) head.effect r h
    rw [done] at he
    exact he hx
  cases hd with
  | blocked => exact hs.mapBody rfl
  | dry | requeued => exact hs.changed s.body.requeued_blockers
  | skipped => exact hs.mapBody rfl
  | waiting head rest => exact hs.changed (s.body.charge_blockers head rest)
  | ran _ _ _ _ _ _ _ done => exact ran done nofun
  | spliced _ _ _ _ _ _ _ _ done => exact (ran done nofun).mapBody rfl
  | held _ _ _ _ _ _ _ done => exact (ran done nofun).mapBody rfl
  | halted _ _ _ _ _ _ _ _ done =>
    exact ran done fun hw => hn (congrArg some (Next.halt.inj hw))

/-- A sequence that waits gives up what it has left; without blockers it may save it. -/
theorem Drains.spent (hd : s.Drains run r h s' event) (hg : event.goesOn = false)
    (hh : event.halt? = none) : s'.body.blockers ≠ [] → s'.body.budget ≤ 0 := by
  cases hd with
  | blocked => exact fun _ => by simpa using s.body.capBudget_le
  | dry free => exact fun hb => absurd (by simpa using free) hb
  | waiting head rest free => exact fun hb => absurd (by simpa using free) hb
  | held _ _ q => exact fun _ => by simpa using q.body.capBudget_le
  | halted => cases hh
  | _ => cases hg

/-- By induction on the fuel. -/
theorem drain_comesToRest (hr : run.Persist) (hrun : RestAfter run) (n : Nat)
    (hs : s.Underway) : (s.drain run n).Always ComesToRest := by
  induction n generalizing s with
  | zero => exact .pure fun hn => absurd rfl hn
  | succ n ih =>
    intro r h
    have hd := s.drainStep_drains run r h
    rw [drain_succ]
    cases hg : (s.drainStep run r h).1.2.goesOn with
    | true =>
      rw [if_pos rfl]
      refine ih (hd.underway hr hrun hs ?_) _ _
      rw [DrainEvent.halt?_of_goesOn hg]
      nofun
    | false =>
      rw [if_neg (by simp)]
      -- The loop gives up in this turn, so the budget is capped wherever a blocker is left.
      refine fun hn => ?_
      have hu := hd.underway hr hrun hs hn
      exact ⟨hu, fun hh => ⟨hu.owns, hd.spent hg hh⟩⟩

end Draining

section Ticks

/-- Whoever is let go of is waited for no more. -/
theorem dropEnded_underway (hc : ∀ c ∈ s.children, c.AtRest) : s.dropEnded.Underway := by
  refine ⟨fun id hid => ?_, fun c hm => hc c (List.mem_filter.mp hm).1⟩
  obtain ⟨-, hid⟩ := List.mem_filter.mp hid
  obtain ⟨c, hm, hn⟩ := List.any_eq_true.mp hid
  exact ⟨c, hm, of_decide_eq_true hn⟩

theorem earn_underway (hs : s.Underway) (elapsed : Scalar) : (s.earn elapsed).Underway :=
  hs.mapBody rfl

theorem advanceOwned_rests (hs : s.AtRest) (elapsed : Scalar) :
    (s.advanceOwned elapsed).Always ComesToRest := by
  refine .mono (s.advanceOwned_emitters elapsed) fun x hx => ?_
  obtain ⟨es, hx⟩ := hx
  have hq : x.1.AtRest := hx ▸ hs.changed rfl rfl
  exact hq.comesToRest x.2

theorem advanceSelf_rests (hc : ∀ c ∈ s.children, c.AtRest) (elapsed : Scalar) :
    (s.advanceSelf elapsed).Always Rests := by
  refine .after _ fun r => .bind (drain_comesToRest (persist_runStopHandlers _)
    (restAfter_runStopHandlers _) _ (earn_underway (dropEnded_underway hc) elapsed)) fun x hx => ?_
  dsimp only
  split
  next => exact settle_rests hx
  next hs =>
    obtain ⟨hu, hw⟩ := hx (ne_outOfFuel_of_not_isSome hs)
    have hq := (hw (by simpa using hs)).atRest hu.children
    exact .bind (advanceOwned_rests hq elapsed) fun y hy => settle_rests hy

mutual

/-- A tick leaves a sequence at rest, unless the fuel is spent: by induction on the tree. -/
theorem advance_rests (elapsed : Scalar) : ∀ s : Sequence,
    s.AtRest → (s.advance elapsed).Always Rests
  | .mk body children, h => by
    unfold Sequence.advance
    split
    next => exact .pure fun _ => h
    next =>
      refine .bind (P := fun x => AllRest x ∧ (x.2 = none ∨ x.2 = some .outOfFuel)) (fun r h' =>
        ⟨advanceChildren_rests body.routine.id elapsed children h.children r h',
          advanceChildren_halt body.routine.id elapsed children r h'⟩) fun x hx => ?_
      obtain ⟨hx, hh⟩ := hx
      dsimp only
      split
      next hs =>
        -- A fault of a child ends only the child: it was the fuel.
        rcases hh with hh | hh
        · simp [hh] at hs
        · exact .pure fun hn => absurd hh hn
      next hs =>
        have hc : ∀ c ∈ (mk { body with refilled := false } x.1).children, c.AtRest :=
          hx (ne_outOfFuel_of_not_isSome hs)
        exact advanceSelf_rests hc elapsed

/-- Children at rest are at rest after their tick. -/
theorem advanceChildren_rests (parent : ResourceId) (elapsed : Scalar) :
    ∀ cs : List Sequence, (∀ c ∈ cs, c.AtRest) →
      (advanceChildren parent elapsed cs).Always AllRest
  | [], _ => .pure fun _ => by simp
  | c :: cs, h => by
    obtain ⟨hc, hcs⟩ := List.forall_mem_cons.mp h
    have rest (c' : Sequence) (hc' : c'.AtRest) :
        Tick.Always (do
          let (cs, halt) ← advanceChildren parent elapsed cs
          return (c' :: cs, halt)) AllRest :=
      .bind (advanceChildren_rests parent elapsed cs hcs) fun y hy =>
        .pure fun hn => List.forall_mem_cons.mpr ⟨hc', hy hn⟩
    unfold advanceChildren
    refine .bind (advance_rests elapsed c hc) fun x hx => ?_
    dsimp only
    split
    next hf => exact .pure fun hn => absurd hf hn
    next f hf => exact .after _ fun _ => rest x.1 (hx (by rw [hf]; nofun))
    next hf => exact rest x.1 (hx (by rw [hf]; nofun))

end

end Ticks

end Sequence
end EffectMachine
