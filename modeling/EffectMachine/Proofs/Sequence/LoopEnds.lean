import EffectMachine.Proofs.Sequence.Nesting

namespace EffectMachine

/-- Fuel for so many levels of stop handlers, and for loops with such a bound. -/
structure Surroundings.Affords (r : Surroundings) (n k : Nat) : Prop where
  bound : r.directory.BoundsLoops n
  levels : k ≤ r.fuel
  turns : 3 * n + 2 < r.fuel

namespace Sequence

variable {r : Surroundings} {n j k : Nat} {run : StopHandlers Tick} {s : Sequence}

/-- What a loop that came to its end leaves in a sequence of so many levels. -/
structure Ended (r : Surroundings) (n k : Nat) (x : Sequence × Option Halt) : Prop where
  returns : x.2 ≠ some .outOfFuel
  within : x.1.Within r.directory n k

def EndsAt (run : StopHandlers Tick) (r : Surroundings) (n k : Nat) : Prop :=
  ∀ s, s.Within r.directory n k → (run s).At r (Ended r n k)

section Stopping

theorem stopAllWith_ends (hrun : EndsAt (·.stopWith run) r n k) (cs : List Sequence)
    (hcs : ∀ c ∈ cs, c.Within r.directory n k) :
    (stopAllWith run cs).At r fun x =>
      x.2 ≠ some .outOfFuel ∧ ∀ c ∈ x.1, c.Within r.directory n k := by
  induction cs with
  | nil => exact .pure ⟨by simp, hcs⟩
  | cons c cs ih =>
    obtain ⟨hc, hcs⟩ := List.forall_mem_cons.mp hcs
    unfold stopAllWith
    refine .bind (hrun c hc) fun x hx => ?_
    dsimp only
    split
    · exact .pure ⟨hx.returns, List.forall_mem_cons.mpr ⟨hx.within, hcs⟩⟩
    · refine .bind (ih hcs) fun y hy => .pure ?_
      exact ⟨hy.1, List.forall_mem_cons.mpr ⟨hx.within, hy.2⟩⟩

/-- A stop does not run out of fuel if handlers do not so many levels deep. -/
theorem stopWith_ends (hrun : ∀ j ≤ k, EndsAt run r n j) : EndsAt (·.stopWith run) r n k := by
  induction k with
  | zero => exact fun s hs => hs.elim
  | succ k ih =>
    intro s hs
    cases s with
    | mk body children =>
      change (Sequence.stopWith run (mk body children)).At r (Ended r n (k + 1))
      unfold Sequence.stopWith
      split
      · exact .pure ⟨by simp, hs⟩
      · have below := ih fun j hj => hrun j (Nat.le_succ_of_le hj)
        refine .bind (stopAllWith_ends below children hs.1.children) fun x hx => ?_
        have hh : (mk body.halted x.1).Within r.directory n (k + 1) :=
          hs.changed rfl rfl (.inr rfl) hx.2
        dsimp only
        split
        · exact .pure ⟨hx.1, hh⟩
        · exact hrun (k + 1) (Nat.le_refl _) _ hh

/-- A search ends as well, whichever children it picks. -/
theorem stopRoutineIn_ends (hrun : ∀ j ≤ k, EndsAt run r n j) (id : ResourceId)
    (cs : List Sequence) (hcs : ∀ c ∈ cs, c.Within r.directory n k) :
    (stopRoutineIn run id cs).At r fun x =>
      x.2.2 ≠ some .outOfFuel ∧ ∀ c ∈ x.1, c.Within r.directory n k := by
  induction k generalizing cs with
  | zero =>
    cases cs with
    | nil => exact .pure ⟨by simp, hcs⟩
    | cons c cs => exact (hcs c List.mem_cons_self).elim
  | succ k ihk =>
    induction cs with
    | nil => exact .pure ⟨by simp, hcs⟩
    | cons c cs ih =>
      obtain ⟨hc, hcs⟩ := List.forall_mem_cons.mp hcs
      have rest (x : Sequence × Nat × Option Halt) (hr : x.2.2 ≠ some .outOfFuel)
          (hx : x.1.Within r.directory n (k + 1)) :
          Tick.At (if x.2.2.isSome then pure (x.1 :: cs, x.2.1, x.2.2)
            else stopRoutineIn run id cs >>= fun y =>
              pure (x.1 :: y.1, x.2.1 + y.2.1, y.2.2)) r fun y =>
                y.2.2 ≠ some .outOfFuel ∧ ∀ c ∈ y.1, c.Within r.directory n (k + 1) := by
        split
        · exact .pure ⟨hr, List.forall_mem_cons.mpr ⟨hx, hcs⟩⟩
        · refine .bind (ih hcs) fun y hy => .pure ?_
          exact ⟨hy.1, List.forall_mem_cons.mpr ⟨hx, hy.2⟩⟩
      unfold stopRoutineIn
      dsimp only
      split
      · exact .bind (stopWith_ends hrun c hc) fun x hx => rest (x.1, 1, x.2) hx.returns hx.within
      · -- What does not run the routine is looked through, one level down.
        cases c with
        | mk body children =>
          have below := ihk (fun j hj => hrun j (Nat.le_succ_of_le hj)) children hc.1.children
          have hx : ((mk body children).stopRoutineWith run id).At r fun x =>
              x.2.2 ≠ some .outOfFuel ∧ x.1.Within r.directory n (k + 1) := by
            unfold Sequence.stopRoutineWith
            exact .bind below fun y hy => .pure ⟨hy.1, hc.changed rfl rfl (.inl rfl) hy.2⟩
          exact .bind hx fun x hx => rest x hx.1 hx.2

end Stopping

section Handlers

structure Executed (r : Surroundings) (n k : Nat) (s : Sequence) (x : Sequence × Next) : Prop where
  returns : x.2 ≠ .halt .outOfFuel
  framed : x.1.Framed r.directory n (k + 1) (Within r.directory n k)
  routine : x.1.body.routine = s.body.routine
  work : x.2 ≠ .hold → x.1.body.work = s.body.work

/-- One effect ends, and leaves the sequence within its bounds. -/
theorem execute_ends (hrun : ∀ j ≤ k, EndsAt run r n j) (hb : r.directory.BoundsLoops n)
    (hs : s.Framed r.directory n (k + 1) (Within r.directory n k)) (e : Effect) :
    (s.execute run e).At r (Executed r n k s) := by
  refine .bind ((s.body.perform_does e).at.and (s.body.perform_comesFrom e)) fun x hx => ?_
  obtain ⟨body, flow⟩ := x
  obtain ⟨hd, hf⟩ := hx
  have hl := hd.later
  have hw (hf : flow ≠ .hold) : body.work = s.body.work :=
    congrArg (List.map Pending.effect) (hd.queue_eq hf)
  have framed {cs : List Sequence} (hcs : ∀ c ∈ cs, c.Within r.directory n k) :=
    hs.changed hl.depth hl.routine hcs
  cases flow with
  | spawned child =>
    refine .pure ⟨by simp, framed fun c hc => ?_, hl.routine, fun _ => hw (by simp)⟩
    rcases List.mem_append.mp hc with hc | hc
    · exact hs.children c hc
    · exact List.mem_singleton.mp hc ▸ within_spawned hb hs hf
  | stopRoutine id =>
    refine .bind (stopRoutineIn_ends hrun id s.children hs.children) fun y hy => ?_
    refine .pure ⟨?_, framed hy.2, hl.routine, fun _ => hw (by simp)⟩
    cases hh : y.2.2 with
    | none => simp
    | some why => exact fun hw => hy.1 (by rw [hh]; exact congrArg some (Next.halt.inj hw))
  | hold => exact .pure ⟨by simp, framed hs.children, hl.routine, fun hn => (hn rfl).elim⟩
  | proceed | splice | fault =>
    exact .pure ⟨by simp, framed hs.children, hl.routine, fun _ => hw (by simp)⟩

theorem Executed.within {x : Sequence × Next} (hx : Executed r n k s x)
    (hs : s.Within r.directory n (k + 1)) (hn : x.2 ≠ .hold) :
    x.1.Within r.directory n (k + 1) := by
  refine ⟨hx.framed, ?_⟩
  rw [hx.routine, hx.work hn]
  exact hs.2

theorem within_mapBody {f : SequenceBody → SequenceBody}
    (hs : s.Framed r.directory n (k + 1) (Within r.directory n k))
    (hd : ∀ b, (f b).depth = b.depth) (hr : ∀ b, (f b).routine = b.routine)
    (hw : r.directory.EndsWithin s.body.routine.origin n (f s.body).work) :
    (s.mapBody f).Within r.directory n (k + 1) := by
  cases s with
  | mk body children =>
    refine ⟨hs.changed (hd body) (hr body) hs.children, ?_⟩
    rw [mapBody, body_mk, hr]
    exact hw

/-- By induction on the fuel, of which every turn takes one where the bound falls by one. -/
theorem runHandlers_ends (hrun : ∀ j ≤ k, EndsAt run r n j) (hb : r.directory.BoundsLoops n)
    {m fuel : Nat} {es : List Effect} (hs : s.Within r.directory n (k + 1))
    (hes : r.directory.EndsWithin s.body.routine.origin m es) (hm : m < fuel) :
    (runHandlers run fuel es s).At r (Ended r n (k + 1)) := by
  induction fuel generalizing m es s with
  | zero => omega
  | succ fuel ih =>
    cases es with
    | nil =>
      exact .pure ⟨by simp, within_mapBody hs.1 (fun _ => rfl) (fun _ => rfl) hs.2⟩
    | cons e es =>
      obtain ⟨m, rfl⟩ := hes.exists_succ
      have hm : m < fuel := Nat.lt_of_succ_lt_succ hm
      unfold runHandlers
      split
      · exact ih hs hes.1 hm
      · intro h
        have hx := execute_ends hrun hb hs.1 e h
        have hn (new : List Effect) (hn : (s.execute run e r h).1.2 = .splice new) :
            r.directory.EndsWithin s.body.routine.origin m (new ++ es) :=
          hes.2 new (execute_splices hn)
        rw [Tick.run_bind]
        generalize s.execute run e r h = x at hx hn
        obtain ⟨⟨s', next⟩, h'⟩ := x
        cases next with
        | proceed =>
          refine ih (hx.within hs (by simp)) ?_ hm h'
          rw [hx.routine]
          exact hes.1
        | splice new =>
          refine ih (hx.within hs (by simp)) ?_ hm h'
          rw [hx.routine]
          exact hn new rfl
        | hold =>
          refine ⟨by simp, within_mapBody hx.framed (fun _ => rfl) (fun _ => rfl) ?_⟩
          exact Directory.endsWithin_nil
        | halt why =>
          refine ⟨fun hw => hx.returns (congrArg Next.halt (Option.some.inj hw)), ?_⟩
          exact hx.within hs (by simp)

theorem settle_within (hs : s.Within r.directory n (k + 1)) (halt : Option Halt) :
    (s.settle halt).At r fun x => x.1.Within r.directory n (k + 1) := by
  unfold settle
  split
  next f =>
    have hf : (s.body.fail f).At r fun b =>
        b.depth = s.body.depth ∧ b.routine = s.body.routine ∧ b.work = [] :=
      .after _ fun _ => .pure ⟨rfl, rfl, rfl⟩
    exact .bind hf fun b hb => .pure (hs.changed_body hb.1 hb.2.1 (.inr hb.2.2))
  next => exact .pure hs

theorem settle_ends {x : Sequence × Option Halt} (hx : Ended r n (k + 1) x) :
    (x.1.settle x.2).At r (Ended r n (k + 1)) := by
  intro h
  refine ⟨?_, settle_within hx.within x.2 h⟩
  rw [x.1.settle_halt x.2 r h]
  exact hx.returns

/-- By induction on how deep handlers may stop others: on each level only those below are
stopped. -/
theorem runStopHandlers_ends (hb : r.directory.BoundsLoops n) (hf : n < r.fuel) (depth : Nat) :
    ∀ k ≤ depth, EndsAt (runStopHandlers depth) r n k := by
  induction depth with
  | zero =>
    intro k hk s hs
    obtain ⟨j, rfl⟩ := hs.exists_succ
    omega
  | succ depth ih =>
    intro k hk s hs
    obtain ⟨k, rfl⟩ := hs.exists_succ
    have hrun : ∀ j ≤ k, EndsAt (runStopHandlers depth) r n j := fun j hj => ih j (by omega)
    refine .read (.bind (runHandlers_ends hrun hb hs hs.1.routine.onStop hf) fun x hx => ?_)
    exact settle_ends hx

theorem stop_ends (hr : r.Affords n k) (hs : s.Within r.directory n k) :
    s.stop.At r (Ended r n k) := by
  have hf : n < r.fuel := by have := hr.turns; omega
  refine .read (stopWith_ends (fun j hj => ?_) s hs)
  exact runStopHandlers_ends hr.bound hf r.fuel j (Nat.le_trans hj hr.levels)

end Handlers

section Draining

variable {h : Host} {s' : Sequence} {event : DrainEvent}

theorem takeHead_framed (hs : s.Framed r.directory n (k + 1) (Within r.directory n k))
    (head : Pending) (rest : List Pending) :
    (s.takeHead head rest).Framed r.directory n (k + 1) (Within r.directory n k) :=
  hs.changed (s.later_takeHead head rest).body.depth (s.later_takeHead head rest).body.routine
    hs.children

/-- A turn of the draining loop ends, and keeps the bounds. -/
theorem Drains.ends (hrun : ∀ j ≤ k, EndsAt run r n j) (hb : r.directory.BoundsLoops n)
    (hs : s.Framed r.directory n (k + 1) (Within r.directory n k))
    (hd : s.Drains run r h s' event) : event.halt? ≠ some .outOfFuel ∧
      s'.Framed r.directory n (k + 1) (Within r.directory n k) := by
  have ran {head : Pending} {rest : List Pending} {x : Sequence × Next}
      (done : ((s.takeHead head rest).execute run head.effect r h).1 = x) :
      Executed r n k (s.takeHead head rest) x :=
    done ▸ execute_ends hrun hb (takeHead_framed hs head rest) head.effect h
  have mapped {q : Sequence} (hq : q.Framed r.directory n (k + 1) (Within r.directory n k))
      {f : SequenceBody → SequenceBody} (hf : ∀ b : SequenceBody, b.Later (f b)) :
      (q.mapBody f).Framed r.directory n (k + 1) (Within r.directory n k) := by
    cases q with
    | mk body children => exact hq.changed (hf body).depth (hf body).routine hq.children
  have later {b : SequenceBody} (hl : s.body.Later b) := hs.changed hl.depth hl.routine hs.children
  cases hd with
  | blocked => exact ⟨by simp [DrainEvent.halt?], mapped hs fun _ => .of_eq rfl rfl rfl rfl rfl rfl⟩
  | dry | requeued => exact ⟨by simp [DrainEvent.halt?], later s.body.later_requeued⟩
  | skipped => exact ⟨by simp [DrainEvent.halt?], mapped hs fun _ => .of_eq rfl rfl rfl rfl rfl rfl⟩
  | waiting head rest => exact ⟨by simp [DrainEvent.halt?], later (s.body.later_charge head rest)⟩
  | ran _ _ _ _ _ _ _ done => exact ⟨by simp [DrainEvent.halt?], (ran done).framed⟩
  | spliced _ _ _ _ _ _ _ _ done =>
    refine ⟨by simp [DrainEvent.halt?], mapped (ran done).framed fun _ => ?_⟩
    exact .of_eq rfl rfl rfl rfl rfl rfl
  | held _ _ _ _ _ _ _ done =>
    refine ⟨by simp [DrainEvent.halt?], mapped (ran done).framed fun _ => ?_⟩
    exact .of_eq rfl rfl rfl rfl rfl rfl
  | halted _ _ _ _ _ _ _ _ done =>
    refine ⟨fun hw => (ran done).returns (congrArg Next.halt (Option.some.inj hw)), ?_⟩
    exact (ran done).framed

/-- When the loop does not go round again, it leaves at most what it found. -/
theorem Drains.work_of_ends (hd : s.Drains run r h s' event) (hg : event.goesOn = false) :
    s'.body.work = s.body.work ∨ ∃ e, s.body.work = e :: s'.body.work := by
  cases hd with
  | blocked => exact .inl (by rw [body_mapBody]; rfl)
  | dry _ empty done =>
    have hn : s.body.requeued.1.queue = [] := SequenceBody.queue_of_requeued_dry done empty
    exact .inl (by rw [body_mk, SequenceBody.work, SequenceBody.work, hn, empty])
  | waiting head rest _ queue => exact .inl (s.body.charge_work head rest queue)
  | held head rest _ _ queue _ _ done =>
    refine .inl ?_
    have hq := execute_queue done
    rw [SequenceBody.work_of_queue queue, SequenceBody.work, body_mapBody,
      SequenceBody.capBudget, hq]
    rfl
  | halted head rest _ _ _ queue _ _ done =>
    refine .inr ⟨head.effect, ?_⟩
    have hq := execute_queue done
    rw [SequenceBody.work_of_queue queue, SequenceBody.work, hq]
    rfl
  | _ => cases hg

/-- Each turn lowers what a loop may still come to, whatever is drawn. -/
theorem GoesOn.bounded (hg : s.GoesOn run r h s' event)
    (hr : s.body.routine.EndsWithin r.directory n) {m : Nat} (hm : m ≤ n)
    (hw : r.directory.EndsWithin s.body.routine.origin m s.body.work) :
    ∃ m' ≤ n, r.directory.EndsWithin s.body.routine.origin m' s'.body.work ∧
      m' + s'.body.toTakeUp (fun _ => n) < m + s.body.toTakeUp fun _ => n := by
  cases hg with
  | requeued es list empty work less =>
    have hl := less fun _ => n
    refine ⟨n, Nat.le_refl n, ?_, by omega⟩
    rw [work]
    rcases list with rfl | rfl
    · exact hr.onComplete
    · exact hr.effects
  | passed e marks work =>
    rw [work] at hw
    obtain ⟨m, rfl⟩ := hw.exists_succ
    refine ⟨m, by omega, hw.1, ?_⟩
    rw [SequenceBody.toTakeUp_of_marks marks]
    omega
  | spliced e rest new before _ marks routine work work' done =>
    rw [work] at hw
    obtain ⟨m, rfl⟩ := hw.exists_succ
    have hn : r.directory.Splices s.body.routine.origin e new := routine ▸ execute_splices done
    refine ⟨m, by omega, work' ▸ hw.2 new hn, ?_⟩
    rw [SequenceBody.toTakeUp_of_marks marks]
    omega

/-- By induction on the fuel, of which every turn takes one where the bound falls by one. -/
theorem drain_ends (hrun : ∀ j ≤ k, EndsAt run r n j) (hb : r.directory.BoundsLoops n)
    {m fuel : Nat} (hm : m ≤ n)
    (hs : s.Framed r.directory n (k + 1) (Within r.directory n k))
    (hw : r.directory.EndsWithin s.body.routine.origin m s.body.work)
    (hf : m + s.body.toTakeUp (fun _ => n) < fuel) :
    (s.drain run fuel).At r (Ended r n (k + 1)) := by
  induction fuel generalizing m s with
  | zero => omega
  | succ fuel ih =>
    intro h
    have hd := s.drainStep_drains run r h
    obtain ⟨hn, hs'⟩ := hd.ends hrun hb hs
    rw [drain_succ]
    cases hg : (s.drainStep run r h).1.2.goesOn with
    | true =>
      obtain ⟨m', hm', hw', hlt⟩ := (hd.goesOn hg).bounded hs.routine hm hw
      exact ih hm' hs' (hd.routine_eq ▸ hw') (by omega) _
    | false =>
      refine ⟨hn, hs', ?_⟩
      change r.directory.EndsWithin (s.drainStep run r h).1.1.body.routine.origin n
        (s.drainStep run r h).1.1.body.work
      rw [hd.routine_eq]
      rcases hd.work_of_ends hg with he | ⟨e, he⟩
      · rw [he]
        exact hw.mono hm
      · rw [he] at hw
        obtain ⟨m, rfl⟩ := hw.exists_succ
        exact hw.1.mono (by omega)

end Draining

end Sequence
end EffectMachine
