import EffectMachine.Proofs.Sequence.LoopEnds
import EffectMachine.Proofs.Sequence.Stopping

namespace EffectMachine

theorem Draw.below_one (g : Rng) : (Draw.below 1 g).1 = 0 := by
  have hw (x : UInt32) : x % 1 = 0 := UInt32.toNat_inj.mp (by simp)
  change ((Rng.mix g.state) % 1).toInt32 = 0
  rw [hw]
  rfl

namespace Sequence

variable {r : Surroundings} {n k : Nat} {run : StopHandlers Tick} {s : Sequence}

section Ticks

variable {m : Moment} {elapsed : Scalar}

theorem toTakeUp_le (s : SequenceBody) (n : Nat) : s.toTakeUp (fun _ => n) ≤ 2 * n + 2 := by
  unfold SequenceBody.toTakeUp
  dsimp only
  split <;> split <;> omega

theorem drain_ends_of_affords (hr : r.Affords n k) (hs : s.Within r.directory n k) :
    (s.drain (runStopHandlers r.fuel) r.fuel).At r (Ended r n k) := by
  obtain ⟨k, rfl⟩ := hs.exists_succ
  have hturns := hr.turns
  have hlevels := hr.levels
  have hlists := toTakeUp_le s.body n
  refine drain_ends (fun j hj => ?_) hr.bound (Nat.le_refl n) hs.1 hs.2 (by omega)
  exact runStopHandlers_ends hr.bound (by omega) r.fuel j (by omega)

theorem earn_dropEnded_within (hs : s.Within r.directory n k) (elapsed : Scalar) :
    (s.dropEnded.earn elapsed).Within r.directory n k := by
  obtain ⟨k, rfl⟩ := hs.exists_succ
  exact hs.changed rfl rfl (.inl rfl) fun c hc => hs.1.children c (List.mem_filter.mp hc).1

theorem advanceSelf_within (hr : r.Affords n k) (hs : s.Within r.directory n k) :
    (s.advanceSelf elapsed).At r fun x => x.1.Within r.directory n k := by
  refine .read (.bind (drain_ends_of_affords hr (earn_dropEnded_within hs elapsed)) fun x hx => ?_)
  obtain ⟨k, rfl⟩ := hs.exists_succ
  dsimp only
  split
  · exact settle_within hx.within x.2
  · refine .bind (x.1.advanceOwned_emitters elapsed).at fun y hy => ?_
    obtain ⟨es, he⟩ := hy
    refine settle_within ?_ y.2
    rw [he]
    exact hx.within.changed_body rfl rfl (.inl rfl)

/-- Children stay within their bounds in a tick if each does. -/
theorem advanceChildren_within
    (hrun : ∀ c : Sequence, c.Within r.directory n k →
      (c.advance elapsed).At r fun x => x.1.Within r.directory n k)
    (parent : ResourceId) (cs : List Sequence) (hcs : ∀ c ∈ cs, c.Within r.directory n k) :
    (advanceChildren parent elapsed cs).At r fun x => ∀ c ∈ x.1, c.Within r.directory n k := by
  induction cs with
  | nil => exact .pure hcs
  | cons c cs ih =>
    obtain ⟨hc, hcs⟩ := List.forall_mem_cons.mp hcs
    unfold advanceChildren
    refine .bind (hrun c hc) fun x hx => ?_
    have rest : (advanceChildren parent elapsed cs >>= fun y =>
        pure (x.1 :: y.1, y.2)).At r fun y => ∀ c ∈ y.1, c.Within r.directory n k :=
      .bind (ih hcs) fun y hy => .pure (List.forall_mem_cons.mpr ⟨hx, hy⟩)
    dsimp only
    split
    · exact .pure (List.forall_mem_cons.mpr ⟨hx, hcs⟩)
    · exact .after _ fun _ => rest
    · exact rest

/-- A tick keeps a sequence and all below it within their bounds. -/
theorem advance_within (hr : r.Affords n k) (hs : s.Within r.directory n k) (elapsed : Scalar) :
    (s.advance elapsed).At r fun x => x.1.Within r.directory n k := by
  induction k generalizing s with
  | zero => exact hs.elim
  | succ k ih =>
    have below : r.Affords n k := ⟨hr.bound, Nat.le_of_succ_le hr.levels, hr.turns⟩
    cases s with
    | mk body children =>
      unfold Sequence.advance
      split
      · exact .pure hs
      · refine .bind (advanceChildren_within (fun c hc => ih below hc) body.routine.id children
          hs.1.children) fun x hx => ?_
        have hh : (mk { body with refilled := false } x.1).Within r.directory n (k + 1) :=
          hs.changed rfl rfl (.inl rfl) hx
        dsimp only
        split
        · exact .pure hh
        · exact advanceSelf_within hr hh

theorem ready_within (hr : m.surroundings.Affords n k)
    (hs : s.Within m.surroundings.directory n k) :
    (s.ready m).Within m.surroundings.directory n k := by
  obtain ⟨k, rfl⟩ := hs.exists_succ
  have below : m.surroundings.Affords n k := ⟨hr.bound, Nat.le_of_succ_le hr.levels, hr.turns⟩
  have hc := advanceChildren_within (fun c hc => advance_within below hc m.elapsed)
    s.body.routine.id s.children hs.1.children m.host
  have hh : (mk { s.body with refilled := false } (s.movedChildren m).1.1).Within
      m.surroundings.directory n (k + 1) := hs.changed rfl rfl (.inl rfl) hc
  exact earn_dropEnded_within hh m.elapsed

theorem drained_ends (hr : m.surroundings.Affords n k)
    (hs : s.Within m.surroundings.directory n k) :
    (s.drained m).1.2 ≠ some .outOfFuel :=
  (drain_ends_of_affords hr (ready_within hr hs) _).returns

def EmittersRunOut (s : Sequence) (m : Moment) : Prop :=
  ((s.drained m).1.1.advanceOwned m.elapsed m.surroundings (s.drained m).2).1.2 = some .outOfFuel

/-- If the children run out of fuel, one of them did in its own tick. -/
theorem child_of_outOfFuel {parent : ResourceId} {cs : List Sequence} {h : Host}
    (hx : (advanceChildren parent elapsed cs r h).1.2 = some .outOfFuel) :
    ∃ c ∈ cs, ∃ h', (c.ticked ⟨elapsed, r, h'⟩).1.2 = some .outOfFuel := by
  induction cs generalizing h with
  | nil => cases hx
  | cons c cs ih =>
    rw [advanceChildren, Tick.run_bind] at hx
    cases hc : (c.advance elapsed r h).1.2 with
    | none =>
      simp only [hc, Tick.run_bind] at hx
      obtain ⟨x, hm, hx⟩ := ih hx
      exact ⟨x, List.mem_cons_of_mem _ hm, hx⟩
    | some why =>
      cases why with
      | outOfFuel => exact ⟨c, List.mem_cons_self, h, hc⟩
      | fault f =>
        simp only [hc, Tick.run_bind] at hx
        obtain ⟨x, hm, hx⟩ := ih hx
        exact ⟨x, List.mem_cons_of_mem _ hm, hx⟩

/-- With fuel for its loops, a tick can run out of it only among the particles. -/
theorem emittersRunOut_of_ticked {r : Surroundings} {elapsed : Scalar} (hr : r.Affords n k)
    (hs : s.Within r.directory n k) {h : Host}
    (hx : (s.ticked ⟨elapsed, r, h⟩).1.2 = some .outOfFuel) :
    ∃ path q h', s.at? path = some q ∧ q.EmittersRunOut ⟨elapsed, r, h'⟩ := by
  induction k generalizing s h with
  | zero => exact hs.elim
  | succ k ih =>
    have below : r.Affords n k := ⟨hr.bound, Nat.le_of_succ_le hr.levels, hr.turns⟩
    cases hf : s.isFailed with
    | true =>
      obtain ⟨f, hf⟩ := isFailed_eq_true.mp hf
      rw [ticked_of_failed hf] at hx
      cases hx
    | false =>
      cases hc : (s.movedChildren ⟨elapsed, r, h⟩).1.2 with
      | some why =>
        rw [ticked_of_children_halt hf hc] at hx
        cases hx
        -- Moving the children gives up only where one of them did.
        obtain ⟨c, hm, h', hx⟩ := child_of_outOfFuel hc
        obtain ⟨path, q, h'', hq, hx⟩ := ih below (hs.1.children c hm) hx
        obtain ⟨i, hi⟩ := List.getElem?_of_mem hm
        exact ⟨i :: path, q, h'', by simpa [hi] using hq, hx⟩
      | none =>
        -- Its own loop has fuel enough, so what is left are its emitters.
        obtain ⟨es, h', ht⟩ := ticked_settles hf hc
        have hd := drained_ends (m := ⟨elapsed, r, h⟩) hr hs
        rw [ht, settle_halt _ _ _ _, tickHalt] at hx
        refine ⟨[], s, h, rfl, ?_⟩
        cases hw : (s.drained ⟨elapsed, r, h⟩).1.2 with
        | none => rwa [hw] at hx
        | some why =>
          rw [hw] at hx
          exact absurd (hw.trans hx) hd

/-- What a sequence is called for in a tick comes to an end: its own loop, those of a stop, and the
whole tick, but for its particles. -/
structure Concludes (s : Sequence) (m : Moment) : Prop where
  drain : (s.drained m).1.2 ≠ some .outOfFuel
  stop : (s.stop m.surroundings m.host).1.2 ≠ some .outOfFuel
  tick : (s.ticked m).1.2 = some .outOfFuel →
    ∃ path q h, s.at? path = some q ∧ q.EmittersRunOut ⟨m.elapsed, m.surroundings, h⟩

theorem concludes_of_within (hr : m.surroundings.Affords n k)
    (hs : s.Within m.surroundings.directory n k) : s.Concludes m where
  drain := drained_ends hr hs
  stop := (stop_ends hr hs m.host).returns
  tick := emittersRunOut_of_ticked hr hs

end Ticks

/-- A tick with some directory, and at least so much fuel. -/
structure Moment.Offers (m : Moment) (d : Directory) (fuel : Nat) : Prop where
  directory : m.surroundings.directory = d
  fuel : fuel ≤ m.surroundings.fuel

/-- Over a run with enough fuel a sequence stays within its bounds. -/
theorem after_within {d : Directory} {n fuel : Nat}
    (ha : ∀ m : Moment, m.Offers d fuel → m.surroundings.Affords n n) {s : Sequence}
    {ms : List Moment} (hm : ∀ m ∈ ms, m.Offers d fuel) (hs : s.Within d n n) :
    (s.after ms).Within d n n := by
  induction ms generalizing s with
  | nil => exact hs
  | cons m ms ih =>
    obtain ⟨hm, hms⟩ := List.forall_mem_cons.mp hm
    rw [← hm.directory] at hs
    have hw := advance_within (ha m hm) hs m.elapsed m.host
    exact ih hms (hm.directory ▸ hw)

/-- Where no routine leads back to itself, some fuel is enough for a sequence and for all that it
ever starts. -/
theorem concludes_of_acyclic {d : Directory} (hd : d.IsAcyclic) (s : Sequence) :
    ∃ fuel, ∀ ms, (∀ m ∈ ms, m.Offers d fuel) → ∀ path q, (s.after ms).at? path = some q →
      ∀ m, m.Offers d fuel → q.Concludes m := by
  obtain ⟨a, ha⟩ := s.exists_within hd
  obtain ⟨b, hb⟩ := hd.exists_boundsLoops
  have hs : s.Within d (a + b) (a + b) := ha.mono (by omega) (by omega)
  have affords (m : Moment) (hm : m.Offers d (3 * (a + b) + 3)) :
      m.surroundings.Affords (a + b) (a + b) := by
    have hf := hm.fuel
    exact ⟨hm.directory ▸ hb.mono (by omega), by omega, by omega⟩
  refine ⟨3 * (a + b) + 3, fun ms hms path q hq m hm => ?_⟩
  have hw := (after_within affords hms hs).at? hq
  rw [← hm.directory] at hw
  exact concludes_of_within (affords m hm) hw

/-- A loop goes round without an end exactly when it chooses at random without an end. Where no
routine leads back to itself nothing does, in any tick or stop of a sequence and of all that it
ever starts. -/
theorem loops_end (d : Directory) :
    (∀ run r (s : Sequence) h, Stops (fun n => s.drainTurns run n r h) ↔
      ChoosesFinitely fun n => s.drainTurns run n r h) ∧
    (∀ run r es s h, Stops (fun n => handlerTurns run n es s r h) ↔
      ChoosesFinitely fun n => handlerTurns run n es s r h) ∧
    (d.IsAcyclic → ∀ s : Sequence, ∃ fuel, ∀ ms, (∀ m ∈ ms, m.Offers d fuel) →
      ∀ path q, (s.after ms).at? path = some q → ∀ m, m.Offers d fuel → q.Concludes m) :=
  ⟨fun run r s h => (drainTurns_goesDown run r).stops_iff (s, h),
    fun run r es s h => (handlerTurns_goesDown run r).stops_iff (es, s, h),
    fun hd s => concludes_of_acyclic hd s⟩

def choiceOf (choices : List ResourceId) : Effect := ⟨0, 0, .randomRoutine choices⟩

/-- A routine that only makes one choice, in its main list and when it is stopped. -/
def choosing (id : ResourceId) (choices : List ResourceId) : Routine :=
  ⟨id, .root, [choiceOf choices], [], [choiceOf choices], false⟩

def directoryOf (routines : List Routine) : Directory :=
  ⟨routines.map fun r => (⟨r.origin, .routine, r.id⟩, .routine r)⟩

def running (r : Routine) : Sequence := mk (.fresh ⟨0⟩ r .weather 1 0) []

theorem chooses_directoryOf {routines : List Routine} {origin : ResourcePath}
    {id id' : ResourceId} (h : (directoryOf routines).Chooses origin id id') :
    ∃ r ∈ routines, r.id = id ∧
      ∃ e ∈ r.effects, ∃ choices, e.action = .randomRoutine choices ∧ id' ∈ choices := by
  obtain ⟨r, hr, he⟩ := h
  obtain ⟨path, hm⟩ := Directory.exists_entry_of_routine? hr
  obtain ⟨r', hr', hk⟩ := List.mem_map.mp hm
  simp only [Prod.mk.injEq, ResourceKey.mk.injEq, Resource.routine.injEq] at hk
  obtain ⟨⟨_, _, hid⟩, rfl⟩ := hk
  exact ⟨r', hr', hid, he⟩

/-- A routine that chooses one that has nothing to choose from: the tick takes two turns, and one
more that finds nothing. -/
theorem choosing_other_concludes :
    let d := directoryOf [choosing ⟨1, 0, 0, 0⟩ [⟨2, 0, 0, 0⟩], choosing ⟨2, 0, 0, 0⟩ []]
    let s := running (choosing ⟨1, 0, 0, 0⟩ [⟨2, 0, 0, 0⟩])
    d.IsAcyclic ∧
      (∃ fuel, let m : Moment := ⟨1, { Surroundings.bare with directory := d, fuel }, .fresh⟩
        s.Concludes m ∧ (s.after [m]).Concludes m) ∧
      (s.tickTurns ⟨1, { Surroundings.bare with directory := d }, .fresh⟩).map
        (·.event.isChoice) = [true, true, false] := by
  intro d s
  have step {origin id id'} (h : d.Chooses origin id id') :
      id = ⟨1, 0, 0, 0⟩ ∧ id' = ⟨2, 0, 0, 0⟩ := by
    obtain ⟨r, hr, rfl, e, he, choices, ha, hid⟩ := chooses_directoryOf h
    simp only [List.mem_cons, List.not_mem_nil, or_false] at hr
    rcases hr with rfl | rfl <;> simp only [choosing, List.mem_singleton] at he <;> subst he <;>
      cases ha
    · exact ⟨rfl, List.mem_singleton.mp hid⟩
    · cases hid
  have chain {origin id id'} (h : Relation.TransGen (d.Chooses origin) id id') :
      id = ⟨1, 0, 0, 0⟩ ∧ id' = ⟨2, 0, 0, 0⟩ := by
    induction h with
    | single h => exact step h
    | tail _ h ih => exact ⟨ih.1, (step h).2⟩
  have hd : d.IsAcyclic := fun origin id h =>
    absurd ((chain h).1.symm.trans (chain h).2) (by decide)
  obtain ⟨fuel, hf⟩ := (loops_end d).2.2 hd s
  have hm : Moment.Offers ⟨1, { Surroundings.bare with directory := d, fuel }, .fresh⟩ d fuel :=
    ⟨rfl, Nat.le_refl fuel⟩
  refine ⟨hd, ⟨fuel, hf [] (by simp) [] s rfl _ hm, ?_⟩, by decide +kernel⟩
  exact hf [_] (by simpa using hm) [] _ rfl _ hm

section Choosing

/-- A single choice is made whatever is drawn. -/
theorem execute_single_choice {e : Effect} {id : ResourceId} {chosen : Routine}
    (he : e.action = .randomRoutine [id])
    (hf : r.directory.choice? s.body.routine.origin id = some chosen) :
    (s.execute run e).At r fun x => x = (s, .splice chosen.effects) := by
  have hc : (s.body.chooseRoutine [id]).At r fun flow => flow = .splice chosen.effects := by
    have hd : (Tick.draw (Draw.below (Int32.ofNat 1))).At r fun index => index = 0 :=
      fun h => Draw.below_one h.rng
    unfold SequenceBody.chooseRoutine
    rw [if_neg (by simp)]
    refine .bind hd fun index hi => .read ?_
    subst hi
    have hf : r.directory.routine? (([id][(0 : Int32).toInt.toNat]?).getD ResourceId.none)
        (.ancestors s.body.routine.origin) = some chosen := hf
    rw [hf]
    exact .pure rfl
  have hp : (s.body.perform e).At r fun x => x = (s.body, .splice chosen.effects) := by
    have ho : SideEffect.of? r.scene s.body.binding e = none := by
      cases e
      cases he
      rfl
    refine .read ?_
    rw [ho]
    unfold SequenceBody.steer
    rw [he]
    exact .bind hc fun flow hf => hf ▸ .pure rfl
  refine .bind hp fun x hx => ?_
  subst hx
  exact .pure (by rw [mk_eta])

/-- A loop whose turns leave the sequence as it was has no end. -/
theorem drain_of_unmoved
    (hs : (s.drainStep run).At r fun x => x.1 = s ∧ x.2.goesOn = true) (n : Nat) (h : Host) :
    (s.drain run n r h).1.2 = some .outOfFuel := by
  induction n generalizing h with
  | zero => rfl
  | succ n ih =>
    obtain ⟨hq, hg⟩ := hs h
    rw [drain_succ, if_pos hg, hq]
    exact ih _

/-- Without a delay, a choice of what waits anyway leaves the queue as it was. -/
theorem drainStep_single_choice {e : Effect} {id : ResourceId} {chosen : Routine}
    (he : e.action = .randomRoutine [id])
    (hf : r.directory.choice? s.body.routine.origin id = some chosen)
    (hc : chosen.effects = [e]) (free : s.body.blockers = [])
    (queue : s.body.queue = [⟨e, false⟩]) (skips : s.skips e = false)
    (paid : ¬s.body.budget < 0)
    (delay : s.body.budget - Scalar.ofNat e.delay.toNat = s.body.budget) :
    (s.drainStep run).At r fun x => x.1 = s ∧ x.2.goesOn = true := by
  have hb : (s.body.charge ⟨e, false⟩ []).budget = s.body.budget := delay
  have ht : s.takeHead ⟨e, false⟩ [] = mk { s.body with queue := [] } s.children := by
    simp only [takeHead, SequenceBody.charge, Bool.false_eq_true, if_false, delay]
  rw [s.drainStep_of_paid run free queue skips (by rwa [hb]), ht]
  intro h
  rw [Tick.run_map, execute_single_choice (s := mk { s.body with queue := [] } s.children) he hf h,
    hc]
  obtain ⟨body, children⟩ := s
  refine ⟨?_, rfl⟩
  have queue : body.queue = [⟨e, false⟩] := queue
  simp only [concluded, mapBody, body_mk, children_mk, SequenceBody.pendingOf, List.map_cons,
    List.map_nil, List.append_nil, ← queue]

theorem runHandlers_of_unmoved {e : Effect} (hk : s.skips e = false)
    (hx : (s.execute run e).At r fun x => x = (s, .splice [e])) (n : Nat) (h : Host) :
    (runHandlers run n [e] s r h).1.2 = some .outOfFuel := by
  induction n generalizing h with
  | zero => rfl
  | succ n ih =>
    rw [runHandlers, if_neg (by simp [hk]), Tick.run_bind, hx h]
    exact ih _

/-- A routine that chooses itself goes round for ever, in a tick and in a stop. -/
theorem choosing_itself_never_ends :
    let d := directoryOf [choosing ⟨1, 0, 0, 0⟩ [⟨1, 0, 0, 0⟩]]
    let s := running (choosing ⟨1, 0, 0, 0⟩ [⟨1, 0, 0, 0⟩])
    ∀ fuel h, let r := { Surroundings.bare with directory := d, fuel }
      (s.ticked ⟨1, r, h⟩).1.2 = some .outOfFuel ∧ (s.stop r h).1.2 = some .outOfFuel := by
  intro d s fuel h r
  have found : d.choice? .root ⟨1, 0, 0, 0⟩ = some (choosing ⟨1, 0, 0, 0⟩ [⟨1, 0, 0, 0⟩]) := by
    decide +kernel
  -- There is no delay to pay, so every turn finds the budget of the tick as it was.
  have hs : (s.ready ⟨1, r, h⟩).body.budget = 0 + 1 * 1 := rfl
  have hd : (s.drained ⟨1, r, h⟩).1.2 = some .outOfFuel := by
    refine drain_of_unmoved (drainStep_single_choice rfl found rfl rfl rfl rfl ?_ ?_) fuel h
    · rw [hs]
      decide +kernel
    · rw [hs]
      decide +kernel
  refine ⟨?_, ?_⟩
  · by_contra hn
    exact drained_returns rfl hn hd
  · cases fuel with
    | zero => rfl
    | succ fuel =>
      have hx : ((mk s.body.halted []).execute (runStopHandlers fuel)
          (choiceOf [⟨1, 0, 0, 0⟩])).At r fun x =>
            x = (mk s.body.halted [], .splice (choosing ⟨1, 0, 0, 0⟩ [⟨1, 0, 0, 0⟩]).effects) :=
        execute_single_choice rfl found
      have hh := runHandlers_of_unmoved rfl hx (fuel + 1) h
      have hs : s.stop r h = runStopHandlers (fuel + 1) (mk s.body.halted []) r h := by
        rw [stop, Tick.run_read_bind, stopWith_of_live _ rfl, Tick.run_bind]
        rfl
      rw [hs, runStopHandlers, Tick.run_read_bind, Tick.run_bind, settle_halt _ _ _ _]
      exact hh

end Choosing

end Sequence
end EffectMachine
