import EffectMachine.Proofs.Sequence.Blockers

namespace EffectMachine.Sequence

variable {run : StopHandlers Tick} {r : Surroundings} {h : Host}

/-- In this turn an effect started a child that the sequence has to wait for. -/
structure Turn.Starts (t : Turn) (c : Sequence) : Prop where
  ran : ∃ e, t.event = .ran e ∧ e.action.blocks = true
  child : t.after.children = t.before.children ++ [c]

/-- A child that has to end first is among the blockers as soon as it is started. -/
theorem execute_starts {s s' c : Sequence} {e : Effect} (hb : e.action.blocks = true)
    (hx : (s.execute run e r h).1 = (s', .proceed)) (hc : s'.children = s.children ++ [c]) :
    c.body.id ∈ s'.body.blockers := by
  have ha := s.body.perform_awaits e r h
  have hd := s.body.perform_does e r h
  rw [execute, Tick.run_bind] at hx
  generalize s.body.perform e r h = x at ha hd hx
  obtain ⟨⟨body, flow⟩, h'⟩ := x
  cases flow with
  | spawned child =>
    cases hx
    obtain rfl : child = c := by simpa using hc
    have hblockers : body.blockers = _ := ha.2
    rw [body_mk, hblockers, if_pos hb]
    simp
  | proceed =>
    cases hx
    simp at hc
  | stopRoutine id =>
    rw [hd.action_of_stopRoutine] at hb
    cases hb
  | splice | hold | fault => cases hx

/-- A turn that starts such a child leaves it among the blockers. -/
theorem Drains.starts {s s' c : Sequence} {e : Effect} (hd : s.Drains run r h s' (.ran e))
    (hb : e.action.blocks = true) (hc : s'.children = s.children ++ [c]) :
    c.body.id ∈ s'.body.blockers := by
  cases hd with
  | ran _ _ _ _ _ _ _ done => exact execute_starts hb done hc
  | spliced _ _ _ _ _ _ _ _ done =>
    obtain ⟨choices, ha⟩ := action_of_execute_splice (congrArg Prod.snd done)
    rw [ha] at hb
    cases hb

/-- Whoever starts a child to wait for has it among its blockers. -/
theorem Turn.Starts.blocks {t : Turn} {c : Sequence} (hc : t.Starts c)
    (ht : (t.before.drainStep run r h).1 = (t.after, t.event)) :
    c.body.id ∈ t.after.body.blockers := by
  obtain ⟨e, he, hb⟩ := hc.ran
  have hd := t.before.drainStep_drains run r h
  rw [ht, he] at hd
  exact hd.starts hb hc.child

section Turns

theorem lastOf_append_cons (s : Sequence) (ts : List Turn) (t : Turn) (us : List Turn) :
    s.lastOf (ts ++ t :: us) = t.after.lastOf us := by
  induction ts generalizing s with
  | nil => rfl
  | cons u ts ih => exact ih u.after

/-- From any turn on, the turns are those of a loop that begins behind it. -/
theorem drainTurns_split {n : Nat} {s : Sequence} {ts us : List Turn} {t : Turn}
    (hs : s.drainTurns run n r h = ts ++ t :: us) :
    (t.before.drainStep run r t.host).1 = (t.after, t.event) ∧
      ∃ m h', us = t.after.drainTurns run m r h' := by
  induction n generalizing s h ts with
  | zero => simp [drainTurns] at hs
  | succ n ih =>
    rw [drainTurns] at hs
    cases ts with
    | nil =>
      split at hs
      · obtain ⟨rfl, rfl⟩ := List.cons.inj hs
        exact ⟨rfl, n, _, rfl⟩
      · obtain ⟨rfl, rfl⟩ := List.cons.inj hs
        exact ⟨rfl, 0, h, rfl⟩
    | cons u ts =>
      split at hs
      · exact ih (List.cons.inj hs).2
      · simp at hs

/-- A loop that finds something to wait for takes one turn, which runs nothing. -/
theorem drainTurns_of_blocked (run : StopHandlers Tick) (n : Nat) {s : Sequence}
    (r : Surroundings) (h : Host) (hb : s.body.blockers ≠ []) :
    (∀ t ∈ s.drainTurns run n r h, t.event = .blocked) ∧
      (s.lastOf (s.drainTurns run n r h)).body.blockers = s.body.blockers := by
  cases n with
  | zero => exact ⟨by simp [drainTurns], rfl⟩
  | succ n =>
    rw [drainTurns, s.drainStep_of_blocked run hb]
    exact ⟨by simp [DrainEvent.goesOn], by simp [DrainEvent.goesOn, lastOf, SequenceBody.capBudget]⟩

/-- Behind the turn that starts a child to wait for, nothing runs any more. -/
theorem drainTurns_of_starts {n : Nat} {s c : Sequence} {ts us : List Turn} {t : Turn}
    (hs : s.drainTurns run n r h = ts ++ t :: us) (hc : t.Starts c) :
    (∀ u ∈ us, u.event = .blocked) ∧
      c.body.id ∈ (s.lastOf (s.drainTurns run n r h)).body.blockers := by
  obtain ⟨ht, m, h', hu⟩ := drainTurns_split hs
  have hid := hc.blocks ht
  obtain ⟨hall, hlast⟩ := drainTurns_of_blocked run m r h' (List.ne_nil_of_mem hid)
  rw [hs, lastOf_append_cons, hu, hlast]
  exact ⟨hall, hid⟩

end Turns

section Ticks

variable {s : Sequence} {m : Moment} {id : SequenceId}

/-- A tick leaves the blockers that its last turn left, unless the sequence failed. -/
theorem ticked_blockers (hf : s.isFailed = false) (hc : (s.movedChildren m).1.2 = none) :
    (s.ticked m).1.1.isFailed = true ∨
      (s.ticked m).1.1.body.blockers = ((s.ready m).lastOf (s.tickTurns m)).body.blockers := by
  obtain ⟨es, h, ht⟩ := ticked_settles hf hc
  rw [drained_lastOf hf hc, ht]
  by_cases hh : ∃ f, s.tickHalt m = some (.fault f)
  · obtain ⟨f, hh⟩ := hh
    rw [hh]
    exact .inl (settle_fault_isFailed _ f _ _)
  · rw [settle_of_ne_fault _ fun f hx => hh ⟨f, hx⟩]
    exact .inr rfl

/-- A tick lets go of the children of a name: all that have it have ended. -/
structure LetsGo (s : Sequence) (m : Moment) (id : SequenceId) : Prop where
  running : s.isFailed = false
  moved : (s.movedChildren m).1.2 = none
  child : ∃ c ∈ (s.movedChildren m).1.1, c.body.id = id
  ended : ∀ c ∈ (s.movedChildren m).1.1, c.body.id = id →
    c.isFailed = true ∨ c.isComplete = true
  gone : ∀ c ∈ (s.ready m).children, c.body.id ≠ id

/-- A child still waited for, unless the sequence has failed. -/
def IsHeldBy (s : Sequence) (id : SequenceId) : Prop :=
  s.isFailed = true ∨ id ∈ s.body.blockers

/-- Whoever starts a child to wait for runs nothing more in the tick, and goes on waiting. -/
theorem ticked_of_starts {ts us : List Turn} {t : Turn} {c : Sequence}
    (hs : s.tickTurns m = ts ++ t :: us) (hc : t.Starts c) :
    (∀ u ∈ us, u.event = .blocked) ∧ (s.ticked m).1.1.IsHeldBy c.body.id := by
  obtain ⟨hf, hm⟩ : s.isFailed = false ∧ (s.movedChildren m).1.2 = none := by
    cases hf : s.isFailed with
    | true => simp [tickTurns, hf] at hs
    | false =>
      cases hm : (s.movedChildren m).1.2 with
      | some why => simp [tickTurns, hm] at hs
      | none => exact ⟨rfl, rfl⟩
  rw [tickTurns_of_children hf hm] at hs
  obtain ⟨hall, hid⟩ := drainTurns_of_starts hs hc
  rw [← tickTurns_of_children hf hm] at hid
  refine ⟨hall, (ticked_blockers hf hm).imp_right fun hb => ?_⟩
  rw [hb]
  exact hid

/-- Children keep their names in a tick. -/
theorem advanceChildren_ids (parent : ResourceId) (elapsed : Scalar) (cs : List Sequence) :
    (advanceChildren parent elapsed cs).Always fun x =>
      x.1.map (·.body.id) = cs.map (·.body.id) := by
  induction cs with
  | nil => exact .pure rfl
  | cons c cs ih =>
    unfold advanceChildren
    refine .bind (P := fun x => x.1.body.id = c.body.id)
      (fun r h => c.ticked_id ⟨elapsed, r, h⟩) fun x hx => ?_
    have rest {ys : List Sequence} (hy : ys.map (·.body.id) = cs.map (·.body.id)) :
        (x.1 :: ys).map (·.body.id) = (c :: cs).map (·.body.id) := by
      simp only [List.map_cons, hx, hy]
    dsimp only
    split
    · exact .pure (rest rfl)
    · exact .after _ fun _ => .bind ih fun y hy => .pure (rest hy)
    · exact .bind ih fun y hy => .pure (rest hy)

/-- Where all children of a name are let go, they have ended; the others wait on. -/
theorem letsGo_of_gone (ho : s.OwnsBlockers) (hid : id ∈ s.body.blockers)
    (hf : s.isFailed = false) (hm : (s.movedChildren m).1.2 = none)
    (hg : ∀ c ∈ (s.ready m).children, c.body.id ≠ id) : s.LetsGo m id where
  running := hf
  moved := hm
  child := by
    obtain ⟨c, hc, hn⟩ := ho id hid
    have hids := advanceChildren_ids s.body.routine.id m.elapsed s.children m.surroundings m.host
    have hmem : id ∈ (s.movedChildren m).1.1.map (·.body.id) := by
      rw [movedChildren, hids]
      exact List.mem_map.mpr ⟨c, hc, hn⟩
    exact List.mem_map.mp hmem
  ended c hc hn := by
    refine Classical.byContradiction fun he => hg c (List.mem_filter.mpr ⟨hc, ?_⟩) hn
    simpa using he
  gone := hg

/-- A tick that does not let go of what a sequence waits for runs nothing of the sequence. -/
theorem ticked_of_held (ho : s.OwnsBlockers) (hid : s.IsHeldBy id) :
    s.LetsGo m id ∨
      (∀ t ∈ s.tickTurns m, t.event = .blocked) ∧ (s.ticked m).1.1.IsHeldBy id := by
  have hk := s.ticks m
  have hb (live : s.isFailed = false) : id ∈ s.body.blockers := hid.resolve_left (by simp [live])
  generalize hx : (s.ticked m).1 = x at hk ⊢
  generalize ht : s.tickTurns m = ts at hk ⊢
  cases hk with
  | failed f failed => exact .inr ⟨by simp, .inl failed⟩
  | cut why live => exact .inr ⟨by simp, .inr (hb live)⟩
  | settled es h live children =>
    -- A blocker goes only if no child of its name is left.
    by_cases hready : id ∈ (s.ready m).body.blockers
    case neg =>
      refine .inl (letsGo_of_gone ho (hb live) live children fun c hc hn => hready ?_)
      exact List.mem_filter.mpr ⟨hb live, List.any_eq_true.mpr ⟨c, hc, decide_eq_true hn⟩⟩
    obtain ⟨hall, hlast⟩ := drainTurns_of_blocked (runStopHandlers m.surroundings.fuel)
      m.surroundings.fuel m.surroundings (s.movedChildren m).2 (List.ne_nil_of_mem hready)
    rw [← tickTurns_of_children live children] at hall hlast
    refine .inr ⟨hall, ?_⟩
    rw [← hx]
    refine (ticked_blockers live children).imp_right fun hb => ?_
    rw [hb, hlast]
    exact hready

end Ticks

end EffectMachine.Sequence
