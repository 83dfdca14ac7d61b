import EffectMachine.Proofs.Sequence.Charges
import EffectMachine.Proofs.Sequence.Rates
import EffectMachine.Proofs.System.Waiting

namespace EffectMachine.Sequence

section Stops

theorem settle_queue (s : Sequence) (halt : Option Halt) :
    (s.settle halt).Always fun x => x.1.body.queue = [] ∨ s.SameWork x.1 := by
  unfold settle
  split
  · exact .bind (P := fun b : SequenceBody => b.queue = []) (.after _ fun _ => .pure rfl)
      fun b hb => .pure (.inl hb)
  · exact .pure (.inr (.refl s))

/-- A sequence that is told to stop drops its queue, unless it has ended before. -/
theorem stop_queue (s : Sequence) :
    s.stop.Always fun x => x.1.body.queue = [] ∨ s.SameWork x.1 := by
  cases s with
  | mk body children =>
    refine .after _ fun r => ?_
    unfold stopWith
    split
    · exact .pure (.inr (.refl _))
    · refine .after _ fun x => ?_
      dsimp only
      split
      · exact .pure (.inl rfl)
      · cases r.fuel with
        | zero => exact .pure (.inl rfl)
        | succ depth =>
          refine .after _ fun r' => .bind (runHandlers_queue _ _ _ _ rfl) fun y hy => ?_
          refine (settle_queue y.1 y.2).mono fun z hz => .inl ?_
          exact hz.elim id fun hs => hs.queue.trans hy

end Stops

section Visits

variable {s : Sequence}

/-- A tick leaves what waits as its last turn left it, or drops it. -/
theorem ticked_queue (s : Sequence) (m : Moment) : (s.ticked m).1.1.body.queue = [] ∨
    (s.lastOf (s.tickTurns m)).SameWork (s.ticked m).1.1 := by
  have hk := s.ticks m
  generalize s.tickTurns m = ts at hk ⊢
  generalize (s.ticked m).1 = x at hk ⊢
  cases hk with
  | failed => exact .inr (.refl s)
  | cut => exact .inr ⟨rfl, rfl⟩
  | settled es h live children =>
    have hl : (s.lastOf (s.tickTurns m)).SameWork (s.drained m).1.1 := by
      rw [← drained_lastOf live children]
      exact lastOf_sameWork (s.ready_sameWork m) _
    exact (settle_queue _ _ _ _).imp_right fun hs => hl.trans ⟨hs.queue, hs.control⟩

/-- So does every call. -/
theorem visited_queue (s : Sequence) (v : Visit) : (s.visited v).1.1.body.queue = [] ∨
    (s.lastOf (s.visitTurns v)).SameWork (s.visited v).1.1 := by
  obtain ⟨call, r, h⟩ := v
  cases call with
  | advance elapsed => exact s.ticked_queue ⟨elapsed, r, h⟩
  | stop => exact s.stop_queue r h
  | stopRoutine routine =>
    have hb := visited_body (s := s) (v := ⟨.stopRoutine routine, r, h⟩) rfl rfl
    exact .inr ⟨congrArg SequenceBody.queue hb, congrArg SequenceBody.control hb⟩

end Visits

namespace Register

/-- A call that drops the queue takes all entries with it. -/
def drop (x : Register) (s : Sequence) : Register :=
  if s.body.queue.isEmpty then { x with waiting := [] } else x

def visit (x : Register) (s : Sequence) (v : Visit) : Register :=
  ((s.visitTurns v).foldl turn x).drop (s.visited v).1.1

def after : Register → Sequence → List Visit → Register
  | x, _, [] => x
  | x, s, v :: vs => (x.visit s v).after (s.visited v).1.1 vs

def along : Register → List Turn → List (Register × Turn)
  | _, [] => []
  | x, t :: ts => (x, t) :: (x.turn t).along ts

/-- All turns of a run, each with the register that it finds. -/
def records : Register → Sequence → List Visit → List (Register × Turn)
  | _, _, [] => []
  | x, s, v :: vs => x.along (s.visitTurns v) ++ (x.visit s v).records (s.visited v).1.1 vs

/-- Between two turns: the register is true, and a head that was charged is not passed over. -/
structure Keeps (x : Register) (s : Sequence) : Prop where
  mirrors : x.Mirrors s.body.queue
  poised : s.Poised

variable {x : Register} {s s' : Sequence} {n : Nat}

theorem Keeps.of_sameWork (h : x.Keeps s) (hs : s.SameWork s') : x.Keeps s' :=
  ⟨hs.queue ▸ h.mirrors, h.poised.of_sameWork hs⟩

/-- By induction on the turns. -/
theorem Keeps.turns {ts : List Turn} (h : x.Keeps s) (hl : s.Linked ts) :
    (ts.foldl turn x).Keeps (s.lastOf ts) ∧
      ∀ y t, (y, t) ∈ x.along ts → y.Keeps t.before ∧ t.IsStep := by
  induction ts generalizing s x with
  | nil => exact ⟨h, by simp [along]⟩
  | cons t ts ih =>
    obtain ⟨rfl, hs, hl⟩ := hl
    obtain ⟨hk, hall⟩ := ih ⟨h.mirrors.turn hs.moves, hs.moves.poised h.poised⟩ hl
    refine ⟨hk, fun y u hm => ?_⟩
    rcases List.mem_cons.mp hm with hm | hm
    · cases hm
      exact ⟨h, hs⟩
    · exact hall y u hm

/-- A queue that is dropped leaves nothing to be followed. -/
theorem Keeps.dropped (h : x.Keeps s) (hq : s'.body.queue = []) : (x.drop s').Keeps s' := by
  rw [Register.drop, if_pos (List.isEmpty_iff.mpr hq)]
  exact ⟨⟨hq, by simp, h.mirrors.spent, .nil, h.mirrors.once⟩, poised_of_empty hq⟩

theorem Keeps.drop (h : x.Keeps s) : (x.drop s).Keeps s := by
  by_cases hq : s.body.queue = []
  · exact h.dropped hq
  · rw [Register.drop, if_neg (by simpa using hq)]
    exact h

/-- Within a call the turns follow on one another. -/
theorem linked_visitTurns (s : Sequence) (v : Visit) :
    ∃ s', s.SameWork s' ∧ s'.Linked (s.visitTurns v) := by
  unfold visitTurns
  cases v.moment? with
  | none => exact ⟨s, .refl s, trivial⟩
  | some m => exact ⟨s.ready m, s.ready_sameWork m, s.linked_tickTurns m⟩

/-- A call keeps the register true, and so does each of its turns. -/
theorem Keeps.visit (h : x.Keeps s) (v : Visit) : (x.visit s v).Keeps (s.visited v).1.1 ∧
    ∀ y t, (y, t) ∈ x.along (s.visitTurns v) → y.Keeps t.before ∧ t.IsStep := by
  obtain ⟨s', hs, hl⟩ := linked_visitTurns s v
  obtain ⟨hk, hall⟩ := (h.of_sameWork hs).turns hl
  refine ⟨?_, hall⟩
  rcases s.visited_queue v with hq | hw
  · exact hk.dropped hq
  · -- The turns end in the same place whether the tick or its draining is seen to begin them.
    have hk : (List.foldl turn x (s.visitTurns v)).Keeps (s.lastOf (s.visitTurns v)) := by
      generalize s.visitTurns v = ts at hk
      cases ts with
      | nil => exact h
      | cons => exact hk
    exact (hk.of_sameWork hw).drop

/-- By induction on the calls. -/
theorem Keeps.run (h : x.Keeps s) (vs : List Visit) : (x.after s vs).Keeps (s.afterVisits vs) ∧
    ∀ y t, (y, t) ∈ x.records s vs → y.Keeps t.before ∧ t.IsStep := by
  induction vs generalizing s x with
  | nil => exact ⟨h, by simp [records]⟩
  | cons v vs ih =>
    obtain ⟨hk, hturns⟩ := h.visit v
    obtain ⟨hk, hall⟩ := ih hk
    refine ⟨hk, fun y t hm => ?_⟩
    rcases List.mem_append.mp hm with hm | hm
    · exact hturns y t hm
    · exact hall y t hm

theorem Spared.foldl (h : x.Spared n) (ts : List Turn) : (ts.foldl Register.turn x).Spared n := by
  induction ts generalizing x with
  | nil => exact h
  | cons t ts ih => exact ih (h.turn t)

theorem Spared.drop (h : x.Spared n) (s : Sequence) : (x.drop s).Spared n := by
  unfold Register.drop
  split
  · exact ⟨⟨h.given, by simp⟩, h.uncharged⟩
  · exact h

theorem Spared.after (h : x.Spared n) (s : Sequence) (vs : List Visit) :
    (x.after s vs).Spared n := by
  induction vs generalizing x s with
  | nil => exact h
  | cons v vs ih => exact ih ((h.foldl _).drop _) _

theorem Spared.of_along {ts : List Turn} {y : Register} {t : Turn} (hm : (y, t) ∈ x.along ts)
    (h : (y.turn t).Spared n) : (ts.foldl Register.turn x).Spared n := by
  induction ts generalizing x with
  | nil => simp [along] at hm
  | cons u ts ih =>
    rcases List.mem_cons.mp hm with hm | hm
    · cases hm
      exact h.foldl ts
    · exact ih hm

/-- What leaves the queue uncharged in one turn of a run is not charged in it. -/
theorem Spared.of_records {vs : List Visit} {y : Register} {t : Turn}
    (hm : (y, t) ∈ x.records s vs) (h : (y.turn t).Spared n) : (x.after s vs).Spared n := by
  induction vs generalizing x s with
  | nil => simp [records] at hm
  | cons v vs ih =>
    rcases List.mem_append.mp hm with hm | hm
    · exact Spared.after ((Spared.of_along hm h).drop _) _ vs
    · exact ih hm

theorem begin_keeps (id : SequenceId) (routine : Routine) (binding : Binding) (rate : Scalar)
    (depth : UInt8) : (begin (Sequence.mk (.fresh id routine binding rate depth) [])).Keeps
      (.mk (.fresh id routine binding rate depth) []) := by
  refine ⟨⟨?_, fun e he => ?_, by simp [begin], entries_nodup _ _, .nil⟩,
    poised_of_uncharged fun p hp => pendingOf_charged hp⟩
  · rw [begin, entries_pending (by simp), body_mk, fresh_work]
    rfl
  · have hb := (entries_bounds he).2
    rwa [Nat.zero_add] at hb

/-- How the entries of a queue are charged over a run. -/
structure ChargesOnce (x : Register) (s : Sequence) (vs : List Visit) : Prop where
  /-- Every turn finds a register that is true. -/
  mirrors : ∀ y t, (y, t) ∈ x.records s vs → y.Mirrors t.before.body.queue
  /-- No number is ever recorded twice. -/
  once : (x.after s vs).charged.Nodup
  /-- Whatever comes to the head and is not passed over has been charged after the turn. -/
  charges : ∀ y t head, (y, t) ∈ x.records s vs → t.before.faces? = some head →
    ∃ e kept, y.waiting = e :: kept ∧ e.effect = head.effect ∧ e.number ∈ (y.turn t).charged
  /-- What is passed over is never charged. -/
  spares : ∀ y t effect, (y, t) ∈ x.records s vs → t.event = .skipped effect →
    ∃ e kept, y.waiting = e :: kept ∧ e.effect = effect ∧ e.number ∉ (x.after s vs).charged

theorem Keeps.chargesOnce (h : x.Keeps s) (vs : List Visit) : x.ChargesOnce s vs where
  mirrors y t hm := ((h.run vs).2 y t hm).1.mirrors
  once := (h.run vs).1.mirrors.once
  charges y t head hm hf := ((h.run vs).2 y t hm).1.mirrors.charged_of_faced hf
  spares y t effect hm he := by
    obtain ⟨hk, hs⟩ := (h.run vs).2 y t hm
    obtain ⟨e, kept, hw, hee, hsp⟩ := hk.mirrors.spares hk.poised hs he
    exact ⟨e, kept, hw, hee, (Spared.of_records hm hsp).uncharged⟩

end Register

/-- In every tick that comes to no bad end the frames are spent as they should be. Over the whole
life of a sequence, whatever is called on it, each entry of its queue is charged at most once, and
before it runs. And the playback rate is nothing but what later ticks earn. -/
theorem delays_are_accounted :
    (∀ (s : Sequence) (m : Moment), (s.ticked m).1.2 = none → s.Spends m) ∧
    (∀ (id : SequenceId) (routine : Routine) (binding : Binding) (rate : Scalar) (depth : UInt8)
      (vs : List Visit), (Register.begin (mk (.fresh id routine binding rate depth) [])).ChargesOnce
        (mk (.fresh id routine binding rate depth) []) vs) ∧
    ∀ s : Sequence, s.PacesLater :=
  ⟨fun _ _ hs => spends_of_success hs,
    fun id routine binding rate depth vs =>
      (Register.begin_keeps id routine binding rate depth).chargesOnce vs,
    pacesLater⟩

def march : Sequence := ofLists 0
  [⟨2, 0, .wait⟩, ⟨0, 0, .playbackRate 2⟩, ⟨4, 0, .wait⟩] [] [] []

/-- The first rest is charged in the first tick and is over in the second, the other one in the
fourth. -/
theorem march_is_accounted :
    let vs := List.replicate 4 ⟨.advance 1, .bare, .fresh⟩
    march.Spends .bare ∧ (Register.begin march).ChargesOnce march vs ∧
      ((Register.begin march).after march vs).charged = [0, 1, 2] ∧
      (List.range 5).map (fun n => (march.afterVisits (vs.take n)).body.budget) =
        [0, -1, -4, -2, 0] ∧ march.PacesLater := by
  intro vs
  obtain ⟨hs, hc, hp⟩ := delays_are_accounted
  exact ⟨hs march .bare (by decide +kernel), hc _ _ _ _ _ vs, by decide +kernel, by decide +kernel,
    hp march⟩

end EffectMachine.Sequence
