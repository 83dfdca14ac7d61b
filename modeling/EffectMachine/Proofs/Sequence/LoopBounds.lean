import EffectMachine.Proofs.Sequence.Sections

namespace EffectMachine

def Action.isChoice : Action → Bool
  | .randomRoutine _ => true
  | _ => false

namespace SequenceBody

/-- What the lists come to that may yet be taken up in a tick. -/
def toTakeUp (size : List Effect → Nat) (s : SequenceBody) : Nat :=
  (if s.completionRan then 0 else size s.routine.onComplete + 1) +
    if s.refilled then 0 else size s.routine.effects + 1

theorem toTakeUp_of_marks {s s' : SequenceBody} (h : s'.marks = s.marks)
    (size : List Effect → Nat) : s'.toTakeUp size = s.toTakeUp size := by
  simp only [marks, Prod.mk.injEq] at h
  simp only [toTakeUp, h]

/-- A list that is taken up is not there to be taken up again. -/
theorem requeued_again {s : SequenceBody} (hr : s.requeued.2 = true) :
    ∃ es, (es = s.routine.onComplete ∨ es = s.routine.effects) ∧
      s.requeued.1.work = s.work ++ es ∧
      ∀ size, size es + s.requeued.1.toTakeUp size < s.toTakeUp size := by
  unfold requeued at hr ⊢
  split at hr
  next hc =>
    rw [if_pos hc]
    simp only [Bool.and_eq_true, Bool.not_eq_true'] at hc
    refine ⟨_, .inl rfl, by simp [work, enqueue, pendingOf, Function.comp_def], fun size => ?_⟩
    cases hf : s.refilled <;> simp [toTakeUp, enqueue, hc.1, hf]
  next hc =>
    rw [if_neg hc]
    dsimp only at hr ⊢
    split at hr
    next hl =>
      rw [if_pos hl]
      simp only [Bool.and_eq_true, Bool.not_eq_true'] at hl
      refine ⟨_, .inr rfl, ?_, fun size => ?_⟩
      · simp [work, enqueue, pendingOf, stopWhere, Function.comp_def]
      · simp only [toTakeUp, enqueue, stopWhere, hl.2, Bool.false_eq_true, if_true, if_false]
        omega
    next => cases hr

theorem queue_of_requeued_dry {s : SequenceBody} (hr : s.requeued.2 = false)
    (hq : s.queue = []) : s.requeued.1.queue = [] := by
  unfold requeued at hr ⊢
  split at hr
  next => cases hr
  next hc =>
    rw [if_neg hc]
    dsimp only at hr ⊢
    split at hr
    next hl =>
      rw [if_pos hl]
      simpa using hr
    next hl =>
      rw [if_neg hl]
      exact hq

end SequenceBody

namespace Sequence

/-- What a turn leaves of the effects that wait, when the draining loop goes round again. -/
inductive GoesOn (run : StopHandlers Tick) (r : Surroundings) (h : Host) (s s' : Sequence)
    (event : DrainEvent) : Prop where
  | requeued (es : List Effect)
      (list : es = s.body.routine.onComplete ∨ es = s.body.routine.effects)
      (empty : s.body.work = []) (work : s'.body.work = es)
      (less : ∀ size, size es + s'.body.toTakeUp size < s.body.toTakeUp size)
  | passed (e : Effect) (marks : s'.body.marks = s.body.marks)
      (work : s.body.work = e :: s'.body.work)
  | spliced (e : Effect) (rest new : List Effect) (before : Sequence)
      (event : event = .ran e) (marks : s'.body.marks = s.body.marks)
      (routine : before.body.routine = s.body.routine) (work : s.body.work = e :: rest)
      (work' : s'.body.work = new ++ rest)
      (done : (before.execute run e r h).1.2 = .splice new)

theorem takeHead_marks (s : Sequence) (head : Pending) (rest : List Pending) :
    (s.takeHead head rest).body.marks = s.body.marks :=
  s.body.charge_marks head rest

/-- A turn after which the draining goes on takes up or leaves effects in one of the ways listed. -/
theorem Drains.goesOn {run : StopHandlers Tick} {r : Surroundings} {h : Host} {s s' : Sequence}
    {event : DrainEvent} (hd : s.Drains run r h s' event) (hg : event.goesOn = true) :
    s.GoesOn run r h s' event := by
  cases hd with
  | requeued _ empty again =>
    have hw : s.body.work = [] := by rw [SequenceBody.work, empty]; rfl
    obtain ⟨es, list, work, less⟩ := SequenceBody.requeued_again again
    exact .requeued es list hw (by rw [body_mk, work, hw, List.nil_append]) less
  | skipped head rest _ queue =>
    refine .passed head.effect ?_ ?_
    · rw [body_mapBody]
      rfl
    · rw [SequenceBody.work_of_queue queue, body_mapBody, SequenceBody.work]
  | ran head rest _ _ queue _ _ done =>
    have hm := execute_marks run (s.takeHead head rest) head.effect r h
    have hq := execute_queue done
    rw [done] at hm
    refine .passed head.effect (hm.trans (s.takeHead_marks head rest)) ?_
    rw [SequenceBody.work_of_queue queue, SequenceBody.work, hq]
    rfl
  | spliced head rest x new _ queue _ _ done =>
    have hm := execute_marks run (s.takeHead head rest) head.effect r h
    have hq := execute_queue done
    rw [done] at hm
    refine .spliced head.effect (rest.map Pending.effect) new (s.takeHead head rest) rfl ?_
      (congrArg Prod.fst (s.takeHead_marks head rest)) (SequenceBody.work_of_queue queue) ?_
      (congrArg Prod.snd done)
    · rw [body_mapBody]
      exact hm.trans (s.takeHead_marks head rest)
    · have hq : x.body.queue = rest := hq
      simp [SequenceBody.work, SequenceBody.pendingOf, hq, Function.comp_def]
  | _ => cases hg

def DrainEvent.isChoice : DrainEvent → Bool
  | ran e => e.action.isChoice
  | _ => false

def choicesOf (ts : List Turn) : Nat := ts.countP (·.event.isChoice)

/-- With ever more fuel, a loop comes to take no more turns. -/
def Stops (turns : Nat → List Turn) : Prop := ∃ most, ∀ n, (turns n).length ≤ most

def ChoosesFinitely (turns : Nat → List Turn) : Prop := ∃ most, ∀ n, choicesOf (turns n) ≤ most

section Loops

variable {α : Type} {turns : Nat → α → List Turn} {left : α → Nat}

/-- From every state a loop ends at once, or takes a turn that chooses or leaves less to do. -/
structure GoesDown (turns : Nat → α → List Turn) (left : α → Nat) : Prop where
  start : ∀ x, turns 0 x = []
  turn : ∀ x, Stops (turns · x) ∨ ∃ t y, (∀ n, turns (n + 1) x = t :: turns n y) ∧
    (t.event.isChoice = false → left y < left x)

theorem GoesDown.stops_cons (h : GoesDown turns left) {x y : α} {t : Turn}
    (hs : ∀ n, turns (n + 1) x = t :: turns n y) (hy : Stops (turns · y)) :
    Stops (turns · x) := by
  obtain ⟨most, hm⟩ := hy
  refine ⟨most + 1, fun n => ?_⟩
  cases n with
  | zero => simp [h.start]
  | succ n =>
    have hn := hm n
    simpa [hs] using hn

/-- Between two choices a loop stops: by induction on what is left to do. -/
theorem GoesDown.stops_of_tails (h : GoesDown turns left) {P : α → Prop}
    (hp : ∀ x t y, P x → (∀ n, turns (n + 1) x = t :: turns n y) →
      P y ∧ t.event.isChoice = false ∨ Stops (turns · y)) {x : α} (hx : P x) :
    Stops (turns · x) := by
  induction hl : left x using Nat.strongRecOn generalizing x with
  | ind l ih =>
    rcases h.turn x with hs | ⟨t, y, hs, hlt⟩
    · exact hs
    · refine h.stops_cons hs ?_
      rcases hp x t y hx hs with ⟨hy, hc⟩ | hy
      · exact ih (left y) (hl ▸ hlt hc) hy rfl
      · exact hy

/-- By induction on the choices that are still allowed. -/
theorem GoesDown.stops (h : GoesDown turns left) (most : Nat) {x : α}
    (hx : ∀ n, choicesOf (turns n x) ≤ most) : Stops (turns · x) := by
  induction most using Nat.strongRecOn generalizing x with
  | ind most ih =>
    refine h.stops_of_tails (P := fun x => ∀ n, choicesOf (turns n x) ≤ most) ?_ hx
    intro x t y hx hs
    have hn (n : Nat) : choicesOf (turns n y) + t.event.isChoice.toNat ≤ most := by
      have hle := hx (n + 1)
      rw [hs, choicesOf, List.countP_cons] at hle
      simp only [choicesOf]
      cases hc : t.event.isChoice <;> simpa [hc] using hle
    cases hc : t.event.isChoice with
    | false => exact .inl ⟨fun n => by simpa [hc] using hn n, rfl⟩
    | true =>
      have hless (n : Nat) : choicesOf (turns n y) + 1 ≤ most := by simpa [hc] using hn n
      have hpos := hless 0
      exact .inr (ih (most - 1) (by omega) fun n => Nat.le_sub_of_add_le (hless n))

theorem GoesDown.stops_iff (h : GoesDown turns left) (x : α) :
    Stops (turns · x) ↔ ChoosesFinitely (turns · x) := by
  constructor
  · rintro ⟨most, hm⟩
    exact ⟨most, fun n => Nat.le_trans List.countP_le_length (hm n)⟩
  · rintro ⟨most, hm⟩
    exact h.stops most hm

end Loops

theorem isChoice_of_splice {run : StopHandlers Tick} {s : Sequence} {e : Effect}
    {r : Surroundings} {h : Host} {new : List Effect}
    (hx : (s.execute run e r h).1.2 = .splice new) : (DrainEvent.ran e).isChoice = true := by
  obtain ⟨choices, ha⟩ := action_of_execute_splice hx
  simp only [DrainEvent.isChoice, ha, Action.isChoice]

/-- The draining loop has ever less to do, as long as no choice is made. -/
theorem drainTurns_goesDown (run : StopHandlers Tick) (r : Surroundings) :
    GoesDown (fun n (x : Sequence × Host) => x.1.drainTurns run n r x.2)
      fun x => x.1.body.work.length + x.1.body.toTakeUp List.length where
  start _ := rfl
  turn := by
    intro ⟨s, h⟩
    have hd := s.drainStep_drains run r h
    cases hg : (s.drainStep run r h).1.2.goesOn with
    | false =>
      refine .inl ⟨1, fun n => ?_⟩
      cases n <;> simp [drainTurns, hg]
    | true =>
      refine .inr ⟨⟨r, h, s, (s.drainStep run r h).1.2, (s.drainStep run r h).1.1⟩,
        ((s.drainStep run r h).1.1, (s.drainStep run r h).2), fun n => ?_, fun hc => ?_⟩
      · simp [drainTurns, hg]
      · cases hd.goesOn hg with
        | requeued es _ empty work less =>
          have hl := less List.length
          simpa [empty, work] using hl
        | passed e marks work =>
          simp [SequenceBody.toTakeUp_of_marks marks, work]
        | spliced e rest new before event _ _ _ _ done =>
          have hn : (DrainEvent.ran e).isChoice = true :=
            isChoice_of_splice done
          dsimp only at hc
          rw [event, hn] at hc
          cases hc

/-- Handlers have ever less to do, as long as no choice is made. -/
theorem handlerTurns_goesDown (run : StopHandlers Tick) (r : Surroundings) :
    GoesDown (fun n (x : List Effect × Sequence × Host) => handlerTurns run n x.1 x.2.1 r x.2.2)
      fun x => x.1.length where
  start x := by simp [handlerTurns]
  turn := by
    intro ⟨es, s, h⟩
    cases es with
    | nil => exact .inl ⟨0, fun n => by cases n <;> simp [handlerTurns]⟩
    | cons e es =>
      cases hk : s.skips e with
      | true =>
        refine .inr ⟨⟨r, h, s, .skipped e, s⟩, (es, s, h), fun n => ?_, fun _ => by simp⟩
        simp [handlerTurns, hk]
      | false =>
        cases hx : (s.execute run e r h).1.2 with
        | proceed =>
          refine .inr ⟨⟨r, h, s, .ran e, (s.execute run e r h).1.1⟩,
            (es, (s.execute run e r h).1.1, (s.execute run e r h).2), fun n => ?_,
            fun _ => by simp⟩
          simp [handlerTurns, hk, hx]
        | splice new =>
          refine .inr ⟨⟨r, h, s, .ran e, (s.execute run e r h).1.1⟩,
            (new ++ es, (s.execute run e r h).1.1, (s.execute run e r h).2), fun n => ?_,
            fun hc => ?_⟩
          · simp [handlerTurns, hk, hx]
          · have hn := isChoice_of_splice hx
            exact absurd (hn.symm.trans hc) (by simp)
        | hold =>
          refine .inl ⟨1, fun n => ?_⟩
          cases n <;> simp [handlerTurns, hk, hx]
        | halt why =>
          refine .inl ⟨1, fun n => ?_⟩
          cases n <;> simp [handlerTurns, hk, hx]

end Sequence
end EffectMachine
