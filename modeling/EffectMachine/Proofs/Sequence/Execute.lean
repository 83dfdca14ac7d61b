import EffectMachine.Proofs.Sequence.Perform
import EffectMachine.Sequence.Run

namespace EffectMachine

namespace Sequence

def withControl (s : Sequence) (c : ControlStack) : Sequence := s.mapBody (·.withControl c)

@[simp] theorem withControl_control (s : Sequence) (c : ControlStack) :
    (s.withControl c).body.control = c := by
  cases s; rfl

@[simp] theorem withControl_withControl (s : Sequence) (c c' : ControlStack) :
    (s.withControl c).withControl c' = s.withControl c' := by
  cases s; rfl

@[simp] theorem withControl_self (s : Sequence) : s.withControl s.body.control = s := by
  cases s; rfl

/-- Effects that act on the control stack act on nothing else. -/
theorem execute_control (run : StopHandlers Tick) (s : Sequence) {e : Effect}
    (hc : e.action.isControl = true) :
    s.execute run e = s.body.loads e.action >>= fun value =>
      match s.body.control.apply value e.action with
      | .ok (c, notices) =>
        SequenceBody.notes notices >>= fun _ => pure (s.withControl c, .proceed)
      | .error fault => pure (s, .halt (.fault fault)) := by
  cases s with
  | mk body children =>
    rw [execute, body_mk, body.perform_control hc, bind_assoc]
    refine bind_congr fun value => ?_
    cases body.control.apply value e.action with
    | error fault => rfl
    | ok x => exact bind_assoc ..

/-- An effect on the control stack succeeds with a new stack, or faults as the stack does. -/
theorem execute_control_cases {run : StopHandlers Tick} {s s' : Sequence} {e : Effect}
    {r : Surroundings} {h : Host} {next : Next} (hc : e.action.isControl = true)
    (hx : (s.execute run e r h).1 = (s', next)) :
    (∃ x, s.body.control.apply (s.body.loads e.action r h).1 e.action = .ok x ∧
        s'.body.control = x.1) ∨
      ∃ f, s.body.control.apply (s.body.loads e.action r h).1 e.action = .error f ∧
        next = .halt (.fault f) := by
  rw [execute_control run s hc, Tick.run_bind] at hx
  cases ha : s.body.control.apply (s.body.loads e.action r h).1 e.action with
  | error f =>
    simp only [ha] at hx
    cases hx
    exact .inr ⟨f, rfl, rfl⟩
  | ok x =>
    simp only [ha] at hx
    cases hx
    exact .inl ⟨x, rfl, by simp⟩

theorem execute_withControl (run : StopHandlers Tick) (s : Sequence) (c : ControlStack)
    {e : Effect} (hc : e.action.isControl = false) :
    (s.withControl c).execute run e =
      (fun x => (x.1.withControl c, x.2)) <$> s.execute run e := by
  cases s with
  | mk body children =>
    rw [execute, execute]
    simp only [withControl, mapBody, body_mk, children_mk, body.perform_withControl c e hc,
      map_bind, bind_map_left]
    refine bind_congr fun x => ?_
    cases x.2 <;> rfl

/-- Unless other sequences stop, only the effect itself reaches the host. -/
theorem execute_host (run : StopHandlers Tick) (s : Sequence) {e : Effect}
    (he : ∀ id, e.action ≠ .stopRoutine id) (r : Surroundings) (h : Host) :
    (s.execute run e r h).2 = (s.body.perform e r h).2 := by
  have hdoes := s.body.perform_does e r h
  rw [execute, Tick.run_bind]
  generalize s.body.perform e r h = x at hdoes
  obtain ⟨⟨body, flow⟩, h'⟩ := x
  cases flow with
  | stopRoutine id => exact absurd hdoes.action_of_stopRoutine (he id)
  | _ => rfl

/-- To its own body a sequence does what the effect does to it. -/
theorem execute_body (run : StopHandlers Tick) (s : Sequence) (e : Effect) (r : Surroundings)
    (h : Host) :
    (s.execute run e r h).1.1.body = (s.body.perform e r h).1.1 ∧
      ((s.execute run e r h).1.2 = .hold ↔ (s.body.perform e r h).1.2 = .hold) := by
  rw [execute, Tick.run_bind]
  generalize s.body.perform e r h = x
  obtain ⟨⟨body, flow⟩, h'⟩ := x
  cases flow with
  | stopRoutine id =>
    refine ⟨rfl, ?_⟩
    dsimp only
    rw [Tick.run_bind]
    cases (stopRoutineIn run id s.children r h').1.2.2 <;> simp
  | _ => exact ⟨rfl, by simp⟩

theorem execute_failure (run : StopHandlers Tick) (s : Sequence) (e : Effect) :
    (s.execute run e).Always fun x => x.1.body.failure = s.body.failure := by
  intro r h
  rw [(execute_body run s e r h).1]
  exact (s.body.perform_does e r h).failure_eq

theorem execute_control_eq (run : StopHandlers Tick) (s : Sequence) {e : Effect}
    (hc : e.action.isControl = false) :
    (s.execute run e).Always fun x => x.1.body.control = s.body.control := by
  intro r h
  rw [(execute_body run s e r h).1]
  exact (s.body.perform_does e r h).control_eq hc

/-- An effect leaves the queue behind it alone, unless it is a closed gate, which comes back to the
head. -/
theorem execute_queue {run : StopHandlers Tick} {s s' : Sequence} {e : Effect} {r : Surroundings}
    {h : Host} {next : Next} (hx : (s.execute run e r h).1 = (s', next)) :
    s'.body.queue =
      match next with
      | .hold => { effect := e, charged := true } :: s.body.queue
      | _ => s.body.queue := by
  obtain ⟨hb, hh⟩ := execute_body run s e r h
  have hd := s.body.perform_does e r h
  rw [hx] at hb hh
  rw [hb]
  cases next with
  | hold => exact (hh.mp rfl ▸ hd).queue_hold
  | _ => exact hd.queue_eq fun hf => by simpa using hh.mpr hf

theorem control_of_execute_hold {run : StopHandlers Tick} {s : Sequence} {e : Effect}
    {r : Surroundings} {h : Host} (hx : (s.execute run e r h).1.2 = .hold) :
    e.action.isControl = false := by
  have hd := s.body.perform_does e r h
  dsimp only at hd
  rw [(execute_body run s e r h).2.mp hx] at hd
  exact hd.control_of_hold

/-- Only a random choice puts others in its place. -/
theorem action_of_execute_splice {run : StopHandlers Tick} {s : Sequence} {e : Effect}
    {r : Surroundings} {h : Host} {effects : List Effect}
    (hx : (s.execute run e r h).1.2 = .splice effects) :
    ∃ choices, e.action = .randomRoutine choices := by
  have hd := s.body.perform_does e r h
  rw [execute, Tick.run_bind] at hx
  generalize s.body.perform e r h = x at hd hx
  obtain ⟨⟨body, flow⟩, h'⟩ := x
  cases flow with
  | splice effects => exact hd.action_of_splice
  | stopRoutine id =>
    dsimp only at hx
    rw [Tick.run_bind] at hx
    cases hh : (stopRoutineIn run id s.children r h').1.2.2 <;> simp [hh] at hx
  | _ => cases hx

end Sequence
end EffectMachine
