import EffectMachine.Proofs.Sequence.Blocks
import EffectMachine.Proofs.Sequence.Execute
import EffectMachine.Proofs.Sequence.Turns

namespace EffectMachine

namespace Sequence

/-- The leaf that ran, if one did. A gate that is closed is still to run. -/
def DrainEvent.leaf : DrainEvent → List Effect
  | .ran e => if e.action.isBlockBoundary then [] else [e]
  | .halted e _ => if e.action.isBlockBoundary then [] else [e]
  | _ => []

def leavesOf (ts : List Turn) : List Effect := ts.flatMap (·.event.leaf)

@[simp] theorem leavesOf_nil : leavesOf [] = [] := rfl

@[simp] theorem leavesOf_cons (t : Turn) (ts : List Turn) :
    leavesOf (t :: ts) = t.event.leaf ++ leavesOf ts := List.flatMap_cons

end Sequence

/-- Why running code came to an end before its own. -/
inductive Interruption where
  /-- A gate is closed. -/
  | held
  | halted (why : Halt)

/-- Code that runs in a tick: it keeps the leaves that ran, and the sequence. -/
abbrev Live := ExceptT Interruption (StateT (List Effect × Sequence) Tick)

namespace Live

variable {α β : Type}

/-- Runs leaves in a tick, where conditions load their values. The leaves that act on the control
stack only load: what they do to it is up to who runs them. -/
def leaves (run : StopHandlers Tick) : Leaves Live where
  run e := ExceptT.mk fun (ran, s) =>
    if e.action.isControl then do
      let value ← s.body.loads e.action
      return (.ok value, (ran ++ [e], s))
    else do
      match ← s.execute run e with
      | (s, .hold) => return (.error .held, (ran, s))
      | (s, .halt why) => return (.error (.halted why), (ran ++ [e], s))
      | (s, _) => return (.ok 0, (ran ++ [e], s))
  tell notices := ExceptT.mk fun x => do
    SequenceBody.notes notices
    return (.ok (), x)
  fault f := ExceptT.mk fun x => return (.error (.halted (.fault f)), x)

def exec (x : Live α) (ran : List Effect) (s : Sequence) :
    Tick (Except Interruption α × List Effect × Sequence) :=
  x.run.run (ran, s)

theorem exec_pure (a : α) (ran : List Effect) (s : Sequence) :
    (pure a : Live α).exec ran s = pure (.ok a, ran, s) := rfl

/-- Code in sequence goes on in the state that the first part has left. -/
theorem exec_bind (x : Live α) (f : α → Live β) (ran : List Effect) (s : Sequence) :
    (x >>= f).exec ran s = x.exec ran s >>= fun y =>
      match y.1 with
      | .ok a => (f a).exec y.2.1 y.2.2
      | .error i => pure (.error i, y.2.1, y.2.2) := by
  simp only [exec, ExceptT.run_bind, StateT.run_bind]
  refine bind_congr fun y => ?_
  obtain ⟨(i | a), ran, s⟩ := y <;> rfl

theorem exec_map (g : α → β) (x : Live α) (ran : List Effect) (s : Sequence) (r : Surroundings)
    (h : Host) : (g <$> x).exec ran s r h =
      (((x.exec ran s r h).1.1.map g, (x.exec ran s r h).1.2), (x.exec ran s r h).2) := by
  rw [map_eq_pure_bind, exec_bind, Tick.run_bind]
  generalize x.exec ran s r h = y
  obtain ⟨⟨i | a, z⟩, h'⟩ := y <;> rfl

def outcome (c : ControlStack) : Next → Except Interruption ControlStack
  | .hold => .error .held
  | .halt why => .error (.halted why)
  | _ => .ok c

/-- An effect leaves a trace if it is a leaf that was not held up. -/
def record (e : Effect) : Next → List Effect
  | .hold => []
  | _ => if e.action.isBlockBoundary then [] else [e]

variable (run : StopHandlers Tick)

theorem exec_flatStep_control (c : ControlStack) {e : Effect} (ran : List Effect) (s : Sequence)
    (hc : e.action.isControl = true)
    (hs : (c.isSkipping && !e.action.isBlockBoundary) = false) :
    ((leaves run).flatStep c e).exec ran s = s.body.loads e.action >>= fun value =>
      match c.apply value e.action with
      | .ok (c, notices) => SequenceBody.notes notices >>= fun _ =>
          pure (.ok c, ran ++ record e .proceed, s)
      | .error fault => pure (.error (.halted (.fault fault)), ran ++ record e .proceed, s) := by
  cases hb : e.action.isBlockBoundary with
  | true =>
    rw [Leaves.flatStep_boundary _ c hb]
    simp only [record, hb, if_true, List.append_nil]
    obtain ⟨delay, duration, action⟩ := e
    cases action <;> simp only [Action.isBlockBoundary, Bool.false_eq_true] at hb
    case beginBlock => rfl
    case endBlock =>
      simp only [ControlStack.apply, SequenceBody.loads, pure_bind]
      cases c.endBlock <;> rfl
  | false =>
    have hk : c.isSkipping = false := by simpa [hb] using hs
    rw [(leaves run).flatStep_leaf hk hb, exec_bind]
    simp only [record, hb, Bool.false_eq_true, if_false]
    have hl : ((leaves run).run e).exec ran s = s.body.loads e.action >>= fun value =>
        pure (.ok value, ran ++ [e], s) := by
      change (if e.action.isControl then _ else _) = _
      rw [if_pos hc]
    rw [hl, bind_assoc]
    refine bind_congr fun value => ?_
    rw [pure_bind]
    dsimp only
    cases c.apply value e.action with
    | error fault => rfl
    | ok x => rfl

/-- A leaf that is run by the flat machine is executed in the tick, and leaves its trace. -/
theorem exec_flatStep_leaf {c : ControlStack} {e : Effect} (ran : List Effect) (s : Sequence)
    (hc : e.action.isControl = false) (hs : c.isSkipping = false) :
    ((leaves run).flatStep c e).exec ran s = s.execute run e >>= fun x =>
      pure (outcome c x.2, ran ++ record e x.2, x.1) := by
  have hb := Action.isBlockBoundary_of_not_control hc
  have hl : ((leaves run).run e).exec ran s = s.execute run e >>= fun x =>
      match x with
      | (s, .hold) => pure (.error .held, ran, s)
      | (s, .halt why) => pure (.error (.halted why), ran ++ [e], s)
      | (s, _) => pure (.ok 0, ran ++ [e], s) := by
    change (if e.action.isControl then _ else _) = _
    rw [hc, if_neg Bool.false_ne_true]
  rw [(leaves run).flatStep_leaf hs hb, exec_bind, hl, bind_assoc]
  refine bind_congr fun x => ?_
  obtain ⟨s', next⟩ := x
  cases next <;> simp only [c.apply_of_not_control _ hc, pure_bind, outcome, record, hb,
    Bool.false_eq_true, if_false, List.append_nil] <;> rfl

/-- A step of the flat machine is one effect of the sequence in that place of its blocks. -/
theorem exec_flatStep {c : ControlStack} {e : Effect} (ran : List Effect) (s : Sequence)
    (hs : (c.isSkipping && !e.action.isBlockBoundary) = false) (r : Surroundings) (h : Host) :
    let x := (s.withControl c).execute run e r h
    ∃ s' c', x.1.1 = s'.withControl c' ∧
      ((leaves run).flatStep c e).exec ran s r h =
        ((outcome c' x.1.2, ran ++ record e x.1.2, s'), x.2) := by
  cases hc : e.action.isControl with
  | true =>
    rw [exec_flatStep_control run c ran s hc hs, Sequence.execute_control run _ hc]
    simp only [Tick.run_bind, Sequence.withControl_control]
    have hl : (s.withControl c).body.loads e.action = s.body.loads e.action := by
      cases s
      exact SequenceBody.loads_withControl _ c e.action
    rw [hl]
    generalize s.body.loads e.action r h = v
    cases ha : c.apply v.1 e.action with
    | error fault => exact ⟨s, c, rfl, rfl⟩
    | ok x => exact ⟨s, x.1, s.withControl_withControl c x.1, rfl⟩
  | false =>
    have hb := Action.isBlockBoundary_of_not_control hc
    have hk : c.isSkipping = false := by simpa [hb] using hs
    rw [exec_flatStep_leaf run ran s hc hk, Sequence.execute_withControl run s c hc]
    exact ⟨_, c, rfl, rfl⟩

def finished {α : Type} : Except Interruption α → Sequence → Sequence × Option Halt
  | .ok _, s => (s.mapBody fun body => { body with blockers := [] }, none)
  | .error .held, s =>
    (s.mapBody fun body => { body with queue := [], scheduledStart := none, blockers := [] }, none)
  | .error (.halted why), s => (s, some why)

@[simp] theorem finished_map {α β : Type} (g : α → β) (x : Except Interruption α) (s : Sequence) :
    finished (x.map g) s = finished x s := by
  rcases x with (_ | _) | _ <;> rfl

/-- The handlers are the flat machine, as long as their code stays as it is. -/
theorem exec_flat_handlers {es : List Effect}
    (hes : ∀ e ∈ es, ∀ choices, e.action ≠ .randomRoutine choices) {n : Nat}
    (hn : es.length < n) (c : ControlStack) (ran : List Effect) (s : Sequence)
    (r : Surroundings) (h : Host) :
    let x := ((leaves run).flat es c).exec ran s r h
    ∃ c', Sequence.runHandlers run n es (s.withControl c) r h =
        (((finished x.1.1 x.1.2.2).1.withControl c', (finished x.1.1 x.1.2.2).2), x.2) ∧
      (∀ k, x.1.1 = .ok k → c' = k) ∧
      x.1.2.1 = ran ++
        Sequence.leavesOf (Sequence.handlerTurns run n es (s.withControl c) r h) := by
  -- Nothing is spliced in, so the fuel only has to outlast the effects that are left.
  induction es generalizing n c ran s h with
  | nil =>
    obtain ⟨n, rfl⟩ : ∃ k, n = k + 1 := ⟨n - 1, by omega⟩
    cases s with
    | mk body children =>
      refine ⟨c, rfl, fun k hk => ?_, (List.append_nil _).symm⟩
      cases hk
      rfl
  | cons e es ih =>
    obtain ⟨n, rfl⟩ : ∃ k, n = k + 1 := ⟨n - 1, by omega⟩
    have hn : es.length < n := by simpa using hn
    have ih := ih (fun f hf => hes f (List.mem_cons_of_mem _ hf)) hn
    have hk : (s.withControl c).skips e = (c.isSkipping && !e.action.isBlockBoundary) := by
      rw [Sequence.skips, Sequence.withControl_control]
    rw [Leaves.flat_cons, exec_bind, Sequence.runHandlers, Sequence.handlerTurns]
    cases hs : c.isSkipping && !e.action.isBlockBoundary with
    | true =>
      have hs' := hs
      simp only [Bool.and_eq_true, Bool.not_eq_true'] at hs'
      rw [hk, hs, if_pos rfl, if_pos rfl, (leaves run).flatStep_skip hs'.1 hs'.2, exec_pure,
        pure_bind]
      exact ih c ran s h
    | false =>
      rw [hk, hs, if_neg Bool.false_ne_true, if_neg Bool.false_ne_true]
      obtain ⟨s', c', hx, hf⟩ := exec_flatStep run ran s hs r h
      have hq (effects : List Effect) :
          ((s.withControl c).execute run e r h).1.2 ≠ .splice effects := fun hq => by
        obtain ⟨choices, ha⟩ := Sequence.action_of_execute_splice hq
        exact hes e List.mem_cons_self choices ha
      simp only [Tick.run_bind, hf]
      generalize (s.withControl c).execute run e r h = x at hx hq
      obtain ⟨⟨y, next⟩, h'⟩ := x
      dsimp only at hx hq
      subst y
      cases next with
      | proceed =>
        obtain ⟨k, hr, hk, hl⟩ := ih c' (ran ++ record e .proceed) s' h'
        exact ⟨k, hr, hk, hl.trans (List.append_assoc _ _ _)⟩
      | splice effects => exact absurd rfl (hq effects)
      | hold =>
        refine ⟨c', ?_, ?_, ?_⟩
        · cases s'; rfl
        · intro k hk; cases hk
        · rfl
      | halt why =>
        refine ⟨c', rfl, ?_, ?_⟩
        · intro k hk; cases hk
        · simp only [Sequence.leavesOf_cons, Sequence.leavesOf_nil, List.append_nil]
          rfl

open Sequence in
/-- The handlers run block-structured code as it means. If it comes to its end, the control stack is
as it was. -/
theorem handlers_interpret (b : Blocks false) {s : Sequence}
    (hs : s.body.control.isSkipping = false) {n : Nat} (hn : b.flatten.length < n)
    (r : Surroundings) (h : Host) :
    let x := ((leaves run).interpret s.body.control.routine b {}).exec [] s r h
    let end' := finished x.1.1 x.1.2.2
    ∃ control, runHandlers run n b.flatten s r h = ((end'.1.withControl control, end'.2), x.2) ∧
      leavesOf (handlerTurns run n b.flatten s r h) = x.1.2.1 ∧
      ((∃ f, x.1.1 = .ok f) → control = s.body.control) := by
  obtain ⟨control, hr, hk, hl⟩ :=
    exec_flat_handlers run b.flatten_stays hn s.body.control [] s r h
  have hf := (leaves run).flat_flatten b s.body.control (f := {}) rfl fun _ => ⟨hs, rfl⟩
  rw [ControlStack.inside_top] at hf
  simp only [withControl_self, hf, exec_map, finished_map, List.nil_append] at hr hk hl
  refine ⟨control, hr, hl.symm, ?_⟩
  rintro ⟨f, hx⟩
  exact hk s.body.control (by rw [hx]; rfl)

end Live
end EffectMachine
