import EffectMachine.Proofs.Sequence.Persistence

namespace EffectMachine

namespace SequenceBody

/-- It has ended, and every emitter that it had was told to stop. -/
structure Hushed (s s' : SequenceBody) : Prop where
  ended : s'.isEnded = true
  emitters : Extends (fun _ g => g.isSilent = true) s.emitters s'.emitters

/-- What is hushed stays hushed in every later state. -/
theorem Hushed.later {s s' s'' : SequenceBody} (h : s.Hushed s') (hl : s'.Later s'') :
    s.Hushed s'' where
  ended := hl.ended h.ended
  emitters := by
    intro i g hg
    obtain ⟨g', hg', hs⟩ := h.emitters i g hg
    obtain ⟨g'', hg'', hl⟩ := hl.emitters i g' hg'
    exact ⟨g'', hg'', hl.silent hs⟩

theorem hushed_halted (s : SequenceBody) : s.Hushed s.halted where
  ended := rfl
  emitters := by
    simp only [halted, stopEmitters_eq_map]
    exact Extends.map Emitter.isSilent_stop _

end SequenceBody

namespace Sequence

/-- Does a stop come to what is at a path? It does not go past what has ended. -/
def Reaches : Sequence → List Nat → Prop
  | s, [] => s.body.isEnded = false
  | s, i :: path => s.body.isEnded = false ∧ ∃ c, s.children[i]? = some c ∧ c.Reaches path

def HushedAt (p : List Nat → Prop) (s s' : Sequence) : Prop :=
  ∀ path d, p path → s.at? path = some d →
    ∃ d', s'.at? path = some d' ∧ d.body.Hushed d'.body

def Hushed (s s' : Sequence) : Prop := s.HushedAt s.Reaches s'

variable {s s' s'' : Sequence} {cs cs' : List Sequence}

theorem not_reaches_of_ended (he : s.body.isEnded = true) (path : List Nat) : ¬s.Reaches path := by
  intro hp
  cases path with
  | nil => simp [Reaches, he] at hp
  | cons => simp [Reaches, he] at hp

theorem hushed_of_ended (he : s.body.isEnded = true) (s' : Sequence) : s.Hushed s' :=
  fun path _ hp _ => absurd hp (not_reaches_of_ended he path)

theorem Hushed.later (h : s.Hushed s') (hl : s'.Later s'') : s.Hushed s'' := by
  intro path d hp hd
  obtain ⟨d', hd', hh⟩ := h path d hp hd
  obtain ⟨d'', hd'', hl⟩ := hl path d' hd'
  exact ⟨d'', hd'', hh.later hl⟩

/-- A stop hushes a sequence once all its children are hushed. -/
theorem hushed_of_children (body : SequenceBody) (hc : Extends Hushed cs cs') :
    (mk body cs).Hushed (mk body.halted cs') := by
  intro path d hp hd
  cases path with
  | nil =>
    simp only [at?_nil, Option.some.injEq] at hd
    exact ⟨_, rfl, hd ▸ body.hushed_halted⟩
  | cons i path =>
    obtain ⟨_, c, hi, hp⟩ := hp
    have hi : cs[i]? = some c := hi
    obtain ⟨c', hi', hh⟩ := hc i c hi
    simp only [at?_cons, children_mk, hi, Option.bind_some] at hd
    obtain ⟨d', hd', hh⟩ := hh path d hp hd
    exact ⟨d', by simpa [hi'] using hd', hh⟩

end Sequence

section Visiting

variable {m : Type → Type} [Monad m]

/-- A stop of what has not ended: its children first, then its own handlers, unless it was cut
short. -/
theorem stopWith_of_live (run : StopHandlers m) {s : Sequence} (hs : s.body.isEnded = false) :
    s.stopWith run = (do
      let (children, halt) ← stopAllWith run s.children
      if halt.isSome then return (.mk s.body.halted children, halt)
      run (.mk s.body.halted children)) := by
  cases s with
  | mk body children =>
    have hs : (body.stopped || body.isFailed) = false := hs
    rw [Sequence.stopWith, hs]
    rfl

theorem stopWith_of_ended (run : StopHandlers m) {s : Sequence} (hs : s.body.isEnded = true) :
    s.stopWith run = pure (s, none) := by
  cases s with
  | mk body children =>
    have hs : (body.stopped || body.isFailed) = true := hs
    rw [Sequence.stopWith, hs]
    rfl

mutual

/-- The sequences that a stop comes to, in the order in which their handlers run. -/
def Sequence.stopOrder : Sequence → List SequenceId
  | .mk body children =>
    if body.isEnded then [] else stopOrderAll children ++ [body.id]

def stopOrderAll : List Sequence → List SequenceId
  | [] => []
  | c :: cs => c.stopOrder ++ stopOrderAll cs

end

def StopHandlers.recording (run : StopHandlers Tick) :
    StopHandlers (StateT (List SequenceId) Tick) := fun s => do
  modify (· ++ [s.body.id])
  run s

end Visiting

section Hushing

variable {run : StopHandlers Tick}

mutual

/-- A stop that comes back without a fault has hushed all that it comes to. -/
theorem Sequence.stopWith_hushed (hr : run.Persist) : ∀ s : Sequence,
    (s.stopWith run).Always fun x => x.2 = none → s.Hushed x.1
  | .mk body children => by
    cases hs : body.isEnded with
    | true =>
      rw [stopWith_of_ended run (s := .mk body children) hs]
      exact .pure fun _ => Sequence.hushed_of_ended (s := .mk body children) hs _
    | false =>
      rw [stopWith_of_live run (s := .mk body children) hs]
      refine .bind (stopAllWith_hushed hr children) fun x hx => ?_
      dsimp only
      split
      next hh =>
        refine .pure fun hn => ?_
        rw [show x.2 = none from hn] at hh
        cases hh
      next hh =>
        have hc := Sequence.hushed_of_children body (hx (by simpa using hh))
        exact .mono (hr _) fun y hy _ => hc.later hy

theorem stopAllWith_hushed (hr : run.Persist) : ∀ cs : List Sequence,
    (stopAllWith run cs).Always fun x => x.2 = none → Extends Sequence.Hushed cs x.1
  | [] => .pure fun _ => .nil
  | c :: cs => by
    unfold stopAllWith
    refine .bind (Sequence.stopWith_hushed hr c) fun x hx => ?_
    dsimp only
    split
    next hh =>
      refine .pure fun hn => ?_
      rw [show x.2 = none from hn] at hh
      cases hh
    next hh =>
      refine .bind (stopAllWith_hushed hr cs) fun y hy => .pure fun hn => ?_
      exact .cons (hx (by simpa using hh)) (hy hn)

end

end Hushing

section Recording

variable {α β : Type} {order order' : List SequenceId}

/-- It does the same and notes an order from its start on, to the end unless something halts it. -/
def Records (order : List SequenceId) (x : Tick (α × Option Halt))
    (y : StateT (List SequenceId) Tick (α × Option Halt)) : Prop :=
  ∀ log r h, ∃ ids, y log r h = (((x r h).1, log ++ ids), (x r h).2) ∧
    List.IsPrefix ids order ∧ ((x r h).1.2 = none → ids = order)

theorem recorded_bind (x : StateT (List SequenceId) Tick α)
    (f : α → StateT (List SequenceId) Tick β) (log : List SequenceId) (r : Surroundings)
    (h : Host) :
    (x >>= f) log r h = f (x log r h).1.1 (x log r h).1.2 r (x log r h).2 := rfl

theorem Records.pure (a : α) (halt : Option Halt) : Records [] (pure (a, halt)) (pure (a, halt)) :=
  fun log _ _ => ⟨[], by rw [List.append_nil]; rfl, List.nil_prefix, fun _ => rfl⟩

/-- What halts the first of two parts leaves out the second. -/
theorem Records.bind {x : Tick (α × Option Halt)}
    {y : StateT (List SequenceId) Tick (α × Option Halt)}
    {f : α × Option Halt → Tick (β × Option Halt)}
    {g : α × Option Halt → StateT (List SequenceId) Tick (β × Option Halt)}
    (hx : Records order x y) (hgo : ∀ a, Records order' (f (a, none)) (g (a, none)))
    (hcut : ∀ a why, ∃ b, f (a, some why) = Pure.pure (b, some why) ∧
      g (a, some why) = Pure.pure (b, some why)) :
    Records (order ++ order') (x >>= f) (y >>= g) := by
  intro log r h
  obtain ⟨ids, hy, hp, ha⟩ := hx log r h
  rw [recorded_bind, hy, Tick.run_bind]
  generalize (x r h).1 = p at ha
  generalize (x r h).2 = h'
  obtain ⟨a, halt⟩ := p
  cases halt with
  | some why =>
    obtain ⟨b, hf, hg⟩ := hcut a why
    rw [hf, hg]
    exact ⟨ids, rfl, hp.trans (List.prefix_append _ _), fun hn => by cases hn⟩
  | none =>
    obtain rfl := ha rfl
    obtain ⟨more, hg, hp', ha'⟩ := hgo a (log ++ ids) r h'
    refine ⟨ids ++ more, ?_, (List.prefix_append_right_inj ids).mpr hp', fun hn => ?_⟩
    · rw [← List.append_assoc]
      exact hg
    · rw [ha' hn]

theorem records_recording (run : StopHandlers Tick) (s : Sequence) :
    Records [s.body.id] (run s) (run.recording s) :=
  fun _ _ _ => ⟨[s.body.id], rfl, List.prefix_rfl, fun _ => rfl⟩

mutual

/-- A stop runs the handlers of all that it comes to in their order, and of nothing else. -/
theorem Sequence.stopWith_records (run : StopHandlers Tick) : ∀ s : Sequence,
    Records s.stopOrder (s.stopWith run) (s.stopWith run.recording)
  | .mk body children => by
    rw [Sequence.stopOrder]
    cases hs : body.isEnded with
    | true =>
      rw [stopWith_of_ended _ (s := .mk body children) hs,
        stopWith_of_ended _ (s := .mk body children) hs]
      exact .pure _ none
    | false =>
      rw [stopWith_of_live _ (s := .mk body children) hs,
        stopWith_of_live _ (s := .mk body children) hs]
      exact (stopAllWith_records run children).bind
        (fun cs => records_recording run (.mk body.halted cs))
        fun cs why => ⟨.mk body.halted cs, rfl, rfl⟩

theorem stopAllWith_records (run : StopHandlers Tick) : ∀ cs : List Sequence,
    Records (stopOrderAll cs) (stopAllWith run cs) (stopAllWith run.recording cs)
  | [] => .pure [] none
  | c :: cs => by
    rw [stopAllWith, stopAllWith, stopOrderAll, ← List.append_nil (stopOrderAll cs)]
    exact (Sequence.stopWith_records run c).bind
      (fun c' => (stopAllWith_records run cs).bind (fun cs' => .pure (c' :: cs') none)
        fun cs' why => ⟨c' :: cs', rfl, rfl⟩)
      fun c' why => ⟨c' :: cs, rfl, rfl⟩

end

end Recording

namespace Sequence

def stopRecord (run : StopHandlers Tick) (s : Sequence) (r : Surroundings) (h : Host) :
    List SequenceId :=
  (s.stopWith run.recording [] r h).1.2

variable {run : StopHandlers Tick} {s : Sequence} {r : Surroundings} {h : Host}

theorem stopWith_recording (run : StopHandlers Tick) (s : Sequence) (r : Surroundings) (h : Host) :
    s.stopWith run.recording [] r h =
      (((s.stopWith run r h).1, s.stopRecord run r h), (s.stopWith run r h).2) := by
  obtain ⟨ids, hy, _⟩ := s.stopWith_records run [] r h
  rw [stopRecord, hy]

theorem stopOrder_of_live (hs : s.body.isEnded = false) :
    s.stopOrder = stopOrderAll s.children ++ [s.body.id] := by
  cases s with
  | mk body children =>
    have hs : body.isEnded = false := hs
    simp [stopOrder, hs]

/-- A fault below leaves out the handlers of the sequence itself. -/
theorem stopRecord_eq_iff (hs : s.body.isEnded = false) :
    s.stopRecord run r h = s.stopOrder ↔ (stopAllWith run s.children r h).1.2 = none := by
  obtain ⟨ids, hy, hp, ha⟩ := stopAllWith_records run s.children [] r h
  rw [stopRecord, stopWith_of_live _ hs, recorded_bind, hy, stopOrder_of_live hs]
  generalize (stopAllWith run s.children r h).1 = p at ha
  generalize (stopAllWith run s.children r h).2 = h'
  obtain ⟨cs, halt⟩ := p
  cases halt with
  | none =>
    obtain rfl := ha rfl
    exact iff_of_true rfl rfl
  | some why =>
    refine iff_of_false (fun he => ?_) (by simp)
    have he : ids = stopOrderAll s.children ++ [s.body.id] := he
    have hl := hp.length_le
    rw [he, List.length_append, List.length_singleton] at hl
    exact absurd hl (Nat.not_succ_le_self _)

theorem hushed_of_stop (hr : run.Persist) (hs : s.body.isEnded = false)
    (hc : (stopAllWith run s.children r h).1.2 = none) : s.Hushed (s.stopWith run r h).1.1 := by
  have hx := stopAllWith_hushed hr s.children r h hc
  rw [stopWith_of_live run hs, Tick.run_bind]
  simp only [hc, Option.isSome_none, Bool.false_eq_true, if_false]
  have hh : s.Hushed (mk s.body.halted (stopAllWith run s.children r h).1.1) := by
    simpa using hushed_of_children s.body hx
  exact hh.later (hr _ _ _)

/-- A stop hushes everything that was there, and runs the handlers of each that it ends once,
exactly when no child hands up a fault and nothing goes on below what had ended before. This holds
of the stops within handlers as well, so many deep. -/
theorem stop_hushes_all_iff (depth : Nat) (hs : s.body.isEnded = false) (r : Surroundings)
    (h : Host) :
    let run := runStopHandlers depth
    s.stop r h = s.stopWith (runStopHandlers r.fuel) r h ∧
      s.stopWith run.recording [] r h =
        (((s.stopWith run r h).1, s.stopRecord run r h), (s.stopWith run r h).2) ∧
      (s.HushedAt (fun _ => True) (s.stopWith run r h).1.1 ∧ s.stopRecord run r h = s.stopOrder ↔
        (stopAllWith run s.children r h).1.2 = none ∧
          s.HushedAt (fun path => ¬s.Reaches path) (s.stopWith run r h).1.1) := by
  intro run
  refine ⟨rfl, stopWith_recording run s r h, ?_⟩
  rw [stopRecord_eq_iff hs]
  constructor
  · intro ⟨hall, hc⟩
    exact ⟨hc, fun path d _ => hall path d trivial⟩
  · intro ⟨hc, hrest⟩
    have hreached : s.Hushed (s.stopWith run r h).1.1 :=
      hushed_of_stop (persist_runStopHandlers depth) hs hc
    refine ⟨fun path d _ hd => ?_, hc⟩
    by_cases hp : s.Reaches path
    · exact hreached path d hp hd
    · exact hrest path d hp hd

/-- A sequence over two others, the first of which has stop handlers. -/
def pairWith (handlers : List Effect) : Sequence :=
  ofLists 0 [] [] [] [ofLists 1 [] [] handlers [], ofLists 2 [] [] [] []]

theorem pairWith_reaches (handlers : List Effect) (path : List Nat) (d : Sequence)
    (hd : (pairWith handlers).at? path = some d) : (pairWith handlers).Reaches path := by
  match path with
  | [] => rfl
  | [0] => exact ⟨rfl, _, rfl, rfl⟩
  | [1] => exact ⟨rfl, _, rfl, rfl⟩
  | 0 :: i :: path => cases hd
  | 1 :: i :: path => cases hd
  | (i + 2) :: path => cases hd

theorem pairWith_flash_hushed :
    (pairWith [⟨0, 0, .screenFlash Color.white⟩]).body.isEnded = false ∧
      let s := pairWith [⟨0, 0, .screenFlash Color.white⟩]
      s.HushedAt (fun _ => True) (s.stopWith (runStopHandlers 100) .bare .fresh).1.1 ∧
        s.stopRecord (runStopHandlers 100) .bare .fresh = [⟨1⟩, ⟨2⟩, ⟨0⟩] := by
  refine ⟨rfl, ?_⟩
  intro s
  have hall := (stop_hushes_all_iff (s := s) 100 rfl .bare .fresh).2.2.mpr
    ⟨by decide +kernel, fun path d hp hd => absurd (pairWith_reaches _ path d hd) hp⟩
  exact ⟨hall.1, hall.2.trans (by decide +kernel)⟩

/-- When the handlers of the first one fail, the second goes on and the parent's do not run. -/
theorem pairWith_fault_cuts_short :
    let s := pairWith [⟨0, 0, .endBlock⟩]
    s.body.isEnded = false ∧ s.stopOrder = [⟨1⟩, ⟨2⟩, ⟨0⟩] ∧
      s.stopRecord (runStopHandlers 100) .bare .fresh = [⟨1⟩] ∧
      ((s.stop .bare .fresh).1.1.at? [1]).map (·.body.isEnded) = some false := by
  decide +kernel

end Sequence
end EffectMachine
