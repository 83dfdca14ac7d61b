import EffectMachine.Proofs.Sequence.Stopping

namespace EffectMachine

/-- Does it leave the children as they are, but for new ones? -/
def Action.leavesChildren : Action → Bool
  | stopRoutine _ => false
  | randomRoutine _ => false
  | _ => true

namespace Sequence

def isPicked (id : ResourceId) (c : Sequence) : Bool :=
  c.body.routine.id = id && !c.body.stopped

/-- Does a search below a sequence stop what is at a path? -/
def Sought (id : ResourceId) : Sequence → List Nat → Prop
  | _, [] => False
  | s, i :: path => ∃ c, s.children[i]? = some c ∧
      if c.isPicked id then c.Reaches path else c.Sought id path

/-- Is it below a child that is stopped as a whole, where the stop does not come to it? -/
def Overlooked (id : ResourceId) : Sequence → List Nat → Prop
  | _, [] => False
  | s, i :: path => ∃ c, s.children[i]? = some c ∧
      if c.isPicked id then ¬c.Reaches path else c.Overlooked id path

/-- Every descendant that ran the routine has ended afterwards. -/
def EndsAll (id : ResourceId) (s s' : Sequence) : Prop :=
  ∀ path d, path ≠ [] → s.at? path = some d → d.body.routine.id = id →
    ∃ d', s'.at? path = some d' ∧ d'.body.isEnded = true

variable {id : ResourceId} {s s' : Sequence} {path : List Nat} {d : Sequence}

/-- What runs the routine has ended or is sought, unless it is overlooked. -/
theorem ended_or_sought_or_overlooked (hne : path ≠ []) (hd : s.at? path = some d)
    (hid : d.body.routine.id = id) :
    d.body.isEnded = true ∨ s.Sought id path ∨ s.Overlooked id path := by
  induction path generalizing s with
  | nil => exact (hne rfl).elim
  | cons i path ih =>
    obtain ⟨c, hc, hd⟩ := Option.bind_eq_some_iff.mp hd
    by_cases hp : c.isPicked id = true
    · by_cases hr : c.Reaches path
      · exact .inr (.inl ⟨c, hc, by rw [if_pos hp]; exact hr⟩)
      · exact .inr (.inr ⟨c, hc, by rw [if_pos hp]; exact hr⟩)
    by_cases hnil : path = []
    · subst hnil
      cases hd
      simp only [isPicked, hid, decide_true, Bool.true_and, Bool.not_eq_true,
        Bool.not_eq_false'] at hp
      exact .inl (by rw [SequenceBody.isEnded, hp, Bool.true_or])
    · rcases ih hnil hd with he | hs | ho
      · exact .inl he
      · exact .inr (.inl ⟨c, hc, by rw [if_neg hp]; exact hs⟩)
      · exact .inr (.inr ⟨c, hc, by rw [if_neg hp]; exact ho⟩)

end Sequence

/-- What a search does, told from what stops do to the children that it picks. -/
structure StopHandlers.Searches (run : StopHandlers Tick) (id : ResourceId)
    (Stopped Searched : Sequence → Sequence → Prop) : Prop where
  stop : ∀ c : Sequence, (c.stopWith run).Always fun x => x.2 = none → Stopped c x.1
  children : ∀ body cs cs',
    Extends (fun c c' => if c.isPicked id then Stopped c c' else Searched c c') cs cs' →
      Searched (.mk body cs) (.mk body cs')

section Searching

variable {run : StopHandlers Tick} {id : ResourceId} {Stopped Searched : Sequence → Sequence → Prop}

mutual

theorem Sequence.stopRoutineWith_searched (h : run.Searches id Stopped Searched) : ∀ s : Sequence,
    (s.stopRoutineWith run id).Always fun x => x.2.2 = none → Searched s x.1
  | .mk body children => by
    unfold Sequence.stopRoutineWith
    exact .bind (stopRoutineIn_searched h children) fun x hx =>
      .pure fun hn => h.children body children x.1 (hx hn)

theorem stopRoutineIn_searched (h : run.Searches id Stopped Searched) : ∀ cs : List Sequence,
    (stopRoutineIn run id cs).Always fun x => x.2.2 = none →
      Extends (fun c c' => if c.isPicked id then Stopped c c' else Searched c c') cs x.1
  | [] => .pure fun _ => .nil
  | c :: cs => by
    have rest (c' : Sequence) (count : Nat) (halt : Option Halt)
        (hc : halt = none → if c.isPicked id then Stopped c c' else Searched c c') :
        Tick.Always (if halt.isSome then pure (c' :: cs, count, halt) else do
          let (cs, more, halt) ← stopRoutineIn run id cs
          return (c' :: cs, count + more, halt))
          fun x => x.2.2 = none →
            Extends (fun c c' => if c.isPicked id then Stopped c c' else Searched c c')
              (c :: cs) x.1 := by
      split
      next hh =>
        refine .pure fun hn => ?_
        rw [show halt = none from hn] at hh
        cases hh
      next hh =>
        refine .bind (stopRoutineIn_searched h cs) fun y hy => .pure fun hn => ?_
        exact .cons (hc (by simpa using hh)) (hy hn)
    unfold stopRoutineIn
    dsimp only
    split
    next hp =>
      refine .bind (h.stop c) fun x hx => rest x.1 1 x.2 fun hn => ?_
      rw [if_pos (show c.isPicked id = true from hp)]
      exact hx hn
    next hp =>
      refine .bind (Sequence.stopRoutineWith_searched h c) fun x hx =>
        rest x.1 x.2.1 x.2.2 fun hn => ?_
      rw [if_neg (show ¬c.isPicked id = true from hp)]
      exact hx hn

end

end Searching

namespace Sequence

variable {run : StopHandlers Tick} {id : ResourceId} {s s' d : Sequence} {path : List Nat}

/-- Whatever a search comes to is hushed. -/
theorem stopRoutineWith_hushed (hr : run.Persist) (id : ResourceId) (s : Sequence) :
    (s.stopRoutineWith run id).Always fun x => x.2.2 = none → s.HushedAt (s.Sought id) x.1 := by
  have h : run.Searches id Hushed fun s s' => s.HushedAt (s.Sought id) s' := by
    refine ⟨stopWith_hushed hr, fun body cs cs' hcs path d hp hd => ?_⟩
    cases path with
    | nil => exact hp.elim
    | cons i path =>
      obtain ⟨c, hc, hp⟩ := hp
      obtain ⟨c', hc', hh⟩ := hcs i c hc
      simp only [at?_cons, hc, Option.bind_some] at hd
      rw [at?_cons, children_mk, hc', Option.bind_some]
      split at hp
      next hk =>
        rw [if_pos hk] at hh
        exact hh path d hp hd
      next hk =>
        rw [if_neg hk] at hh
        exact hh path d hp hd
  exact stopRoutineWith_searched h s

def IsLive (s : Sequence) : Prop := ∀ path d, s.at? path = some d → d.body.isEnded = false

theorem IsLive.child {i : Nat} {c : Sequence} (h : s.IsLive) (hc : s.children[i]? = some c) :
    c.IsLive :=
  fun path d hd => h (i :: path) d (by simpa [hc] using hd)

/-- A stop comes to every place of a tree in which nothing has ended. -/
theorem IsLive.reaches (h : s.IsLive) (hd : s.at? path = some d) : s.Reaches path := by
  induction path generalizing s with
  | nil => exact h [] s rfl
  | cons i path ih =>
    obtain ⟨c, hc, hd⟩ := Option.bind_eq_some_iff.mp hd
    exact ⟨h [] s rfl, c, hc, ih (h.child hc) hd⟩

/-- Only what is below something that has ended is overlooked. -/
theorem IsLive.not_overlooked (h : s.IsLive) (id : ResourceId) (hd : s.at? path = some d) :
    ¬s.Overlooked id path := by
  induction path generalizing s with
  | nil => exact fun ho => ho
  | cons i path ih =>
    rintro ⟨c, hc, ho⟩
    simp only [at?_cons, hc, Option.bind_some] at hd
    split at ho
    · exact ho ((h.child hc).reaches hd)
    · exact ih (h.child hc) hd ho

def KeepsChildren (s s' : Sequence) : Prop := Extends Eq s.children s'.children

/-- The stop handlers of everything there leave the children alone. -/
def StopsAlone (s : Sequence) : Prop :=
  ∀ path d, s.at? path = some d → ∀ e ∈ d.body.routine.onStop, e.action.leavesChildren = true

def StaysAt (p : List Nat → Prop) (s s' : Sequence) : Prop :=
  ∀ path d, p path → s.at? path = some d → s'.at? path = some d

theorem KeepsChildren.trans {s'' : Sequence} (h : s.KeepsChildren s') (h' : s'.KeepsChildren s'') :
    s.KeepsChildren s'' :=
  Extends.trans (fun _ _ _ => Eq.trans) h h'

/-- Effects that leave the children alone leave them where and as they are. -/
theorem execute_keepsChildren (run : StopHandlers Tick) (s : Sequence) {e : Effect}
    (he : e.action.leavesChildren = true) :
    (s.execute run e).Always fun x => s.KeepsChildren x.1 ∧ ∀ es, x.2 ≠ .splice es := by
  refine .bind (s.body.perform_does e) fun x hx => ?_
  obtain ⟨body, flow⟩ := x
  have same : s.KeepsChildren (mk body s.children) := Extends.refl (fun _ => rfl) _
  cases flow with
  | spawned child =>
    exact .pure ⟨Extends.append (fun _ => rfl) s.children [child], fun _ => nofun⟩
  | stopRoutine id =>
    rw [hx.action_of_stopRoutine] at he
    cases he
  | splice effects =>
    obtain ⟨choices, ha⟩ := hx.action_of_splice
    rw [ha] at he
    cases he
  | proceed | hold | fault => exact .pure ⟨same, fun _ => nofun⟩

/-- So do handlers made of such effects. -/
theorem runHandlers_keepsChildren (run : StopHandlers Tick) (n : Nat) {es : List Effect}
    (hes : ∀ e ∈ es, e.action.leavesChildren = true) (s : Sequence) :
    (runHandlers run n es s).Always fun x => s.KeepsChildren x.1 := by
  have same (f : SequenceBody → SequenceBody) (s : Sequence) : s.KeepsChildren (s.mapBody f) := by
    rw [KeepsChildren, children_mapBody]
    exact Extends.refl (fun _ => rfl) _
  induction n generalizing es s with
  | zero => exact .pure (Extends.refl (fun _ => rfl) _)
  | succ n ih =>
    cases es with
    | nil => exact .pure (same _ s)
    | cons e es =>
      obtain ⟨he, hes⟩ := List.forall_mem_cons.mp hes
      unfold runHandlers
      split
      · exact ih hes s
      · refine .bind (execute_keepsChildren run s he) fun x hx => ?_
        obtain ⟨s', next⟩ := x
        cases next with
        | proceed => exact .mono (ih hes s') fun _ => hx.1.trans
        | splice effects => exact (hx.2 effects rfl).elim
        | hold => exact .pure (hx.1.trans (same _ s'))
        | halt why => exact .pure hx.1

theorem settle_keepsChildren (s : Sequence) (halt : Option Halt) :
    (s.settle halt).Always fun x => s.KeepsChildren x.1 := by
  unfold settle
  split
  · exact .after _ fun _ => .pure (Extends.refl (fun _ => rfl) _)
  · exact .pure (Extends.refl (fun _ => rfl) _)

theorem runStopHandlers_keepsChildren (depth : Nat) {s : Sequence}
    (hs : ∀ e ∈ s.body.routine.onStop, e.action.leavesChildren = true) :
    (runStopHandlers depth s).Always fun x => s.KeepsChildren x.1 := by
  cases depth with
  | zero => exact .pure (Extends.refl (fun _ => rfl) _)
  | succ depth =>
    refine .after _ fun r => .bind (runHandlers_keepsChildren _ r.fuel hs s) fun x hx => ?_
    exact .mono (settle_keepsChildren x.1 x.2) fun _ => hx.trans

theorem StopsAlone.child {body : SequenceBody} {children : List Sequence} {i : Nat} {c : Sequence}
    (h : (mk body children).StopsAlone) (hc : children[i]? = some c) : c.StopsAlone :=
  fun path d hd => h (i :: path) d (by simpa [hc] using hd)

end Sequence

/-- Stop handlers that keep the children of a sequence where no handler of its stops others. -/
def StopHandlers.KeepChildren (run : StopHandlers Tick) : Prop :=
  ∀ s, (∀ e ∈ s.body.routine.onStop, e.action.leavesChildren = true) →
    (run s).Always fun x => s.KeepsChildren x.1

section Staying

variable {run : StopHandlers Tick}

/-- A stop leaves as it was what it does not come to, if no handlers stop others. -/
def Sequence.Spares (s s' : Sequence) : Prop :=
  s.StopsAlone → s.StaysAt (fun path => ¬s.Reaches path) s'

theorem Sequence.Spares.refl (s : Sequence) : s.Spares s := fun _ _ _ _ hd => hd

theorem Sequence.spares_mk {body body' : SequenceBody} {cs cs' : List Sequence}
    (hs : body.isEnded = false) (hc : Extends Sequence.Spares cs cs') :
    (Sequence.mk body cs).Spares (.mk body' cs') := by
  intro hq path d hp hd
  cases path with
  | nil => exact (hp hs).elim
  | cons i path =>
    obtain ⟨c, hi, hd⟩ := Option.bind_eq_some_iff.mp hd
    obtain ⟨c', hi', hh⟩ := hc i c hi
    have hp : ¬c.Reaches path := fun hr => hp ⟨hs, c, hi, hr⟩
    have hd := hh (hq.child hi) path d hp hd
    simpa [show cs'[i]? = some c' from hi'] using hd

mutual

theorem Sequence.stopWith_spares (hr : run.KeepChildren) : ∀ s : Sequence,
    (s.stopWith run).Always fun x => s.Spares x.1
  | .mk body children => by
    cases hs : body.isEnded with
    | true =>
      rw [stopWith_of_ended run (s := .mk body children) hs]
      exact .pure (.refl _)
    | false =>
      rw [stopWith_of_live run (s := .mk body children) hs]
      refine .bind (stopAllWith_spares hr children) fun x hx => ?_
      dsimp only
      split
      · exact .pure (Sequence.spares_mk hs hx)
      · intro r h hq
        have hown := hr (.mk body.halted x.1) (hq [] (.mk body children) rfl) r h
        have hc : Extends Sequence.Spares children
            (run (.mk body.halted x.1) r h).1.1.children := by
          intro i c hi
          obtain ⟨c', hi', hh⟩ := hx i c hi
          obtain ⟨_, hi'', rfl⟩ := hown i c' hi'
          exact ⟨c', hi'', hh⟩
        have hh : (Sequence.mk body children).Spares
            (.mk (run (.mk body.halted x.1) r h).1.1.body
              (run (.mk body.halted x.1) r h).1.1.children) := Sequence.spares_mk hs hc
        rw [Sequence.mk_eta] at hh
        exact hh hq

theorem stopAllWith_spares (hr : run.KeepChildren) : ∀ cs : List Sequence,
    (stopAllWith run cs).Always fun x => Extends Sequence.Spares cs x.1
  | [] => .pure .nil
  | c :: cs => by
    unfold stopAllWith
    refine .bind (Sequence.stopWith_spares hr c) fun x hx => ?_
    dsimp only
    split
    · exact .pure (.cons hx (.refl Sequence.Spares.refl cs))
    · exact .bind (stopAllWith_spares hr cs) fun y hy => .pure (.cons hx hy)

end

end Staying

namespace Sequence

variable {run : StopHandlers Tick} {id : ResourceId} {s s' : Sequence} {r : Surroundings} {h : Host}

/-- A search leaves as it was what it overlooks. -/
theorem stopRoutineWith_spares (hr : run.KeepChildren) (id : ResourceId) (s : Sequence) :
    (s.stopRoutineWith run id).Always fun x => x.2.2 = none → s.StopsAlone →
      s.StaysAt (s.Overlooked id) x.1 := by
  have h : run.Searches id Spares fun s s' => s.StopsAlone → s.StaysAt (s.Overlooked id) s' := by
    refine ⟨fun c => (stopWith_spares hr c).mono fun _ hx _ => hx, ?_⟩
    intro body cs cs' hcs hq path d hp hd
    cases path with
    | nil => exact hp.elim
    | cons i path =>
      obtain ⟨c, hc, hp⟩ := hp
      obtain ⟨c', hc', hh⟩ := hcs i c hc
      have hqc : c.StopsAlone := hq.child hc
      simp only [at?_cons, hc, Option.bind_some] at hd
      rw [at?_cons, children_mk, hc', Option.bind_some]
      split at hp
      next hk =>
        rw [if_pos hk] at hh
        exact hh hqc path d hp hd
      next hk =>
        rw [if_neg hk] at hh
        exact hh hqc path d hp hd
  exact stopRoutineWith_searched h s

/-- A search ends all that run the routine exactly if what it overlooks has ended. -/
theorem endsAll_iff_of_hushed (hh : s.HushedAt (s.Sought id) s') (hl : s.Later s') :
    s.EndsAll id s' ↔ ∀ path d, s.Overlooked id path → s.at? path = some d →
      d.body.routine.id = id → ∃ d', s'.at? path = some d' ∧ d'.body.isEnded = true := by
  constructor
  · intro hall path d ho hd hid
    have hne : path ≠ [] := by
      rintro rfl
      exact ho
    exact hall path d hne hd hid
  · intro hrest path d hne hd hid
    rcases ended_or_sought_or_overlooked hne hd hid with he | hs | ho
    · obtain ⟨d', hd', hlater⟩ := hl path d hd
      exact ⟨d', hd', hlater.ended he⟩
    · obtain ⟨d', hd', hushed⟩ := hh path d hs hd
      exact ⟨d', hd', hushed.ended⟩
    · exact hrest path d ho hd hid

/-- Once a search has gone through, everything that ran the routine has ended exactly when what it
overlooked has. Where no stop handlers stop others, what was overlooked is as it was; so everything
has ended exactly when of what was overlooked all that ran the routine had ended before. -/
theorem stopRoutine_endsAll_iff (hok : (s.stopRoutine id r h).1.2.2 = none) :
    (s.EndsAll id (s.stopRoutine id r h).1.1 ↔
      ∀ path d, s.Overlooked id path → s.at? path = some d → d.body.routine.id = id →
        ∃ d', (s.stopRoutine id r h).1.1.at? path = some d' ∧ d'.body.isEnded = true) ∧
    (s.StopsAlone → (s.EndsAll id (s.stopRoutine id r h).1.1 ↔
      ∀ path d, s.Overlooked id path → s.at? path = some d → d.body.routine.id = id →
        d.body.isEnded = true)) := by
  have hp := persist_runStopHandlers r.fuel
  have hhushed := stopRoutineWith_hushed hp id s r h hok
  have hlater := stopRoutineWith_pathwise SequenceBody.lasting_later hp id s r h
  have hall := endsAll_iff_of_hushed hhushed hlater
  refine ⟨hall, fun hq => hall.trans ?_⟩
  have hspared := stopRoutineWith_spares (fun _ hs => runStopHandlers_keepsChildren r.fuel hs) id s
    r h hok hq
  constructor
  · intro hrest path d ho hd hid
    obtain ⟨d', hd', he⟩ := hrest path d ho hd hid
    cases (hspared path d ho hd).symm.trans hd'
    exact he
  · intro hrest path d ho hd hid
    exact ⟨d, hspared path d ho hd, hrest path d ho hd hid⟩

def lamp : ResourceId := ⟨0x6c, 0x61, 0x6d, 0x70⟩

def waiting (id : ResourceId) (number : Nat) : SequenceBody :=
  .fresh ⟨number⟩ ⟨id, ResourcePath.root, [⟨100, 0, .wait⟩], [], [], false⟩ .weather 1 0

/-- A lamp with something between it and the lamp that it is in. -/
def lampInLamp (between : SequenceBody) : Sequence :=
  mk (waiting ResourceId.none 0) [mk (waiting lamp 1) [mk between [mk (waiting lamp 3) []]]]

theorem lampInLamp_endsAll :
    let s := lampInLamp (waiting ResourceId.none 2)
    (s.stopRoutine lamp .bare .fresh).1.2.2 = none ∧ s.StopsAlone ∧
      s.EndsAll lamp (s.stopRoutine lamp .bare .fresh).1.1 := by
  intro s
  have hok : (s.stopRoutine lamp .bare .fresh).1.2.2 = none := by decide +kernel
  have halone : s.StopsAlone := by
    simp [StopsAlone, s, lampInLamp, forall_at?_mk, waiting, SequenceBody.fresh]
  have hlive : s.IsLive := by
    simp [IsLive, s, lampInLamp, forall_at?_mk, waiting, SequenceBody.fresh,
      SequenceBody.isEnded, SequenceBody.isFailed]
  refine ⟨hok, halone, ((stopRoutine_endsAll_iff hok).2 halone).mpr fun path d ho hd _ => ?_⟩
  exact absurd ho (hlive.not_overlooked lamp hd)

/-- Below something that was stopped the inner lamp goes on. -/
theorem lampInLamp_overlooked :
    let s := lampInLamp (waiting ResourceId.none 2).halted
    (s.stopRoutine lamp .bare .fresh).1.2.2 = none ∧
      ¬s.EndsAll lamp (s.stopRoutine lamp .bare .fresh).1.1 := by
  intro s
  refine ⟨by decide +kernel, fun hall => ?_⟩
  obtain ⟨d', hd', he⟩ := hall [0, 0, 0] (mk (waiting lamp 3) []) (by simp) rfl rfl
  have hgoes : ((s.stopRoutine lamp .bare .fresh).1.1.at? [0, 0, 0]).map (·.body.isEnded) =
      some false := by decide +kernel
  rw [hd', Option.map_some, he] at hgoes
  cases hgoes

end Sequence
end EffectMachine
