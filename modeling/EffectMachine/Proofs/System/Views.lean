import EffectMachine.Proofs.System.Conduct

namespace EffectMachine

open EffectMachine.System

/-- What a system holds of the activation of a name: the sequence, if it is there, and the failures
that were recorded for it. -/
structure View where
  sequence? : Option Sequence
  failures : List ActivationFailure

def Sequence.move (elapsed : Scalar) (q : Sequence) : Tick (Sequence × Option Halt) :=
  if q.isFailed then return (q, none) else q.advance elapsed

namespace View

def step (f : Sequence → Tick (Sequence × Option Halt)) (v : View) :
    Tick (View × Option Halt) := do
  match v.sequence? with
  | none => return (v, none)
  | some q =>
    let (q, halt) ← f q
    return (⟨some q, v.failures ++ failureOf q halt⟩, halt)

def stopIf (pick : Sequence → Bool) (v : View) : Tick View := do
  let (v, _) ← v.step fun q => if pick q then q.stop else return (q, none)
  return v

/-- Lets go of a sequence that has failed or is complete. -/
def swept (v : View) : View :=
  { v with sequence? := v.sequence?.filter fun q => !q.isFailed && !q.isComplete }

/-- What a request does to the activation of a name. -/
def serve (a : SequenceId) (v : View) : Request → Tick (View × Option Halt)
  | .stop id => do
    let v ← v.stopIf fun _ => id = a
    return (v, none)
  | .stopRoutine routine => do
    let v ← v.stopIf fun q => q.body.routine.id = routine && !q.body.stopped
    return (v, none)
  | .advance elapsed => do
    let (v, halt) ← v.step (Sequence.move elapsed)
    if halt = some .outOfFuel then return (v, halt)
    return (v.swept, none)
  | _ => return (v, none)

theorem step_none {f : Sequence → Tick (Sequence × Option Halt)} {v : View}
    (hv : v.sequence? = none) : v.step f = pure (v, none) := by
  simp only [step, hv]

theorem step_some {f : Sequence → Tick (Sequence × Option Halt)} {v : View} {q : Sequence}
    (hv : v.sequence? = some q) (r : Surroundings) (h : Host) :
    v.step f r h =
      ((⟨some (f q r h).1.1, v.failures ++ failureOf (f q r h).1.1 (f q r h).1.2⟩,
        (f q r h).1.2), (f q r h).2) := by
  simp only [step, hv]
  rfl

theorem stopIf_some {pick : Sequence → Bool} {v : View} {q : Sequence}
    (hv : v.sequence? = some q) (hp : pick q = true) (r : Surroundings) (h : Host) :
    v.stopIf pick r h =
      (⟨some (q.stop r h).1.1, v.failures ++ failureOf (q.stop r h).1.1 (q.stop r h).1.2⟩,
        (q.stop r h).2) := by
  rw [stopIf, Tick.run_bind, step_some hv, hp, if_pos rfl]
  rfl

theorem stopIf_of_skip {pick : Sequence → Bool} {v : View}
    (hp : ∀ q, v.sequence? = some q → pick q = false) : v.stopIf pick = pure v := by
  obtain ⟨q?, fs⟩ := v
  funext r h
  rw [stopIf, Tick.run_bind]
  cases q? with
  | none => rw [step_none rfl]; rfl
  | some q =>
    rw [step_some rfl, hp q rfl, if_neg Bool.false_ne_true]
    change (View.mk (some q) (fs ++ []), h) = _
    rw [List.append_nil]
    rfl

end View

def Ledger.view (l : Ledger) (a : SequenceId) : View :=
  ⟨l.system.get? a, l.recorded.filter fun x => x.sequence = a⟩

/-- Between two hosts something has run and come back with a result. -/
def Tick.Between {α : Type} (x : Tick α) (r : Surroundings) (h h' : Host) (a : α) : Prop :=
  ∃ k, h.nextSequence ≤ k.nextSequence ∧ (x r k).1 = a ∧
    (x r k).2.nextSequence ≤ h'.nextSequence

section Lists

variable {pre post : List Sequence} {q q' : Sequence} {a : SequenceId}

/-- The one sequence of a name. -/
theorem find?_named (hn : (idsOf (pre ++ q :: post)).Nodup) :
    (pre ++ q :: post).find? (fun p => p.body.id = q.body.id) = some q := by
  rw [idsOf_append, List.nodup_append] at hn
  have hpre : pre.find? (fun p => p.body.id = q.body.id) = none := by
    refine List.find?_eq_none.mpr fun p hp => ?_
    simpa using hn.2.2 _ (List.mem_map_of_mem hp) _ List.mem_cons_self
  rw [List.find?_append, hpre, Option.none_or, List.find?_cons_of_pos (by simp)]

/-- Others are found as before. -/
theorem find?_other (hq : q.body.id ≠ a) (hq' : q'.body.id = q.body.id) :
    (pre ++ q' :: post).find? (fun p => p.body.id = a) =
      (pre ++ q :: post).find? fun p => p.body.id = a := by
  rw [List.find?_append, List.find?_append, List.find?_cons_of_neg (by simpa [hq'] using hq),
    List.find?_cons_of_neg (by simpa using hq)]

theorem find?_eq_none_iff {qs : List Sequence} :
    qs.find? (fun q => q.body.id = a) = none ↔ a ∉ idsOf qs := by
  rw [List.find?_eq_none, idsOf, List.mem_map]
  simp

theorem filter_failureOf (q : Sequence) (halt : Option Halt) (a : SequenceId) :
    (failureOf q halt).filter (fun x => x.sequence = a) =
      if q.body.id = a then failureOf q halt else [] := by
  unfold failureOf
  split
  · split
    next hq => simp [hq]
    next hq => simp [hq]
  · simp

end Lists

namespace Tick.Between

variable {α β : Type} {r : Surroundings} {h h' k : Host}

theorem later {x : Tick α} {a : α} (hx : x.Between r h h' a) {g g' : Host}
    (hg : g.nextSequence ≤ h.nextSequence) (hg' : h'.nextSequence ≤ g'.nextSequence) :
    x.Between r g g' a := by
  obtain ⟨k, hk, ha, hk'⟩ := hx
  exact ⟨k, Nat.le_trans hg hk, ha, Nat.le_trans hk' hg'⟩

theorem pure {a : α} (hl : h.nextSequence ≤ h'.nextSequence) :
    (Pure.pure a : Tick α).Between r h h' a :=
  ⟨h, Nat.le_refl _, rfl, hl⟩

/-- More may be made of the result, without the host. -/
theorem bind_pure {x : Tick α} {f : α → Tick β} {a : α} {b : β} (hx : x.Between r h h' a)
    (hf : f a = Pure.pure b) : (x >>= f).Between r h h' b := by
  obtain ⟨k, hk, rfl, hk'⟩ := hx
  refine ⟨k, hk, ?_, ?_⟩
  · rw [run_bind, hf]
    rfl
  · rw [run_bind, hf]
    exact hk'

end Tick.Between

namespace Ledger

variable {l : Ledger} {r : Surroundings} {h : Host} {a : SequenceId}

/-- A stop of that name. -/
theorem view_stop_same (hn : (idsOf l.system.sequences).Nodup) (pick : Sequence → Bool)
    (hp : ∀ q, l.system.get? a = some q → pick q = true) :
    ({ l with system := (l.system.stop a r h).1.1 } : Ledger).view a =
        ((l.view a).stopIf pick r h).1 ∧
      (l.system.stop a r h).2 = ((l.view a).stopIf pick r h).2 := by
  rcases l.system.stop_cases a r h with ⟨hx, ha⟩ | ⟨pre, q, post, hs, rfl, hx⟩
  · have hnone : l.system.get? a = none := find?_eq_none_iff.mpr ha
    have hskip : (l.view a).stopIf pick = pure (l.view a) :=
      View.stopIf_of_skip fun q (hq : l.system.get? a = some q) => by
        rw [hnone] at hq
        cases hq
    rw [hskip, hx]
    exact ⟨rfl, rfl⟩
  · rw [hs] at hn
    have hq : l.system.get? q.body.id = some q := by
      rw [System.get?, hs]
      exact find?_named hn
    have hid := q.stop_id r h
    have hn' : (idsOf (pre ++ (q.stop r h).1.1 :: post)).Nodup := by
      simpa [hid] using hn
    rw [View.stopIf_some hq (hp q hq), hx]
    refine ⟨?_, rfl⟩
    rw [view, recorded_with, List.filter_append, filter_failureOf, if_pos hid]
    have hf := find?_named hn'
    rw [hid] at hf
    rw [System.get?, hf]
    rfl

/-- A stop of another name. -/
theorem view_stop_other {id : SequenceId} (hid : id ≠ a) :
    ({ l with system := (l.system.stop id r h).1.1 } : Ledger).view a = l.view a := by
  rcases l.system.stop_cases id r h with ⟨hx, _⟩ | ⟨pre, q, post, hs, rfl, hx⟩
  · rw [hx]
  · have hq := q.stop_id r h
    rw [hx, view, view, recorded_with, List.filter_append, filter_failureOf, hq, if_neg hid,
      List.append_nil, System.get?, System.get?, hs, find?_other hid hq]

end Ledger

section Forward

theorem System.any_stands (s : System) : s.Stands fun _ : Unit => Conduct.any :=
  ⟨fun q _ => ⟨(), q.any_sound⟩, fun _ _ => ⟨(), trivial⟩⟩

theorem System.forward_stop (s : System) (id : SequenceId) : (s.stop id).Forward :=
  .of_leads fun r => (stop_stands (fun _ => Conduct.any_forward r) s.any_stands id).leads

theorem System.forward_stopEach (s : System) (ids : List SequenceId) : (s.stopEach ids).Forward :=
  .of_leads fun r => (stopEach_stands (fun _ => Conduct.any_forward r) ids s.any_stands).leads

end Forward

namespace Ledger

variable {l : Ledger} {r : Surroundings} {h : Host} {a : SequenceId}

theorem view_stopEach_other (ids : List SequenceId) (ha : a ∉ ids) :
    ({ l with system := (l.system.stopEach ids r h).1.1 } : Ledger).view a = l.view a := by
  induction ids generalizing l h with
  | nil => rfl
  | cons id ids ih =>
    obtain ⟨hid, ha⟩ : a ≠ id ∧ a ∉ ids := by simpa using ha
    rw [(l.system.stopEach_cons id ids r h).1]
    have hrest := ih (l := { l with system := (l.system.stop id r h).1.1 })
      (h := (l.system.stop id r h).2) ha
    exact hrest.trans (view_stop_other (Ne.symm hid))

/-- Among several stops, one is of that name. -/
theorem view_stopEach_same (ids : List SequenceId) (hids : ids.Nodup) (ha : a ∈ ids)
    (hn : (idsOf l.system.sequences).Nodup) {pick : Sequence → Bool}
    (hp : ∀ q, l.system.get? a = some q → pick q = true) :
    ((l.view a).stopIf pick).Between r h (l.system.stopEach ids r h).2
      (({ l with system := (l.system.stopEach ids r h).1.1 } : Ledger).view a) := by
  induction ids generalizing l h with
  | nil => cases ha
  | cons id ids ih =>
    obtain ⟨hnew, hids⟩ := List.nodup_cons.mp hids
    obtain ⟨hs, hh⟩ := l.system.stopEach_cons id ids r h
    rw [hs, hh]
    rcases List.mem_cons.mp ha with rfl | ha
    · obtain ⟨hv, hk⟩ := view_stop_same (r := r) (h := h) hn pick hp
      have hrest := view_stopEach_other (r := r) (h := (l.system.stop a r h).2)
        (l := { l with system := (l.system.stop a r h).1.1 }) ids hnew
      refine ⟨h, Nat.le_refl _, (hrest.trans hv).symm, ?_⟩
      rw [← hk]
      exact System.forward_stopEach _ ids r _
    · have hne : id ≠ a := fun he => hnew (he ▸ ha)
      have hv := view_stop_other (l := l) (r := r) (h := h) hne
      have hget : (l.system.stop id r h).1.1.get? a = l.system.get? a :=
        congrArg View.sequence? hv
      have hx := ih (l := { l with system := (l.system.stop id r h).1.1 })
        (h := (l.system.stop id r h).2) hids ha (by rw [idsOf_stop]; exact hn)
        fun q hq => hp q (hget ▸ hq)
      rw [hv] at hx
      exact hx.later (l.system.forward_stop id r h) (Nat.le_refl _)

/-- Those that are picked are those whose names are stopped. -/
theorem view_stopEach (ids : List SequenceId) (hids : ids.Nodup)
    (hn : (idsOf l.system.sequences).Nodup) {pick : Sequence → Bool}
    (hp : ∀ q, l.system.get? a = some q → (pick q = true ↔ a ∈ ids)) :
    ((l.view a).stopIf pick).Between r h (l.system.stopEach ids r h).2
      (({ l with system := (l.system.stopEach ids r h).1.1 } : Ledger).view a) := by
  by_cases ha : a ∈ ids
  · exact view_stopEach_same ids hids ha hn fun q hq => (hp q hq).mpr ha
  · have hskip : (l.view a).stopIf pick = pure (l.view a) :=
      View.stopIf_of_skip fun q hq => Bool.eq_false_iff.mpr fun hq' => ha ((hp q hq).mp hq')
    rw [hskip, view_stopEach_other ids ha]
    exact .pure (l.system.forward_stopEach ids r h)

end Ledger

section Moving

variable {elapsed : Scalar} {r : Surroundings} {a : SequenceId}

theorem filter_eq_nil_of_moved {qs qs' : List Sequence} {fs : List ActivationFailure}
    (hm : Moved qs qs' fs) (ha : a ∉ idsOf qs) :
    fs.filter (fun x => x.sequence = a) = [] := by
  refine List.filter_eq_nil_iff.mpr fun x hx => ?_
  have hi := hm.subset (List.mem_map_of_mem hx)
  simpa using fun he : x.sequence = a => ha (he ▸ hi)

theorem Sequence.forward_move (q : Sequence) : (q.move elapsed).Forward :=
  .ite (.pure _) (q.forward_advance elapsed)

theorem Sequence.move_id (q : Sequence) (h : Host) :
    (q.move elapsed r h).1.1.body.id = q.body.id := by
  unfold Sequence.move
  split
  · rfl
  · exact q.ticked_id ⟨elapsed, r, h⟩

/-- The first of a list moves first, and the rest go on from there. -/
theorem advanceIn_cons (q : Sequence) (qs : List Sequence) (h : Host) :
    advanceIn elapsed (q :: qs) r h =
      let x := q.move elapsed r h
      if x.1.2 = some .outOfFuel then ((x.1.1 :: qs, [], x.1.2), x.2)
      else
        let y := advanceIn elapsed qs r x.2
        ((x.1.1 :: y.1.1, failureOf x.1.1 x.1.2 ++ y.1.2.1, y.1.2.2), y.2) := by
  cases hq : q.isFailed with
  | true =>
    rw [advanceIn_of_failed hq, Sequence.move, hq]
    rfl
  | false =>
    rw [advanceIn_of_live hq, Sequence.move, hq]
    rfl

/-- By induction on the list. The tick of each is one of those that the list takes in turn. -/
theorem view_advanceIn (qs : List Sequence) (h : Host) (hn : (idsOf qs).Nodup)
    (hr : (advanceIn elapsed qs r h).1.2.2 ≠ some .outOfFuel) (fs : List ActivationFailure) :
    ∃ halt, halt ≠ some .outOfFuel ∧
      (View.step (Sequence.move elapsed) ⟨qs.find? fun q => q.body.id = a, fs⟩).Between r h
        (advanceIn elapsed qs r h).2
        (⟨(advanceIn elapsed qs r h).1.1.find? fun q => q.body.id = a,
          fs ++ (advanceIn elapsed qs r h).1.2.1.filter fun x => x.sequence = a⟩, halt) := by
  induction qs generalizing h with
  | nil =>
    rw [View.step_none rfl]
    refine ⟨none, by simp, h, Nat.le_refl _, ?_, Nat.le_refl _⟩
    simp [advanceIn]
  | cons q qs ih =>
    obtain ⟨hnew, hn⟩ : q.body.id ∉ idsOf qs ∧ (idsOf qs).Nodup := List.nodup_cons.mp hn
    rw [advanceIn_cons] at hr ⊢
    dsimp only at hr ⊢
    split at hr
    next ho => exact absurd ho hr
    next ho =>
      rw [if_neg ho]
      have hid : (q.move elapsed r h).1.1.body.id = q.body.id := q.move_id h
      by_cases ha : q.body.id = a
      · -- The others are not of that name, and record nothing under it.
        have hrest := filter_eq_nil_of_moved (advanceIn_moved qs _ hr) (ha ▸ hnew)
        rw [List.find?_cons_of_pos (by simpa using ha),
          List.find?_cons_of_pos (by simpa [hid] using ha), List.filter_append, hrest,
          filter_failureOf, hid, if_pos ha, List.append_nil]
        refine ⟨_, ho, h, Nat.le_refl _, ?_, ?_⟩
        · rw [View.step_some rfl]
        · rw [View.step_some rfl]
          exact forward_advanceIn elapsed qs r _
      · rw [List.find?_cons_of_neg (by simpa using ha),
          List.find?_cons_of_neg (by simpa [hid] using ha), List.filter_append,
          filter_failureOf, hid, if_neg ha, List.nil_append]
        obtain ⟨halt, hh, hb⟩ := ih _ hn hr
        exact ⟨halt, hh, hb.later (q.forward_move r h) (Nat.le_refl _)⟩

/-- What is swept from a list in which names are used once is swept from what a name stands for. -/
theorem find?_filter_named (qs : List Sequence) (keep : Sequence → Bool)
    (hn : (idsOf qs).Nodup) : (qs.filter keep).find? (fun q => q.body.id = a) =
      (qs.find? fun q => q.body.id = a).filter keep := by
  induction qs with
  | nil => rfl
  | cons q qs ih =>
    obtain ⟨hnew, hn⟩ := List.nodup_cons.mp hn
    by_cases ha : q.body.id = a
    · rw [List.find?_cons_of_pos (by simpa using ha), List.filter_cons]
      cases hk : keep q with
      | true =>
        rw [if_pos rfl, List.find?_cons_of_pos (by simpa using ha), Option.filter_some_pos hk]
      | false =>
        have hnone : qs.find? (fun q => q.body.id = a) = none := by
          refine List.find?_eq_none.mpr fun p hp => ?_
          simpa using fun he : p.body.id = a =>
            hnew (List.mem_map.mpr ⟨p, hp, he.trans ha.symm⟩)
        rw [if_neg Bool.false_ne_true, ih hn, hnone, Option.filter_some_neg (by simpa using hk),
          Option.filter_none]
    · rw [List.find?_cons_of_neg (by simpa using ha), ← ih hn, List.filter_cons]
      split
      · rw [List.find?_cons_of_neg (by simpa using ha)]
      · rfl

end Moving

namespace Ledger

/-- Names are used once, and all are given already. -/
structure Named (l : Ledger) (h : Host) : Prop where
  once : (idsOf l.system.sequences).Nodup
  given : ∀ id ∈ idsOf l.system.sequences, id.number < h.nextSequence
  known : ∀ id ∈ namesIn l.recorded, id.number < h.nextSequence

theorem named_empty (h : Host) : Named {} h :=
  ⟨List.nodup_nil, by simp [idsOf], by simp [recorded, namesIn]⟩

structure Within (l l' : Ledger) : Prop where
  ids : (idsOf l'.system.sequences).Sublist (idsOf l.system.sequences)
  names : ∀ id ∈ namesIn l'.recorded,
    id ∈ namesIn l.recorded ∨ id ∈ idsOf l.system.sequences

namespace Within

variable {l l' l'' : Ledger} {r : Surroundings} {h : Host}

theorem refl (l : Ledger) : l.Within l := ⟨List.Sublist.refl _, fun _ hi => .inl hi⟩

theorem trans (hw : l.Within l') (hw' : l'.Within l'') : l.Within l'' :=
  ⟨hw'.ids.trans hw.ids, fun id hi =>
    (hw'.names id hi).elim (hw.names id) fun hi => .inr (hw.ids.subset hi)⟩

/-- A stop brings up no new names. -/
theorem stop (id : SequenceId) :
    l.Within { l with system := (l.system.stop id r h).1.1 } := by
  refine ⟨by rw [idsOf_stop], fun a hi => ?_⟩
  rcases l.system.stop_cases id r h with ⟨hx, _⟩ | ⟨pre, q, post, hs, _, hx⟩
  · rw [hx] at hi
    exact .inl hi
  · rw [hx, recorded_with, namesIn_append, List.mem_append] at hi
    refine hi.imp_right fun hi => ?_
    rw [(mem_namesIn_failureOf.mp hi).1, q.stop_id r h, hs, idsOf_append, idsOf_cons]
    simp

theorem stopEach (ids : List SequenceId) :
    l.Within { l with system := (l.system.stopEach ids r h).1.1 } := by
  induction ids generalizing l h with
  | nil => exact refl l
  | cons id ids ih =>
    rw [(l.system.stopEach_cons id ids r h).1]
    exact (stop id).trans ih

end Within

namespace Named

variable {l l' : Ledger} {h h' : Host}

theorem kept (hn : l.Named h) (hl : h.nextSequence ≤ h'.nextSequence) (hw : l.Within l') :
    l'.Named h' where
  once := hw.ids.nodup hn.once
  given id hi := Nat.lt_of_lt_of_le (hn.given id (hw.ids.subset hi)) hl
  known id hi := Nat.lt_of_lt_of_le ((hw.names id hi).elim (hn.known id) (hn.given id)) hl

theorem later (hn : l.Named h) (hl : h.nextSequence ≤ h'.nextSequence) : l.Named h' :=
  hn.kept hl (.refl l)

/-- What starts has a name that nothing had before. -/
theorem started (hn : l.Named h) {q : Sequence} (hid : q.body.id.number = h.nextSequence)
    (hl : h.nextSequence < h'.nextSequence) :
    Named { l with system := { l.system with sequences := l.system.sequences ++ [q] } } h' where
  once := by
    rw [idsOf_append, List.nodup_append]
    refine ⟨hn.once, by simp [idsOf], fun id hi id' hi' he => ?_⟩
    obtain rfl : id' = q.body.id := by simpa [idsOf] using hi'
    have hlt := hn.given id hi
    rw [he, hid] at hlt
    exact Nat.lt_irrefl _ hlt
  given id hi := by
    rw [idsOf_append, List.mem_append] at hi
    rcases hi with hi | hi
    · exact Nat.lt_trans (hn.given id hi) hl
    · obtain rfl : id = q.body.id := by simpa [idsOf] using hi
      rwa [hid]
  known id hi := Nat.lt_trans (hn.known id hi) hl

end Named

section Serving

variable {l : Ledger} {r : Surroundings} {h : Host} {a : SequenceId}

theorem forward_serve (l : Ledger) (q : Request) : (l.serve q).Forward :=
  .of_leads fun r => (serve_stands (C := fun _ : Unit => Conduct.any)
    (HostOrder.forward_admits []).toMild (fun _ => Conduct.any_forward r)
    (fun _ _ => ⟨(), fun _ _ => trivial⟩) ⟨l.system.any_stands, fun _ _ => ⟨(), trivial⟩⟩).leads

/-- What a request starts comes last, under the next name. -/
theorem serve_of_starts {q : Request} {x : Routine × Binding}
    (hx : q.starts? r.directory = some x) : l.serve q r h =
      (({ l with system := { l.system with sequences := l.system.sequences ++
          [.mk (.fresh ⟨h.nextSequence⟩ x.1 x.2 r.config.playbackRate 0) []] } }, none),
        { h with nextSequence := h.nextSequence + 1 }) := by
  cases q with
  | trigger routine scope binding =>
    obtain ⟨found, hf, rfl⟩ := Option.map_eq_some_iff.mp hx
    have ht : l.system.trigger routine scope binding r h =
        ((fun x => (x.1, some x.2)) <$> l.system.start found binding) r h := by
      unfold System.trigger
      rw [Tick.run_read_bind, hf]
      rfl
    rw [serve, Tick.run_bind, ht]
    rfl
  | start routine binding =>
    obtain rfl : (routine, binding) = x := Option.some.inj hx
    rfl
  | stop | stopRoutine | advance | takeFailures => cases hx

theorem serve_of_unknown {routine : ResourceId} {scope : SearchScope} {binding : Binding}
    (hx : (Request.trigger routine scope binding).starts? r.directory = none) :
    (l.serve (.trigger routine scope binding) r h).1 = (l, none) := by
  have hf : r.directory.routine? routine scope = none := Option.map_eq_none_iff.mp hx
  have ht : l.system.trigger routine scope binding r h =
      (Tick.note (.unknownTrigger routine) >>= fun _ => pure (l.system, none)) r h := by
    unfold System.trigger
    rw [Tick.run_read_bind, hf]
  rw [serve, Tick.run_bind, ht]
  rfl

/-- A tick that does not spend all the fuel. -/
theorem serve_of_advance {elapsed : Scalar}
    (hr : (l.serve (.advance elapsed) r h).1.2 ≠ some .outOfFuel) :
    let x := advanceIn elapsed l.system.sequences r h
    x.1.2.2 ≠ some .outOfFuel ∧ l.serve (.advance elapsed) r h =
      (({ l with system := ⟨x.1.1.filter fun q => !q.isFailed && !q.isComplete,
        l.system.failures ++ x.1.2.1⟩ }, none), x.2) := by
  intro x
  rw [serve, Tick.run_bind, System.advance, Tick.run_bind] at hr ⊢
  rcases advanceIn_halt elapsed l.system.sequences r h with hn | hn
  · refine ⟨by rw [hn]; simp, ?_⟩
    dsimp only
    rw [hn]
    rfl
  · dsimp only at hr
    rw [hn] at hr
    exact absurd rfl hr

/-- What is handed over stays recorded. -/
theorem recorded_taken : (l.serve .takeFailures r h).1.1.recorded = l.recorded :=
  List.append_nil _

/-- What starts nothing brings up no new names. -/
theorem Within.serve {q : Request} (hs : q.starts? r.directory = none)
    (hr : (l.serve q r h).1.2 ≠ some .outOfFuel) : l.Within (l.serve q r h).1.1 := by
  cases q with
  | trigger routine scope binding =>
    rw [serve_of_unknown hs]
    exact .refl l
  | start routine binding => cases hs
  | stop id => exact .stop id
  | stopRoutine routine => exact .stopEach _
  | advance elapsed =>
    obtain ⟨hr, hx⟩ := serve_of_advance hr
    have hm := advanceIn_moved _ _ hr
    rw [hx]
    refine ⟨?_, fun id hi => ?_⟩
    · rw [← hm.ids]
      exact List.filter_sublist.map _
    · rw [recorded_with, namesIn_append, List.mem_append] at hi
      exact hi.imp_right hm.subset
  | takeFailures =>
    refine ⟨List.Sublist.refl _, fun id hi => .inl ?_⟩
    rwa [recorded_taken] at hi

/-- Names are in order after each request. -/
theorem Named.serve (hn : l.Named h) (q : Request)
    (hr : (l.serve q r h).1.2 ≠ some .outOfFuel) :
    (l.serve q r h).1.1.Named (l.serve q r h).2 := by
  cases hs : q.starts? r.directory with
  | some x =>
    rw [serve_of_starts hs]
    exact hn.started rfl (Nat.lt_succ_self _)
  | none => exact hn.kept (forward_serve l q r h) (.serve hs hr)

/-- A new activation is not one that was named before. -/
theorem view_started {q : Sequence} (hq : q.body.id ≠ a) : Ledger.view
    { l with system := { l.system with sequences := l.system.sequences ++ [q] } } a = l.view a := by
  have hnone : [q].find? (fun p => p.body.id = a) = none :=
    List.find?_cons_of_neg (by simpa using hq)
  have hget : (l.system.sequences ++ [q]).find? (fun p => p.body.id = a) =
      l.system.sequences.find? fun p => p.body.id = a := by
    rw [List.find?_append, hnone, Option.or_none]
  exact congrArg (View.mk · _) hget

theorem view_stop (hn : l.Named h) (id : SequenceId) :
    ((l.view a).serve a (.stop id)).Between r h (l.serve (.stop id) r h).2
      ((l.serve (.stop id) r h).1.1.view a, none) := by
  refine Tick.Between.bind_pure ?_ rfl
  exact view_stopEach [id] (List.nodup_singleton id) hn.once fun _ _ => by simp [eq_comm]

theorem view_stopRoutine (hn : l.Named h) (routine : ResourceId) :
    ((l.view a).serve a (.stopRoutine routine)).Between r h (l.serve (.stopRoutine routine) r h).2
      ((l.serve (.stopRoutine routine) r h).1.1.view a, none) := by
  let pick : Sequence → Bool := fun q => q.body.routine.id = routine && !q.body.stopped
  have hids : (idsOf (l.system.sequences.filter pick)).Nodup :=
    (List.filter_sublist.map _).nodup hn.once
  have hfound : (l.system.sequences.filter pick).find? (fun q => q.body.id = a) =
      (l.system.get? a).filter pick := find?_filter_named _ pick hn.once
  refine Tick.Between.bind_pure (view_stopEach _ hids hn.once fun q hq => ?_) rfl
  rw [hq] at hfound
  rw [← not_iff_not, ← find?_eq_none_iff, hfound, Option.filter_eq_none_iff]
  simp [pick]

theorem view_advance (hn : l.Named h) (elapsed : Scalar)
    (hr : (l.serve (.advance elapsed) r h).1.2 ≠ some .outOfFuel) :
    ((l.view a).serve a (.advance elapsed)).Between r h (l.serve (.advance elapsed) r h).2
      ((l.serve (.advance elapsed) r h).1.1.view a, none) := by
  obtain ⟨hr, hx⟩ := serve_of_advance hr
  obtain ⟨halt, hh, hb⟩ := view_advanceIn (a := a) l.system.sequences h hn.once hr
    (l.recorded.filter fun x => x.sequence = a)
  rw [hx]
  refine hb.bind_pure ?_
  dsimp only
  rw [if_neg hh, view, recorded_with, List.filter_append, System.get?,
    find?_filter_named _ _ ((advanceIn_moved _ _ hr).ids ▸ hn.once)]
  rfl

/-- Whatever else a request does, it does to an activation what it would do to it alone. -/
theorem view_serve (hn : l.Named h) (ha : a.number < h.nextSequence) (q : Request)
    (hr : (l.serve q r h).1.2 ≠ some .outOfFuel) :
    ((l.view a).serve a q).Between r h (l.serve q r h).2 ((l.serve q r h).1.1.view a, none) := by
  have hforward := forward_serve l q r h
  have started {x : Routine × Binding} (hs : q.starts? r.directory = some x) :
      (l.serve q r h).1.1.view a = l.view a := by
    rw [serve_of_starts hs, view_started fun he => Nat.lt_irrefl _ (he ▸ ha)]
  cases q with
  | trigger routine scope binding =>
    have hv : (l.serve (.trigger routine scope binding) r h).1.1.view a = l.view a := by
      cases hs : (Request.trigger routine scope binding).starts? r.directory with
      | some x => exact started hs
      | none => rw [serve_of_unknown hs]
    rw [hv]
    exact .pure hforward
  | start routine binding =>
    rw [started rfl]
    exact .pure hforward
  | stop id => exact view_stop hn id
  | stopRoutine routine => exact view_stopRoutine hn routine
  | advance elapsed => exact view_advance hn elapsed hr
  | takeFailures =>
    have hv : Ledger.view (l.serve .takeFailures r h).1.1 a = l.view a := by
      rw [view, recorded_taken]
      rfl
    rw [hv]
    exact .pure hforward

end Serving
end Ledger
end EffectMachine
