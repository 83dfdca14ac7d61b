import EffectMachine.Proofs.Resource.Choices
import EffectMachine.Proofs.Sequence.LoopBounds

namespace EffectMachine

/-- Below a limit there is a next level, which is a number without wrapping around. -/
theorem toNat_deeper {depth limit : UInt8} (h : depth < limit) :
    (depth + 1).toNat = depth.toNat + 1 := by
  have hlt : depth.toNat < limit.toNat := UInt8.lt_iff_toNat_lt.mp h
  have hmax : limit.toNat < 256 := limit.toNat_lt
  rw [UInt8.toNat_add]
  exact Nat.mod_eq_of_lt (by omega : depth.toNat + 1 < 256)

def Flow.ComesFrom (r : Surroundings) (s : SequenceBody) (e : Effect) : Flow → Prop
  | .spawned c => ∃ id scope routine name rate, r.directory.routine? id scope = some routine ∧
      s.depth < r.config.maxNestingDepth ∧
      c = .mk (.fresh name routine s.binding rate (s.depth + 1)) []
  | .splice new => r.directory.Splices s.routine.origin e new
  | _ => True

namespace SequenceBody

variable {r : Surroundings} {s : SequenceBody} {e : Effect}

theorem spawnRoutine_comesFrom (id : ResourceId) (blocking : Bool) (scope : SearchScope) :
    (s.spawnRoutine id blocking scope).At r fun x => x.2.ComesFrom r s e := by
  refine .read ?_
  dsimp only
  split
  next => exact .after _ fun _ => .pure trivial
  next hd =>
    split
    next => exact .after _ fun _ => .pure trivial
    next routine hr =>
      exact fun h => ⟨id, scope, routine, _, _, hr, by simpa using hd, rfl⟩

/-- What a choice puts in its place is a routine of the directory. -/
theorem chooseRoutine_comesFrom {choices : List ResourceId}
    (ha : e.action = .randomRoutine choices) :
    (s.chooseRoutine choices).At r fun flow => flow.ComesFrom r s e := by
  unfold chooseRoutine
  split
  · exact .after _ fun _ => .pure trivial
  · refine .after _ fun index => .read ?_
    split
    next chosen hr =>
      refine .pure (.intro choices _ chosen ha ?_ hr)
      -- Without a name there is no routine, so the index lies within the list.
      cases hi : choices[index.toInt.toNat]? with
      | none =>
        rw [hi] at hr
        simp [Directory.routine?, Directory.resolve, ResourceId.isNone] at hr
      | some id => exact List.mem_of_getElem? hi
    next => exact .after _ fun _ => .pure trivial

/-- What an effect starts or puts in its place is of the directory. -/
theorem steer_comesFrom (s : SequenceBody) (e : Effect) :
    (s.steer e).At r fun x => x.2.ComesFrom r s e := by
  unfold steer
  split
  case h_5 => exact fun h => spawnRoutine_comesFrom _ _ _ h
  case h_6 => exact fun h => spawnRoutine_comesFrom _ _ _ h
  case h_7 ha => exact .bind (chooseRoutine_comesFrom ha) fun _ hf => .pure hf
  case h_10 => split <;> exact .pure trivial
  case h_11 =>
    refine .after _ fun value => ?_
    split
    · exact .after _ fun _ => .pure trivial
    · exact .pure trivial
  case h_12 =>
    split
    · exact .after _ fun _ => .pure trivial
    · exact .pure trivial
  case h_15 =>
    refine .read ?_
    split <;> exact .pure trivial
  all_goals first | exact .pure trivial | exact .after _ fun _ => .pure trivial

theorem perform_comesFrom (s : SequenceBody) (e : Effect) :
    (s.perform e).At r fun x => x.2.ComesFrom r s e := by
  refine .read ?_
  split
  · exact .after _ fun _ => .pure trivial
  · exact s.steer_comesFrom e

end SequenceBody

namespace Sequence

/-- In place of an effect come only those that its directory lets it choose. -/
theorem execute_splices {run : StopHandlers Tick} {s : Sequence} {e : Effect} {r : Surroundings}
    {h : Host} {new : List Effect} (hx : (s.execute run e r h).1.2 = .splice new) :
    r.directory.Splices s.body.routine.origin e new := by
  have hc : ((s.body.perform e r h).1.2).ComesFrom r s.body e := s.body.perform_comesFrom e h
  rw [execute, Tick.run_bind] at hx
  generalize s.body.perform e r h = x at hc hx
  obtain ⟨⟨body, flow⟩, h'⟩ := x
  cases flow with
  | splice effects =>
    cases hx
    exact hc
  | stopRoutine id =>
    dsimp only at hx
    rw [Tick.run_bind] at hx
    cases hh : (stopRoutineIn run id s.children r h').1.2.2 <;> simp [hh] at hx
  | _ => cases hx

/-- All but the queue of a sequence is bounded: its lists, and the levels below its own. -/
structure Framed (d : Directory) (n level : Nat) (Below : Sequence → Prop) (s : Sequence) :
    Prop where
  room : 256 ≤ s.body.depth.toNat + level
  routine : s.body.routine.EndsWithin d n
  children : ∀ c ∈ s.children, Below c

/-- A sequence of so many levels, with all loops bounded on each. -/
def Within (d : Directory) (n : Nat) : Nat → Sequence → Prop
  | 0, _ => False
  | k + 1, s => s.Framed d n (k + 1) (Within d n k) ∧
      d.EndsWithin s.body.routine.origin n s.body.work

variable {d : Directory} {m n j k : Nat} {s : Sequence}

/-- Nothing but the routine and the depth of a sequence counts for its bounds. -/
theorem Framed.changed (h : s.Framed d n k (Within d n j)) {body : SequenceBody}
    {children : List Sequence} (hd : body.depth = s.body.depth)
    (hr : body.routine = s.body.routine) (hc : ∀ c ∈ children, c.Within d n j) :
    (Sequence.mk body children).Framed d n k (Within d n j) where
  room := by rw [body_mk, hd]; exact h.room
  routine := by rw [body_mk, hr]; exact h.routine
  children := hc

namespace Within

/-- Within so many levels is within one more. -/
theorem succ (h : s.Within d n k) : s.Within d n (k + 1) := by
  induction k generalizing s with
  | zero => exact h.elim
  | succ k ih =>
    have hr := h.1.room
    exact ⟨⟨by omega, h.1.routine, fun c hc => ih (h.1.children c hc)⟩, h.2⟩

theorem mono_turns (h : s.Within d m k) (hm : m ≤ n) : s.Within d n k := by
  induction k generalizing s with
  | zero => exact h
  | succ k ih =>
    exact ⟨⟨h.1.room, h.1.routine.mono hm, fun c hc => ih (h.1.children c hc)⟩, h.2.mono hm⟩

theorem mono (h : s.Within d m j) (hm : m ≤ n) (hj : j ≤ k) : s.Within d n k := by
  induction hj with
  | refl => exact h.mono_turns hm
  | step _ ih => exact ih.succ

theorem exists_succ (h : s.Within d n k) : ∃ j, k = j + 1 := by
  cases k with
  | zero => exact h.elim
  | succ j => exact ⟨j, rfl⟩

/-- What a change leaves of the levels and loops, it leaves bounded. -/
theorem changed (h : s.Within d n (k + 1)) {body : SequenceBody} {children : List Sequence}
    (hd : body.depth = s.body.depth) (hr : body.routine = s.body.routine)
    (hw : body.work = s.body.work ∨ body.work = [])
    (hc : ∀ c ∈ children, c.Within d n k) : (mk body children).Within d n (k + 1) := by
  refine ⟨Framed.changed h.1 hd hr hc, ?_⟩
  rw [body_mk, hr]
  rcases hw with hw | hw <;> rw [hw]
  · exact h.2
  · exact Directory.endsWithin_nil

theorem changed_body (h : s.Within d n (k + 1)) {body : SequenceBody}
    (hd : body.depth = s.body.depth) (hr : body.routine = s.body.routine)
    (hw : body.work = s.body.work ∨ body.work = []) :
    (mk body s.children).Within d n (k + 1) :=
  h.changed hd hr hw h.1.children

/-- What is below a bounded sequence is bounded too. -/
theorem at? {path : List Nat} {q : Sequence} (h : s.Within d n k) (hq : s.at? path = some q) :
    q.Within d n k := by
  induction path generalizing s k with
  | nil => exact Option.some.inj hq ▸ h
  | cons i path ih =>
    obtain ⟨j, rfl⟩ := h.exists_succ
    obtain ⟨c, hi, hq⟩ := Option.bind_eq_some_iff.mp hq
    exact (ih (h.1.children c (List.mem_of_getElem? hi)) hq).succ

end Within

mutual

/-- Every sequence has some number of levels, on each of which the loops are bounded. -/
theorem exists_within (h : d.IsAcyclic) : ∀ s : Sequence, ∃ n, s.Within d n n
  | .mk body children => by
    obtain ⟨a, ha⟩ := exists_withins h children
    obtain ⟨b, hb⟩ := body.routine.exists_endsWithin h
    obtain ⟨c, hc⟩ := h.exists_endsWithin body.routine.origin body.work
    -- With 256 levels there is room whatever the depth.
    refine ⟨a + b + c + 255 + 1, ⟨?_, hb.mono (by omega), fun x hx => ?_⟩, hc.mono (by omega)⟩
    · omega
    · exact (ha x hx).mono (by omega) (by omega)

theorem exists_withins (h : d.IsAcyclic) : ∀ cs : List Sequence, ∃ n, ∀ c ∈ cs, c.Within d n n
  | [] => ⟨0, by simp⟩
  | c :: cs => by
    obtain ⟨a, ha⟩ := exists_within h c
    obtain ⟨b, hb⟩ := exists_withins h cs
    refine ⟨a + b, List.forall_mem_cons.mpr ⟨ha.mono (by omega) (by omega), fun x hx => ?_⟩⟩
    exact (hb x hx).mono (by omega) (by omega)

end

/-- A child is started one level below its parent, which has room for it. -/
theorem within_spawned {r : Surroundings} (hb : r.directory.BoundsLoops n)
    {Below : Sequence → Prop} (hs : s.Framed r.directory n (k + 1) Below) {e : Effect}
    {c : Sequence} (hc : (Flow.spawned c).ComesFrom r s.body e) : c.Within r.directory n k := by
  obtain ⟨id, scope, routine, name, rate, hr, hd, rfl⟩ := hc
  have hroom := hs.room
  have hnext := toNat_deeper hd
  have hmax : (s.body.depth + 1).toNat < 256 := (s.body.depth + 1).toNat_lt
  have hl := hb id scope routine hr
  obtain ⟨j, rfl⟩ : ∃ j, k = j + 1 := ⟨k - 1, by omega⟩
  refine ⟨⟨?_, hl, by simp⟩, ?_⟩
  · change 256 ≤ (s.body.depth + 1).toNat + (j + 1)
    omega
  · simpa [SequenceBody.fresh, SequenceBody.work, SequenceBody.pendingOf, Function.comp_def]
      using hl.effects

end Sequence
end EffectMachine
