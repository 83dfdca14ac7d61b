import EffectMachine.Proofs.Particle.Emissions
import EffectMachine.Proofs.System.Invariants

namespace EffectMachine

namespace Action

/-- Needs an open block, which it leaves open. -/
def usesBlock : Action → Bool
  | condition .. => true
  | branch _ => true
  | _ => false

def needsBlock (a : Action) : Bool := a.usesBlock || decide (a = .endBlock)

def depthAfter : Action → Nat → Nat
  | beginBlock, n => n + 1
  | endBlock, n => n - 1
  | _, n => n

variable {a : Action} {m n : Nat}

theorem depthAfter_of_inside (h : a.isBlockBoundary = false) (n : Nat) : a.depthAfter n = n := by
  cases a <;> first | rfl | simp [isBlockBoundary] at h

theorem depthAfter_mono (h : m ≤ n) : a.depthAfter m ≤ a.depthAfter n := by
  cases a <;> simp only [depthAfter] <;> omega

/-- Blocks further out play no part. -/
theorem depthAfter_add (h : a.needsBlock = true → 0 < m) :
    a.depthAfter (m + n) = a.depthAfter m + n := by
  cases a
  case endBlock =>
    have hpos := h rfl
    simp only [depthAfter]
    omega
  case beginBlock => simp only [depthAfter]; omega
  all_goals rfl

end Action

namespace Effect

def opened (es : List Effect) : Nat := es.countP fun e => e.action = .beginBlock

def closed (es : List Effect) : Nat := es.countP fun e => e.action = .endBlock

/-- No prefix closes more blocks than it opens, and what uses a block stands in one. -/
structure WellNested (es : List Effect) : Prop where
  closed_le : ∀ before, before <+: es → closed before ≤ opened before
  inside : ∀ before e after, es = before ++ e :: after → e.action.usesBlock = true →
    closed before < opened before

def nests : Nat → List Effect → Bool
  | _, [] => true
  | n, e :: es => (!e.action.needsBlock || decide (0 < n)) && nests (e.action.depthAfter n) es

variable {e : Effect} {es fs : List Effect} {m n : Nat}

@[simp] theorem nests_cons : nests n (e :: es) = true ↔
    (e.action.needsBlock = true → 0 < n) ∧ nests (e.action.depthAfter n) es = true := by
  cases h : e.action.needsBlock <;> simp [nests, h]

@[simp] theorem closed_cons : closed (e :: es) =
    closed es + if e.action = .endBlock then 1 else 0 := by
  simp [closed, List.countP_cons]

@[simp] theorem opened_cons : opened (e :: es) =
    opened es + if e.action = .beginBlock then 1 else 0 := by
  simp [opened, List.countP_cons]

/-- The effect at the head shifts the balance of a prefix as it shifts the depth. -/
theorem balance_cons (h : e.action.needsBlock = true → 0 < n) (es : List Effect) :
    n + opened (e :: es) + closed es =
      e.action.depthAfter n + opened es + closed (e :: es) := by
  rw [closed_cons, opened_cons]
  cases ha : e.action
  case endBlock =>
    have hpos := h (by rw [ha]; rfl)
    simp only [Action.depthAfter, reduceCtorEq, if_true, if_false]
    omega
  all_goals simp only [Action.depthAfter, reduceCtorEq, if_true, if_false]; omega

/-- What a list needs of the blocks around it, said of its prefixes. -/
theorem nests_iff : nests n es = true ↔
    (∀ before, before <+: es → closed before ≤ n + opened before) ∧
    ∀ before e after, es = before ++ e :: after → e.action.usesBlock = true →
      closed before < n + opened before := by
  induction es generalizing n with
  | nil => simp [nests, closed, opened]
  | cons e es ih =>
    rw [nests_cons, ih]
    constructor
    · intro ⟨hn, hle, hin⟩
      refine ⟨fun before hb => ?_, fun before f after hb hf => ?_⟩
      · rcases List.prefix_cons_iff.mp hb with rfl | ⟨before, rfl, hp⟩
        · exact Nat.zero_le _
        · have hbalance := balance_cons hn before
          have hlater := hle before hp
          omega
      · cases before with
        | nil =>
          cases hb
          have hpos := hn (by simp [Action.needsBlock, hf])
          exact Nat.lt_of_lt_of_le hpos (Nat.le_add_right ..)
        | cons _ before =>
          cases hb
          have hbalance := balance_cons hn before
          have hlater := hin before f after rfl hf
          omega
    · intro ⟨hle, hin⟩
      have hn : e.action.needsBlock = true → 0 < n := by
        intro he
        rcases Bool.or_eq_true_iff.mp he with he | he
        · exact hin [] e es rfl he
        · have ha : e.action = .endBlock := of_decide_eq_true he
          have hhead := hle [e] (List.prefix_append [e] es)
          simp only [closed_cons, opened_cons, ha] at hhead
          exact hhead
      refine ⟨hn, fun before hb => ?_, fun before f after hb hf => ?_⟩
      · have hbalance := balance_cons hn before
        have hwhole := hle (e :: before) (List.prefix_cons_inj e |>.mpr hb)
        omega
      · have hbalance := balance_cons hn before
        have hwhole := hin (e :: before) f after (by rw [hb, List.cons_append]) hf
        omega

theorem wellNested_iff : WellNested es ↔ nests 0 es = true := by
  rw [nests_iff]
  simp only [Nat.zero_add]
  exact ⟨fun h => ⟨h.closed_le, h.inside⟩, fun h => ⟨h.1, h.2⟩⟩

instance (es : List Effect) : Decidable (WellNested es) := decidable_of_iff _ wellNested_iff.symm

/-- More open blocks do no harm. -/
theorem nests_mono (h : nests m es = true) (hm : m ≤ n) : nests n es = true := by
  induction es generalizing m n with
  | nil => rfl
  | cons e es ih =>
    obtain ⟨hn, hs⟩ := nests_cons.mp h
    exact nests_cons.mpr ⟨fun he => Nat.lt_of_lt_of_le (hn he) hm,
      ih hs (Action.depthAfter_mono hm)⟩

/-- What runs first closes no block of what comes behind it. -/
theorem nests_append (h : nests m es = true) (hf : nests n fs = true) :
    nests (m + n) (es ++ fs) = true := by
  induction es generalizing m with
  | nil => exact nests_mono hf (Nat.le_add_left ..)
  | cons e es ih =>
    obtain ⟨hn, hs⟩ := nests_cons.mp h
    rw [List.cons_append, nests_cons, Action.depthAfter_add hn]
    exact ⟨fun he => Nat.add_pos_left (hn he) n, ih hs⟩

end Effect

structure Routine.WellNested (r : Routine) : Prop where
  effects : Effect.WellNested r.effects
  onComplete : Effect.WellNested r.onComplete
  onStop : Effect.WellNested r.onStop

instance (r : Routine) : Decidable r.WellNested :=
  decidable_of_iff (Effect.WellNested r.effects ∧ Effect.WellNested r.onComplete ∧
    Effect.WellNested r.onStop) ⟨fun h => ⟨h.1, h.2.1, h.2.2⟩, fun h => ⟨h.1, h.2, h.3⟩⟩

namespace Directory

def routines (d : Directory) : List Routine :=
  d.entries.filterMap fun entry =>
    match entry.2 with
    | .routine r => some r
    | _ => none

def WellNested (d : Directory) : Prop := ∀ r ∈ d.routines, r.WellNested

instance (d : Directory) : Decidable d.WellNested :=
  inferInstanceAs (Decidable (∀ r ∈ d.routines, r.WellNested))

theorem mem_routines {d : Directory} {id : ResourceId} {scope : SearchScope} {r : Routine}
    (h : d.routine? id scope = some r) : r ∈ d.routines := by
  obtain ⟨path, hm⟩ := exists_entry_of_routine? h
  exact List.mem_filterMap.mpr ⟨_, hm, rfl⟩

end Directory

def Fault.isUnderflow : Fault → Bool
  | .controlUnderflow _ => true
  | _ => false

namespace ControlStack

variable {c : ControlStack} {a : Action}

/-- With a block open for what needs one, the stack goes on to the depth that the text has. -/
theorem apply_depth (value : Int32) (h : a.needsBlock = true → 0 < c.depth) :
    ∃ c' notices, c.apply value a = .ok (c', notices) ∧ c'.depth = a.depthAfter c.depth := by
  obtain ⟨routine, frames⟩ := c
  cases hc : a.isControl with
  | false => exact ⟨_, _, apply_of_not_control _ _ hc,
      (Action.depthAfter_of_inside (Action.isBlockBoundary_of_not_control hc) _).symm⟩
  | true =>
    cases frames with
    | nil =>
      cases a with
      | beginBlock => exact ⟨_, _, rfl, rfl⟩
      | endBlock | condition | branch => exact absurd (h rfl) (Nat.lt_irrefl 0)
      | _ => cases hc
    | cons f outer =>
      cases a with
      | beginBlock => exact ⟨_, _, rfl, rfl⟩
      | endBlock => exact ⟨_, _, rfl, rfl⟩
      | branch whenTrue => exact ⟨_, _, rfl, rfl⟩
      | condition register source =>
        simp only [apply, setRegister]
        split <;> exact ⟨_, _, rfl, rfl⟩
      | _ => cases hc

end ControlStack

/-- Enough blocks are open for the effects that come next, and will be for all that may. -/
def nesting : Invariant where
  holds s es := s.routine.WellNested ∧ Effect.nests s.control.depth es = true
  allows f := f.isUnderflow = false

namespace SequenceBody

variable {s s' : SequenceBody} {e : Effect} {es : List Effect} {flow : Flow} {r : Surroundings}

theorem Does.routine_eq (h : s.Does e s' flow) : s'.routine = s.routine := by
  cases h <;> rfl

theorem nests_passed (he : e.action.isBlockBoundary = false)
    (h : Effect.nests s.control.depth (e :: es) = true) :
    Effect.nests s.control.depth es = true := by
  have hs := (Effect.nests_cons.mp h).2
  rw [Action.depthAfter_of_inside he] at hs
  exact hs

/-- What acts on the control stack finds the blocks that it needs. -/
theorem perform_nesting_control (hc : e.action.isControl = true) (h : nesting.holds s (e :: es)) :
    (s.perform e).At r fun x => nesting.Follows x.1 e es x.2 := by
  obtain ⟨hr, hn⟩ := h
  obtain ⟨hneeds, hs⟩ := Effect.nests_cons.mp hn
  rw [s.perform_control hc]
  refine .after _ fun value => ?_
  obtain ⟨c, notices, ha, hd⟩ := s.control.apply_depth value hneeds
  rw [ha]
  exact .after _ fun _ => .pure ⟨hr, hd ▸ hs⟩

/-- Nothing else opens or closes a block; what a choice puts in place is well nested for itself. -/
theorem perform_nesting_other (hd : r.directory.WellNested) (hc : e.action.isControl = false)
    (h : nesting.holds s (e :: es)) :
    (s.perform e).At r fun x => nesting.Follows x.1 e es x.2 := by
  refine ((s.perform_does e).at.and (s.perform_comesFrom e)).mono fun x hx => ?_
  obtain ⟨body, flow⟩ := x
  obtain ⟨hdoes, hfrom⟩ := hx
  obtain ⟨hr, hn⟩ := h
  have hs := nests_passed (Action.isBlockBoundary_of_not_control hc) hn
  rw [← hdoes.routine_eq] at hr
  rw [← hdoes.control_eq hc] at hn hs
  cases flow with
  | splice new =>
    obtain ⟨choices, id, chosen, _, _, hfound⟩ := hfrom
    have hw := (hd _ (Directory.mem_routines hfound)).effects
    have happ := Effect.nests_append (Effect.wellNested_iff.mp hw) hs
    rw [Nat.zero_add] at happ
    exact ⟨hr, happ⟩
  | hold => exact ⟨hr, hn⟩
  | fault f =>
    rw [hdoes.control_of_fault] at hc
    cases hc
  | proceed | spawned | stopRoutine => exact ⟨hr, hs⟩

/-- The completion handlers run on what the main list leaves open, the main list on nothing. -/
theorem nesting_requeued (hr : s.routine.WellNested) (hq : s.queue = []) :
    nesting.holds s.requeued.1 s.requeued.1.work := by
  have hw : s.work = [] := by
    rw [work, hq]
    rfl
  have hreq := s.requeued_requeues
  refine ⟨hreq.routine_eq ▸ hr, ?_⟩
  generalize s.requeued.1 = s' at hreq
  cases hreq with
  | completion =>
    rw [work_enqueue]
    change Effect.nests s.control.depth (s.work ++ s.routine.onComplete) = true
    rw [hw]
    exact Effect.nests_mono (Effect.wellNested_iff.mp hr.onComplete) (Nat.zero_le _)
  | refill emitters =>
    rw [work_enqueue]
    change Effect.nests 0 (s.work ++ s.routine.effects) = true
    rw [hw]
    exact Effect.wellNested_iff.mp hr.effects
  | dry =>
    change Effect.nests s.control.depth s.work = true
    rw [hw]
    rfl

end SequenceBody

/-- In a directory that is well nested every step leaves enough blocks open for what comes next. -/
theorem nesting_keptIn {r : Surroundings} (hd : r.directory.WellNested) : nesting.KeptIn r where
  frame h _ _ _ _ _ := h
  dropped h := ⟨h.1, rfl⟩
  passed h _ he := ⟨h.1, SequenceBody.nests_passed he h.2⟩
  performed {s e es} h _ := by
    cases hc : e.action.isControl with
    | true => exact SequenceBody.perform_nesting_control hc h
    | false => exact SequenceBody.perform_nesting_other hd hc h
  stopped h := ⟨h.1, Effect.wellNested_iff.mp h.1.onStop⟩
  failed h _ := ⟨h.1, rfl⟩
  requeued h hq := SequenceBody.nesting_requeued h.1 hq
  moved h elapsed := by
    refine (advanceEmitters_refuses none elapsed _).at.mono fun x hx => ⟨fun f hf => ?_, h, h⟩
    obtain ⟨o, rfl⟩ := hx f hf
    rfl
  started {id scope routine} hr _ _ _ _ := by
    have hw := hd _ (Directory.mem_routines hr)
    exact ⟨hw, Effect.wellNested_iff.mp hw.effects⟩

/-- In a directory of well nested routines no activation of any of them fails by an underflow of its
control stack, nor does any sequence below it: not in a run of its own, and not in one of a whole
system. -/
theorem never_underflows {d : Directory} (hd : d.WellNested) :
    (∀ r ∈ d.routines, ∀ id binding rate depth (vs : List Visit),
      (∀ v ∈ vs, v.surroundings.directory = d) →
        (Sequence.mk (.fresh id r binding rate depth) []).FaultsIn (·.isUnderflow = false) vs) ∧
    ∀ h (os : List Occasion), (∀ o ∈ os, o.surroundings.directory = d) →
      (∀ o ∈ os, ∀ r binding, o.request = .start r binding → r ∈ d.routines) →
        Ledger.FaultsIn (·.isUnderflow = false) {} h os := by
  have kept {r : Surroundings} (hr : r.directory = d) : nesting.KeptIn r :=
    nesting_keptIn (hr.symm ▸ hd)
  have begins {r : Routine} (hr : r ∈ d.routines) (id : SequenceId) (binding : Binding)
      (rate : Scalar) (depth : UInt8) :
      nesting.holds (.fresh id r binding rate depth) r.effects :=
    ⟨hd r hr, Effect.wellNested_iff.mp (hd r hr).effects⟩
  constructor
  · intro r hr id binding rate depth vs hvs
    exact Sequence.faultsIn_of_sound vs (fun v hv => kept (hvs v hv))
      (Sequence.fresh_sound _ _ _ _ _ (begins hr ..))
  · intro h os hos hstarts
    refine Ledger.faultsIn_of_stands os (fun o ho => kept (hos o ho)) (fun o ho => ?_)
      (Ledger.stands_empty nesting) h
    intro r binding hq id bound rate
    exact begins (hstarts o ho r binding hq) ..

/-- The main list leaves a block open for the completion handlers, waits for a child and takes in a
list that opens a block of its own. -/
def unclosed : Routine where
  id := ⟨1, 0, 0, 0⟩
  origin := ResourcePath.root
  effects := [⟨0, 0, .beginBlock⟩, ⟨0, 0, .condition 0 (.random 2)⟩, ⟨0, 0, .branch true⟩,
    ⟨0, 0, .randomRoutine [⟨2, 0, 0, 0⟩]⟩, ⟨0, 0, .endBlock⟩, ⟨0, 0, .beginBlock⟩,
    ⟨0, 0, .spawnRoutine ⟨2, 0, 0, 0⟩ true⟩, ⟨0, 0, .loopRoutine⟩]
  onComplete := [⟨0, 0, .beginBlock⟩, ⟨0, 0, .branch false⟩, ⟨0, 0, .endBlock⟩]
  onStop := [⟨0, 0, .stopRoutine ⟨2, 0, 0, 0⟩⟩, ⟨0, 0, .beginBlock⟩]
  autoRun := true

def takenIn : Routine :=
  ⟨⟨2, 0, 0, 0⟩, ResourcePath.root, [⟨0, 0, .beginBlock⟩, ⟨2, 0, .wait⟩, ⟨0, 0, .branch true⟩], [],
    [⟨0, 0, .beginBlock⟩, ⟨0, 0, .endBlock⟩], false⟩

def unclosedDirectory : Directory :=
  (({} : Directory).insert ResourcePath.root unclosed.id (.routine unclosed)).insert
    ResourcePath.root takenIn.id (.routine takenIn)

theorem unclosed_never_underflows :
    unclosedDirectory.WellNested ∧
    (Sequence.mk (.fresh ⟨0⟩ unclosed .weather 1 0) []).FaultsIn (·.isUnderflow = false)
      ([.advance 1, .stopRoutine takenIn.id, .advance 4, .stop].map fun call =>
        ⟨call, { Surroundings.bare with directory := unclosedDirectory }, .fresh⟩) ∧
    Ledger.FaultsIn (·.isUnderflow = false) {} .fresh
      ([.start unclosed .weather, .advance 1, .advance 4, .stop ⟨1⟩].map
        (Occasion.alone { Surroundings.bare with directory := unclosedDirectory })) := by
  have hd : unclosedDirectory.WellNested := by decide
  have hm : unclosed ∈ unclosedDirectory.routines := by decide
  obtain ⟨hsequence, hsystem⟩ := never_underflows hd
  refine ⟨hd, hsequence unclosed hm _ _ _ _ _ fun v hv => ?_, hsystem _ _ (fun o ho => ?_) ?_⟩
  · obtain ⟨call, _, rfl⟩ := List.mem_map.mp hv
    rfl
  · obtain ⟨request, _, rfl⟩ := List.mem_map.mp ho
    rfl
  · intro o ho r binding hq
    obtain ⟨request, hr, rfl⟩ := List.mem_map.mp ho
    change request = _ at hq
    subst hq
    simp only [List.mem_cons, reduceCtorEq, Request.start.injEq, or_false,
      List.not_mem_nil] at hr
    exact hr.1 ▸ hm

end EffectMachine
