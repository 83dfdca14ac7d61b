import EffectMachine.Proofs.Sequence.Perform

namespace EffectMachine

inductive ControlCall where
  | beginBlock
  | endBlock
  | setRegister (register : UInt8) (value : Int32)
  | branch (whenTrue : Bool)
  | clear

namespace ControlCall

def needsBlock : ControlCall → Bool
  | beginBlock => false
  | clear => false
  | _ => true

/-- The values last loaded into the first registers of the open blocks, innermost first, after a
call. -/
def noted : ControlCall → List (Option Int32) → List (Option Int32)
  | beginBlock, loads => none :: loads
  | endBlock, loads => loads.tail
  | setRegister register value, load :: loads =>
    (if register = 0 then some value else load) :: loads
  | setRegister .., [] => []
  | branch _, loads => loads
  | clear, _ => []

/-- The last loads after calls on a new stack. -/
def lastLoads (calls : List ControlCall) : List (Option Int32) :=
  calls.foldl (fun loads call => call.noted loads) []

end ControlCall

namespace ControlFrame

def registers (f : ControlFrame) : Int32 × Int32 × Int32 := (f.r0, f.r1, f.r2)

def registersOf : Option Int32 → Int32 × Int32 × Int32
  | none => (0, 0, 0)
  | some value => (value, 1, 0)

end ControlFrame

/-- An effect that fails of itself has changed nothing. -/
theorem SequenceBody.Does.body_of_fault {s s' : SequenceBody} {e : Effect} {fault : Fault}
    (h : s.Does e s' (.fault fault)) : s' = s := by
  cases h
  rfl

namespace ControlStack

def called (s : ControlStack) : ControlCall → Except Fault ControlStack
  | .beginBlock => .ok s.beginBlock
  | .endBlock => s.endBlock.map Prod.snd
  | .setRegister register value => (s.setRegister register value).map Prod.fst
  | .branch whenTrue => (s.branch whenTrue).map fun x => x.2.1
  | .clear => .ok s.clear

def afterCall (s : ControlStack) (call : ControlCall) : ControlStack :=
  match s.called call with
  | .ok s' => s'
  | .error _ => s

def after (s : ControlStack) (calls : List ControlCall) : ControlStack := calls.foldl afterCall s

variable {s s' : ControlStack} {call : ControlCall}

inductive Calls : ControlCall → ControlStack → ControlStack → Prop where
  | opened (s : ControlStack) : Calls .beginBlock s s.beginBlock
  | closed (routine : ResourceId) (f : ControlFrame) (outer : List ControlFrame) :
      Calls .endBlock ⟨routine, f :: outer⟩ ⟨routine, outer⟩
  | loaded (routine : ResourceId) (f f' : ControlFrame) (outer : List ControlFrame)
      (register : UInt8) (value : Int32)
      (load : loaded? ⟨routine, f :: outer⟩ f register value = some f') :
      Calls (.setRegister register value) ⟨routine, f :: outer⟩ ⟨routine, f' :: outer⟩
  | noRegister (routine : ResourceId) (f : ControlFrame) (outer : List ControlFrame)
      (register : UInt8) (value : Int32)
      (load : loaded? ⟨routine, f :: outer⟩ f register value = none) :
      Calls (.setRegister register value) ⟨routine, f :: outer⟩ ⟨routine, f :: outer⟩
  | branched (routine : ResourceId) (f : ControlFrame) (outer : List ControlFrame)
      (whenTrue armed : Bool) :
      Calls (.branch whenTrue) ⟨routine, f :: outer⟩
        ⟨routine, { f with skipNext := armed } :: outer⟩
  | cleared (s : ControlStack) : Calls .clear s s.clear

/-- A call fails where it needs a block and none is open, and nowhere else. -/
theorem called_cases (s : ControlStack) (call : ControlCall) :
    (∃ s', s.called call = .ok s' ∧ Calls call s s') ∨
      s.called call = .error s.underflow ∧ call.needsBlock = true ∧ s.frames = [] := by
  obtain ⟨routine, frames⟩ := s
  cases call with
  | beginBlock => exact .inl ⟨_, rfl, .opened _⟩
  | clear => exact .inl ⟨_, rfl, .cleared _⟩
  | endBlock =>
    cases frames with
    | nil => exact .inr ⟨rfl, rfl, rfl⟩
    | cons f outer => exact .inl ⟨_, rfl, .closed ..⟩
  | branch whenTrue =>
    cases frames with
    | nil => exact .inr ⟨rfl, rfl, rfl⟩
    | cons f outer => exact .inl ⟨_, rfl, .branched ..⟩
  | setRegister register value =>
    cases frames with
    | nil => exact .inr ⟨rfl, rfl, rfl⟩
    | cons f outer =>
      refine .inl ?_
      simp only [called, setRegister]
      split
      · exact ⟨_, rfl, .loaded _ _ _ _ _ _ ‹_›⟩
      · exact ⟨_, rfl, .noRegister _ _ _ _ _ ‹_›⟩

theorem called_error_iff {fault : Fault} : s.called call = .error fault ↔
    call.needsBlock = true ∧ s.frames = [] ∧ fault = s.underflow := by
  obtain ⟨s', hc, hs⟩ | ⟨hc, hb, hf⟩ := s.called_cases call
  · rw [hc]
    refine ⟨fun h => (by cases h), fun ⟨hb, hf, _⟩ => ?_⟩
    cases hs <;> first | cases hf | cases hb
  · rw [hc]
    exact ⟨fun h => ⟨hb, hf, (Except.error.inj h).symm⟩, fun ⟨_, _, h⟩ => by rw [h]⟩

/-- What every call keeps, with the loads that it notes, every run of calls keeps. -/
theorem after_keeps {P : List (Option Int32) → ControlStack → Prop}
    (step : ∀ call loads s, P loads s → P (call.noted loads) (s.afterCall call))
    (calls : List ControlCall) (loads : List (Option Int32)) (h : P loads s) :
    P (calls.foldl (fun loads call => call.noted loads) loads) (s.after calls) := by
  induction calls generalizing s loads with
  | nil => exact h
  | cons call calls ih => exact ih _ (step call loads s h)

/-- Only the top frame is armed, and all frames above a skipped one are skipped. -/
structure Layered (s : ControlStack) : Prop where
  armed : ∀ f ∈ s.frames.tail, f.skipNext = false
  skipped : s.frames.Pairwise fun inner outer => outer.skipped = true → inner.skipped = true

/-- Loads do not skip. -/
theorem skips_of_loaded? {f f' : ControlFrame} {register : UInt8} {value : Int32}
    (h : s.loaded? f register value = some f') :
    f'.skipped = f.skipped ∧ f'.skipNext = f.skipNext := by
  unfold loaded? at h
  split at h <;> cases h <;> exact ⟨rfl, rfl⟩

/-- Another top frame on the same blocks. -/
theorem Layered.top {routine : ResourceId} {f f' : ControlFrame} {outer : List ControlFrame}
    (h : Layered ⟨routine, f :: outer⟩) (hf : f'.skipped = f.skipped) :
    Layered ⟨routine, f' :: outer⟩ where
  armed := h.armed
  skipped := by
    obtain ⟨hs, ho⟩ := List.pairwise_cons.mp h.skipped
    exact List.pairwise_cons.mpr ⟨fun g hg => hf.symm ▸ hs g hg, ho⟩

/-- A new block takes the skip of its parent, which it has from above. -/
theorem Layered.beginBlock (h : s.Layered) : s.beginBlock.Layered := by
  obtain ⟨routine, _ | ⟨parent, outer⟩⟩ := s
  · exact ⟨fun f hf => (by cases hf), List.pairwise_singleton _ _⟩
  · have hp : Layered ⟨routine, { parent with skipNext := false } :: outer⟩ := h.top rfl
    obtain ⟨ha, hs⟩ := hp
    refine ⟨List.forall_mem_cons.mpr ⟨rfl, ha⟩, List.pairwise_cons.mpr ⟨fun g hg hskip => ?_, hs⟩⟩
    have hparent : parent.skipped = true := by
      rcases List.mem_cons.mp hg with rfl | hg
      · exact hskip
      · exact (List.pairwise_cons.mp hs).1 g hg hskip
    simp [ControlFrame.isSkipping, hparent]

theorem Calls.layered (hc : Calls call s s') (h : s.Layered) : s'.Layered := by
  cases hc with
  | opened => exact h.beginBlock
  | closed routine f outer =>
    exact ⟨fun g hg => h.armed g (List.mem_of_mem_tail hg), (List.pairwise_cons.mp h.skipped).2⟩
  | loaded routine f f' outer register value load => exact h.top (skips_of_loaded? load).1
  | noRegister => exact h
  | branched => exact h.top rfl
  | cleared => exact ⟨fun f hf => (by cases hf), .nil⟩

/-- No call arms a frame below the top or leaves one unskipped above a skipped one. -/
theorem Layered.afterCall (h : s.Layered) (call : ControlCall) : (s.afterCall call).Layered := by
  unfold ControlStack.afterCall
  obtain ⟨s', hc, hs⟩ | ⟨hc, _⟩ := s.called_cases call
  · rw [hc]
    exact hs.layered h
  · rw [hc]
    exact h

theorem layered_empty (routine : ResourceId) : (empty routine).Layered :=
  ⟨fun f hf => (by cases hf), .nil⟩

/-- Whatever frame skips, the top frame does. -/
theorem Layered.isSkipping_iff (h : s.Layered) :
    s.isSkipping = true ↔ ∃ f ∈ s.frames, f.isSkipping = true := by
  obtain ⟨routine, _ | ⟨top, outer⟩⟩ := s
  · simp [isSkipping]
  · refine ⟨fun ht => ⟨top, List.mem_cons_self, ht⟩, fun ⟨f, hf, hskip⟩ => ?_⟩
    rcases List.mem_cons.mp hf with rfl | hf
    · exact hskip
    · have hunarmed : f.skipNext = false := h.armed f hf
      have hskipped : f.skipped = true := by simpa [ControlFrame.isSkipping, hunarmed] using hskip
      have htop : top.skipped = true := (List.pairwise_cons.mp h.skipped).1 f hf hskipped
      simp [isSkipping, ControlFrame.isSkipping, htop]

/-- The registers of a stack that compares with one are told by the last loads. -/
structure Told (loads : List (Option Int32)) (s : ControlStack) : Prop where
  comparesWithOne : s.comparesWithOne = true
  registers : s.frames.map ControlFrame.registers = loads.map ControlFrame.registersOf

section Told

variable {loads : List (Option Int32)} {routine : ResourceId} {f f' : ControlFrame}
  {outer : List ControlFrame}

/-- Only the first register can be loaded, and the other two go with it. -/
theorem loaded?_of_comparesWithOne (hw : s.comparesWithOne = true) (register : UInt8)
    (value : Int32) :
    (∀ f', s.loaded? f register value = some f' → f'.registers =
      if register = 0 then ControlFrame.registersOf (some value) else f.registers) ∧
    (s.loaded? f register value = none → register ≠ 0) := by
  unfold loaded?
  rw [hw]
  split <;> simp_all [ControlFrame.registers, ControlFrame.registersOf]

/-- A frame on top of others, loaded or new. -/
theorem Told.push {load : Option Int32} {loads : List (Option Int32)} {rest : ControlStack}
    (h : rest.Told loads) (hf : f.registers = ControlFrame.registersOf load) :
    Told (load :: loads) { rest with frames := f :: rest.frames } where
  comparesWithOne := h.comparesWithOne
  registers := by rw [List.map_cons, List.map_cons, hf, h.registers]

/-- The frames below the top one are told by the loads below the last. -/
theorem Told.split (h : Told loads ⟨routine, f :: outer⟩) :
    ∃ load rest, loads = load :: rest ∧ f.registers = ControlFrame.registersOf load ∧
      Told rest ⟨routine, outer⟩ := by
  obtain ⟨hw, hr⟩ := h
  obtain ⟨load, rest, rfl, hf, ho⟩ := List.map_eq_cons_iff.mp hr.symm
  exact ⟨load, rest, rfl, hf.symm, hw, ho.symm⟩

/-- Each call tells the registers as the last loads say. -/
theorem Calls.told (hc : Calls call s s') (h : s.Told loads) : s'.Told (call.noted loads) := by
  cases hc with
  | opened =>
    obtain ⟨routine, _ | ⟨parent, outer⟩⟩ := s
    · exact h.push rfl
    · obtain ⟨load, rest, rfl, hf, ho⟩ := h.split
      exact (ho.push (f := { parent with skipNext := false }) hf).push rfl
  | closed =>
    obtain ⟨load, rest, rfl, _, ho⟩ := h.split
    exact ho
  | loaded routine f f' outer register value load =>
    obtain ⟨last, rest, rfl, hf, ho⟩ := h.split
    refine ho.push ?_
    rw [(loaded?_of_comparesWithOne h.comparesWithOne register value).1 f' load]
    split
    · rfl
    · exact hf
  | noRegister routine f outer register value load =>
    obtain ⟨last, rest, rfl, hf, ho⟩ := h.split
    rw [ControlCall.noted,
      if_neg ((loaded?_of_comparesWithOne h.comparesWithOne register value).2 load)]
    exact h
  | branched routine f outer whenTrue armed =>
    obtain ⟨load, rest, rfl, hf, ho⟩ := h.split
    exact ho.push (f := { f with skipNext := armed }) hf
  | cleared => exact ⟨h.comparesWithOne, rfl⟩

/-- Whether or not it fails, a call leaves registers that the last loads tell. -/
theorem Told.afterCall (h : s.Told loads) (call : ControlCall) :
    (s.afterCall call).Told (call.noted loads) := by
  unfold ControlStack.afterCall
  obtain ⟨s', hc, hs⟩ | ⟨hc, hneeds, hnone⟩ := s.called_cases call
  · rw [hc]
    exact hs.told h
  · rw [hc]
    have hl : loads = [] := by
      have hr := h.registers
      rw [hnone] at hr
      exact List.map_eq_nil_iff.mp hr.symm
    subst hl
    cases call <;> first | exact h | cases hneeds

/-- What was loaded last is compared with one; what never was, zero with zero. -/
theorem compare_of_registers {load : Option Int32}
    (hf : f.registers = ControlFrame.registersOf load) :
    s.compare f = (decide (load = none ∨ load = some 1), []) := by
  cases load with
  | none =>
    obtain ⟨h0, h1, h2⟩ : f.r0 = 0 ∧ f.r1 = 0 ∧ f.r2 = 0 := by
      simpa [ControlFrame.registers, ControlFrame.registersOf] using hf
    rw [compare, h0, h1, h2]
    rfl
  | some value =>
    obtain ⟨h0, h1, h2⟩ : f.r0 = value ∧ f.r1 = 1 ∧ f.r2 = 0 := by
      simpa [ControlFrame.registers, ControlFrame.registersOf] using hf
    rw [compare, h0, h1, h2]
    change (decide (value = 1), []) = _
    simp

/-- Where registers are told by the last load, a branch compares it with one. -/
theorem Told.branch {load : Option Int32} (h : s.Told (load :: loads)) (whenTrue : Bool) :
    ∃ s', s.branch whenTrue = .ok (decide (load = none ∨ load = some 1), s', []) := by
  obtain ⟨routine, frames⟩ := s
  obtain ⟨f, outer, rfl, hf, _⟩ := List.map_eq_cons_iff.mp h.registers
  rw [ControlStack.branch]
  simp only [compare_of_registers hf]
  exact ⟨_, rfl⟩

end Told

/-- Whatever is done to a new control stack, only its top frame is ever armed and all frames above a
skipped one are skipped, so the top frame skips if any does. A call fails where it needs an open
block and none is open, and then nothing has changed, neither the stack nor, if an effect has made
the call, anything else of its sequence. In the routine that compares with one, the registers of
each frame are told by the last value that was loaded into the first of them; a branch there holds
if this was one or if none was. -/
theorem top_frame_tells (routine : ResourceId) (calls : List ControlCall) :
    let s := (empty routine).after calls
    s.Layered ∧ (s.isSkipping = true ↔ ∃ f ∈ s.frames, f.isSkipping = true) ∧
      (∀ call fault, s.called call = .error fault ↔
        call.needsBlock = true ∧ s.frames = [] ∧ fault = s.underflow) ∧
      (∀ call fault, s.called call = .error fault → s.afterCall call = s) ∧
      (∀ (body : SequenceBody) (e : Effect), (body.perform e).Always fun x =>
        ∀ fault, x.2 = .fault fault → x.1 = body) ∧
      (routine = ResourceId.ofName "crtl" →
        s.frames.map ControlFrame.registers =
          (ControlCall.lastLoads calls).map ControlFrame.registersOf ∧
        ∀ load outer, ControlCall.lastLoads calls = load :: outer → ∀ whenTrue,
          ∃ s', s.branch whenTrue = .ok (decide (load = none ∨ load = some 1), s', [])) := by
  intro s
  have hl : s.Layered :=
    after_keeps (P := fun _ s => s.Layered) (fun call _ _ h => h.afterCall call) calls []
      (layered_empty routine)
  refine ⟨hl, hl.isSkipping_iff, fun _ _ => called_error_iff, fun call fault hc => ?_,
    fun body e => (body.perform_does e).mono fun x hx fault hf => ?_, fun hr => ?_⟩
  · rw [afterCall, hc]
  · exact SequenceBody.Does.body_of_fault (hf ▸ hx)
  · have ht : s.Told (ControlCall.lastLoads calls) :=
      after_keeps (P := Told) (fun call _ _ h => h.afterCall call) calls []
        ⟨decide_eq_true hr, rfl⟩
    exact ⟨ht.registers, fun load outer hload => Told.branch (hload ▸ ht)⟩

/-- Two open blocks, nothing loaded in the inner one. -/
theorem crtl_twoBlocks :
    let s := (empty (ResourceId.ofName "crtl")).after
      [.beginBlock, .setRegister 0 7, .setRegister 1 9, .beginBlock]
    s.frames.map ControlFrame.registers = [(0, 0, 0), (7, 1, 0)] ∧
      ∃ s', s.branch false = .ok (true, s', []) := by
  have h := (top_frame_tells (ResourceId.ofName "crtl")
    [.beginBlock, .setRegister 0 7, .setRegister 1 9, .beginBlock]).2.2.2.2.2 rfl
  exact ⟨h.1, h.2 none [some 7] rfl false⟩

/-- The first register holds zero in both, but only into one of them has it been loaded. -/
theorem crtl_loadedZero :
    let fresh := (empty (ResourceId.ofName "crtl")).after [.beginBlock]
    let loaded := (empty (ResourceId.ofName "crtl")).after [.beginBlock, .setRegister 0 0]
    fresh.frames.map ControlFrame.registers = [(0, 0, 0)] ∧
      loaded.frames.map ControlFrame.registers = [(0, 1, 0)] ∧
      (fresh.branch true).map Prod.fst = .ok true ∧
      (loaded.branch true).map Prod.fst = .ok false := by
  intro fresh loaded
  have ht : Told [some 0] loaded :=
    (Told.afterCall ⟨decide_eq_true rfl, rfl⟩ .beginBlock).afterCall (.setRegister 0 0)
  obtain ⟨s', hs⟩ := ht.branch true
  exact ⟨rfl, ht.registers, rfl, by rw [hs]; rfl⟩

end ControlStack
end EffectMachine
