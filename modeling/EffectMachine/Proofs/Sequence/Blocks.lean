import EffectMachine.Proofs.Sequence.Perform

namespace EffectMachine

/-- May an instruction stand as a leaf of block-structured code? Conditions and branches need a
block around them. -/
def Action.isLeaf (nested : Bool) : Action → Bool
  | .beginBlock => false
  | .endBlock => false
  | .randomRoutine _ => false
  | .condition .. => nested
  | .branch _ => nested
  | _ => true

structure Timing where
  delay : UInt16
  duration : UInt16

def Timing.effect (t : Timing) (action : Action) : Effect := ⟨t.delay, t.duration, action⟩

/-- Block-structured code, at the top or nested in a block. -/
inductive Blocks : Bool → Type where
  | done {nested : Bool} : Blocks nested
  | leaf {nested : Bool} (e : Effect) (fits : e.action.isLeaf nested = true)
      (rest : Blocks nested) : Blocks nested
  | block {nested : Bool} (enter leave : Timing) (inner : Blocks true) (rest : Blocks nested) :
      Blocks nested

def Blocks.flatten {nested : Bool} : Blocks nested → List Effect
  | .done => []
  | .leaf e _ rest => e :: rest.flatten
  | .block enter leave inner rest =>
    enter.effect .beginBlock :: (inner.flatten ++ leave.effect .endBlock :: rest.flatten)

/-- Nothing that a leaf may be puts other code in its place. -/
theorem Blocks.flatten_stays {nested : Bool} (b : Blocks nested) :
    ∀ e ∈ b.flatten, ∀ choices, e.action ≠ .randomRoutine choices := by
  induction b with
  | done => simp [flatten]
  | leaf e fits rest ih =>
    simp only [flatten, List.forall_mem_cons]
    refine ⟨fun choices ha => ?_, ih⟩
    rw [ha] at fits
    cases fits
  | block enter leave inner rest ihi ihr =>
    intro e he
    simp only [flatten, List.mem_cons, List.mem_append] at he
    rcases he with rfl | he | rfl | he
    · simp [Timing.effect]
    · exact ihi e he
    · simp [Timing.effect]
    · exact ihr e he

def isBlockStructured : Nat → List Effect → Bool
  | depth, [] => depth = 0
  | depth, e :: es =>
    match e.action with
    | .beginBlock => isBlockStructured (depth + 1) es
    | .endBlock => 0 < depth && isBlockStructured (depth - 1) es
    | a => a.isLeaf (0 < depth) && isBlockStructured depth es

/-- What follows the code of a block: its end, and code one block further out. -/
def EndsBlock (depth : Nat) (tail : List Effect) : Prop :=
  (depth = 0 ∧ tail = []) ∨
    ∃ (t : Timing) (rest : List Effect), tail = t.effect .endBlock :: rest ∧ 0 < depth ∧
      isBlockStructured (depth - 1) rest = true

/-- A list that is block-structured is the text of some blocks, up to the end of the block it stands
in. -/
theorem blocks_of_structured (n depth : Nat) (es : List Effect) (hn : es.length ≤ n)
    (h : isBlockStructured depth es = true) :
    ∃ (b : Blocks (0 < depth)) (tail : List Effect),
      es = b.flatten ++ tail ∧ EndsBlock depth tail := by
  -- What follows a block is not the tail of the list, so its length carries the induction.
  induction n generalizing depth es with
  | zero =>
    have he : es = [] := List.length_eq_zero_iff.mp (Nat.le_zero.mp hn)
    subst es
    exact ⟨.done, [], rfl, .inl ⟨by simpa [isBlockStructured] using h, rfl⟩⟩
  | succ n ih =>
    cases es with
    | nil => exact ⟨.done, [], rfl, .inl ⟨by simpa [isBlockStructured] using h, rfl⟩⟩
    | cons e es =>
      have hn : es.length ≤ n := by simpa using hn
      simp only [isBlockStructured] at h
      split at h
      next ha =>
        obtain ⟨inner, tail, hi, hd⟩ := ih (depth + 1) es hn h
        obtain ⟨leave, rest, ht, _, hr⟩ := hd.resolve_left (by simp)
        have hl : rest.length ≤ n := by
          rw [hi, ht] at hn
          simp only [List.length_append, List.length_cons] at hn
          omega
        obtain ⟨b, tail', hb, hd⟩ := ih depth rest hl hr
        refine ⟨.block ⟨e.delay, e.duration⟩ leave inner b, tail', ?_, hd⟩
        have he : Timing.effect ⟨e.delay, e.duration⟩ .beginBlock = e := by
          rw [Timing.effect, ← ha]
        have hf : (Blocks.block ⟨e.delay, e.duration⟩ leave inner b).flatten =
            e :: (inner.flatten ++ leave.effect .endBlock :: b.flatten) :=
          congrArg (· :: (inner.flatten ++ leave.effect .endBlock :: b.flatten)) he
        rw [hi, ht, hb, hf, List.cons_append, List.append_assoc, List.cons_append]
      next ha =>
        simp only [Bool.and_eq_true, decide_eq_true_eq] at h
        refine ⟨.done, e :: es, rfl, .inr ⟨⟨e.delay, e.duration⟩, es, ?_, h⟩⟩
        simp [Timing.effect, ← ha]
      next =>
        simp only [Bool.and_eq_true] at h
        obtain ⟨b, tail, hb, hd⟩ := ih depth es hn h.2
        exact ⟨.leaf e h.1 b, tail, congrArg (e :: ·) hb, hd⟩

/-- Every block-structured list is the flattening of a tree. -/
theorem exists_blocks {es : List Effect} (h : isBlockStructured 0 es = true) :
    ∃ b : Blocks false, b.flatten = es := by
  obtain ⟨b, tail, hb, hd⟩ := blocks_of_structured es.length 0 es (Nat.le_refl _) h
  rcases hd with ⟨_, ht⟩ | ⟨_, _, _, ht, _⟩
  · exact ⟨b, by rw [hb, ht, List.append_nil]⟩
  · cases ht

def ControlFrame.apply (routine : ResourceId) (f : ControlFrame) (value : Int32) :
    Action → ControlFrame × List Notice
  | .condition register _ =>
    match (ControlStack.empty routine).loaded? f register value with
    | some f => (f, [])
    | none => (f, [.unknownRegister routine register])
  | .branch whenTrue =>
    let (outcome, notices) := (ControlStack.empty routine).compare f
    ({ f with skipNext := outcome != whenTrue }, notices)
  | _ => (f, [])

/-- What running code asks of the world. -/
structure Leaves (m : Type → Type) where
  /-- Runs a leaf. What it returns is the value that a condition loads. -/
  run : Effect → m Int32
  tell : List Notice → m Unit
  fault : {α : Type} → Fault → m α

namespace Leaves

variable {m : Type → Type} [Monad m]

/-- One instruction of the flat machine: passed over while the top frame skips, unless it is a block
boundary. -/
def flatStep (L : Leaves m) (c : ControlStack) (e : Effect) : m ControlStack :=
  if c.isSkipping && !e.action.isBlockBoundary then pure c
  else if e.action.isBlockBoundary then
    match c.apply 0 e.action with
    | .ok (c, _) => pure c
    | .error fault => L.fault fault
  else do
    match c.apply (← L.run e) e.action with
    | .ok (c, notices) =>
      L.tell notices
      return c
    | .error fault => L.fault fault

def flat (L : Leaves m) (es : List Effect) (c : ControlStack) : m ControlStack :=
  es.foldlM L.flatStep c

/-- The meaning of block-structured code. While the flag is up, leaves are passed over; the next
block takes it down and is passed over as a whole. A block has registers and a flag of its own,
which are gone when it ends. -/
def interpret (L : Leaves m) (routine : ResourceId) {nested : Bool} :
    Blocks nested → ControlFrame → m ControlFrame
  | .done, f => pure f
  | .leaf e _ rest, f => do
    if f.skipNext then interpret L routine rest f
    else
      let (f, notices) := f.apply routine (← L.run e) e.action
      L.tell notices
      interpret L routine rest f
  | .block _ _ inner rest, f => do
    if f.skipNext then interpret L routine rest { f with skipNext := false }
    else
      let _ ← interpret L routine inner {}
      interpret L routine rest f

end Leaves

namespace ControlStack

def inside (c : ControlStack) (nested : Bool) (f : ControlFrame) : ControlStack :=
  if nested then { c with frames := f :: c.frames } else c

@[simp] theorem inside_top (c : ControlStack) (f : ControlFrame) : c.inside false f = c := rfl

@[simp] theorem inside_block (c : ControlStack) (f : ControlFrame) :
    c.inside true f = { c with frames := f :: c.frames } := rfl

@[simp] theorem inside_routine (c : ControlStack) (nested : Bool) (f : ControlFrame) :
    (c.inside nested f).routine = c.routine := by
  cases nested <;> rfl

theorem isSkipping_inside_skipped (c : ControlStack) {f : ControlFrame} (hf : f.skipped = true) :
    (c.inside true f).isSkipping = true := by
  simp [isSkipping, ControlFrame.isSkipping, hf]

theorem isSkipping_inside (c : ControlStack) {nested : Bool} {f : ControlFrame}
    (hf : f.skipped = false)
    (top : nested = false → c.isSkipping = false ∧ f.skipNext = false) :
    (c.inside nested f).isSkipping = f.skipNext := by
  cases nested with
  | false => rw [inside_top, (top rfl).1, (top rfl).2]
  | true => simp [isSkipping, ControlFrame.isSkipping, hf]

/-- Only a frame that skips is changed when a block opens in it. -/
theorem beginBlock_of_not_skipping (c : ControlStack) (hc : c.isSkipping = false) :
    c.beginBlock = c.inside true {} := by
  obtain ⟨routine, frames⟩ := c
  cases frames with
  | nil => rfl
  | cons f outer =>
    obtain ⟨r0, r1, r2, skipped, skipNext⟩ := f
    simp_all [isSkipping, ControlFrame.isSkipping, beginBlock]

theorem apply_inside (c : ControlStack) (nested : Bool) (f : ControlFrame) (value : Int32)
    {a : Action} (ha : a.isLeaf nested = true) :
    (c.inside nested f).apply value a =
      .ok (c.inside nested (f.apply c.routine value a).1, (f.apply c.routine value a).2) := by
  cases nested <;> cases a <;> simp only [Action.isLeaf, Bool.false_eq_true] at ha <;> try rfl
  case true.condition register source =>
    have hl : ({ c with frames := f :: c.frames } : ControlStack).loaded? f register value =
      (empty c.routine).loaded? f register value := rfl
    simp only [inside_block, apply, setRegister, ControlFrame.apply, hl]
    cases (empty c.routine).loaded? f register value <;> rfl

end ControlStack

theorem ControlFrame.apply_skipped (routine : ResourceId) (f : ControlFrame) (value : Int32)
    (a : Action) : (f.apply routine value a).1.skipped = f.skipped := by
  cases a <;> try rfl
  case condition register source =>
    simp only [ControlFrame.apply]
    cases hl : (ControlStack.empty routine).loaded? f register value with
    | none => rfl
    | some g =>
      simp only [ControlStack.loaded?] at hl
      split at hl <;> cases hl <;> rfl

theorem Action.isBlockBoundary_of_isLeaf {nested : Bool} {a : Action}
    (ha : a.isLeaf nested = true) : a.isBlockBoundary = false := by
  cases a <;> first | rfl | simp [Action.isLeaf] at ha

/-- Outside of blocks nothing has registers to act on. -/
theorem ControlFrame.apply_top (routine : ResourceId) (f : ControlFrame) (value : Int32)
    {a : Action} (ha : a.isLeaf false = true) : (f.apply routine value a).1 = f := by
  cases a <;> first | rfl | simp [Action.isLeaf] at ha

namespace Leaves

section Steps

variable {m : Type → Type} [Monad m] (L : Leaves m)

@[simp] theorem flat_nil (c : ControlStack) : L.flat [] c = pure c := rfl

@[simp] theorem flat_cons (e : Effect) (es : List Effect) (c : ControlStack) :
    L.flat (e :: es) c = L.flatStep c e >>= L.flat es := rfl

theorem flatStep_boundary (c : ControlStack) {e : Effect}
    (he : e.action.isBlockBoundary = true) :
    L.flatStep c e =
      match c.apply 0 e.action with
      | .ok (c, _) => pure c
      | .error fault => L.fault fault := by
  simp only [flatStep, he, Bool.not_true, Bool.and_false, Bool.false_eq_true, if_false, if_true]

theorem flatStep_begin (c : ControlStack) (t : Timing) :
    L.flatStep c (t.effect .beginBlock) = pure c.beginBlock := by
  simp [flatStep, Timing.effect, Action.isBlockBoundary, ControlStack.apply]

theorem flatStep_end (c : ControlStack) (f : ControlFrame) (t : Timing) :
    L.flatStep (c.inside true f) (t.effect .endBlock) = pure c := by
  simp [flatStep, Timing.effect, Action.isBlockBoundary, ControlStack.apply,
    ControlStack.endBlock, Except.map]

theorem flatStep_skip {c : ControlStack} {e : Effect} (hc : c.isSkipping = true)
    (he : e.action.isBlockBoundary = false) : L.flatStep c e = pure c := by
  simp [flatStep, hc, he]

theorem flatStep_leaf {c : ControlStack} {e : Effect} (hc : c.isSkipping = false)
    (he : e.action.isBlockBoundary = false) :
    L.flatStep c e = L.run e >>= fun value =>
      match c.apply value e.action with
      | .ok (c, notices) => L.tell notices >>= fun _ => pure c
      | .error fault => L.fault fault := by
  simp only [flatStep, hc, he, Bool.false_and, Bool.false_eq_true, if_false]

end Steps

variable {m : Type → Type} [Monad m] [LawfulMonad m] (L : Leaves m)

@[simp] theorem flat_append (es fs : List Effect) (c : ControlStack) :
    L.flat (es ++ fs) c = L.flat es c >>= L.flat fs := List.foldlM_append

/-- A block that is skipped is passed over with all that is in it. -/
theorem flat_skipped {nested : Bool} (b : Blocks nested) (c : ControlStack) {f : ControlFrame}
    (hf : f.skipped = true) (hn : f.skipNext = false) :
    L.flat b.flatten (c.inside true f) = pure (c.inside true f) := by
  induction b generalizing c f with
  | done => rfl
  | leaf e fits rest ih =>
    have he := Action.isBlockBoundary_of_isLeaf fits
    rw [Blocks.flatten, flat_cons, L.flatStep_skip (c.isSkipping_inside_skipped hf) he, pure_bind]
    exact ih c hf hn
  | block enter leave inner rest ihi ihr =>
    have hb : (c.inside true f).beginBlock =
        (c.inside true f).inside true { skipped := true } := by
      cases f
      simp_all [ControlStack.beginBlock, ControlFrame.isSkipping]
    rw [Blocks.flatten, flat_cons, flatStep_begin, pure_bind, flat_append, hb,
      ihi (c.inside true f) rfl rfl, pure_bind, flat_cons, flatStep_end, pure_bind]
    exact ihr c hf hn

/-- The flat machine does what the code means: it leaves the stack below alone, and the registers
and the flag of the block around it are those of the meaning. -/
theorem flat_flatten {nested : Bool} (b : Blocks nested) (c : ControlStack) {f : ControlFrame}
    (hf : f.skipped = false)
    (top : nested = false → c.isSkipping = false ∧ f.skipNext = false) :
    L.flat b.flatten (c.inside nested f) =
      c.inside nested <$> L.interpret c.routine b f := by
  induction b generalizing c f with
  | done => simp [Blocks.flatten, interpret]
  | leaf e fits rest ih =>
    have he := Action.isBlockBoundary_of_isLeaf fits
    have hs := c.isSkipping_inside hf top
    rw [Blocks.flatten, flat_cons, interpret]
    cases hn : f.skipNext with
    | true =>
      rw [L.flatStep_skip (hs.trans hn) he, pure_bind]
      exact ih c hf top
    | false =>
      rw [L.flatStep_leaf (hs.trans hn) he]
      simp only [bind_assoc, map_bind, Bool.false_eq_true, if_false]
      refine bind_congr fun value => ?_
      simp only [c.apply_inside _ f value fits, bind_assoc, pure_bind]
      refine bind_congr fun _ => ih c ?_ fun ht => ?_
      · rw [ControlFrame.apply_skipped, hf]
      · subst ht
        rw [ControlFrame.apply_top _ _ _ fits]
        exact top rfl
  | @block nested enter leave inner rest ihi ihr =>
    have hs := c.isSkipping_inside hf top
    rw [Blocks.flatten, flat_cons, flatStep_begin, pure_bind, interpret, flat_append]
    cases hn : f.skipNext with
    | true =>
      have hb : (c.inside nested f).beginBlock =
          (c.inside nested { f with skipNext := false }).inside true { skipped := true } := by
        cases nested with
        | false => simp [(top rfl).2] at hn
        | true => simp [ControlStack.beginBlock, ControlFrame.isSkipping, hn]
      -- The frame that opens takes the flag over, and all of the block is passed over in it.
      rw [hb, L.flat_skipped inner _ rfl rfl, pure_bind, flat_cons, flatStep_end, pure_bind]
      exact ihr c hf fun ht => ⟨(top ht).1, rfl⟩
    | false =>
      rw [(c.inside nested f).beginBlock_of_not_skipping (hs.trans hn),
        ihi (c.inside nested f) rfl (by simp), bind_map_left]
      simp only [flat_cons, flatStep_end, pure_bind, ControlStack.inside_routine, map_bind,
        Bool.false_eq_true, if_false]
      exact bind_congr fun _ => ihr c hf top

end Leaves
end EffectMachine
