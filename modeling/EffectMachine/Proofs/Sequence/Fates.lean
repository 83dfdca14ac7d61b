import EffectMachine.Proofs.Sequence.Blocks
import EffectMachine.Proofs.Sequence.Perform

namespace EffectMachine

/-- What becomes of an effect that is taken up. -/
inductive Fate where
  | skipped
  | ran
  /-- It wanted a block and there was none. -/
  | failed
deriving DecidableEq

namespace ControlStack

/-- What becomes of effects one after the other, each with the value that it loads. A failure is the
last. -/
def fates : ControlStack → List (Effect × Int32) → List Fate
  | _, [] => []
  | c, (e, value) :: rest =>
    if c.isSkipping && !e.action.isBlockBoundary then .skipped :: c.fates rest
    else
      match c.apply value e.action with
      | .ok (c, _) => .ran :: c.fates rest
      | .error _ => [.failed]

/-- Do effects keep to blocks that are opened among them, so many of which are open? While the frame
below skips, there may be nothing but blocks. The first of them uses up the skip that the frame was
armed with; `again` tells whether it skips nevertheless. -/
def keepsWithin (again : Bool) : Bool → Nat → List Effect → Bool
  | _, _, [] => true
  | hidden, depth, e :: es =>
    match e.action with
    | .beginBlock => keepsWithin again hidden (depth + 1) es
    | .endBlock => 0 < depth && keepsWithin again (hidden && (again || 1 < depth)) (depth - 1) es
    | a => !hidden && (!a.isControl || 0 < depth) && keepsWithin again hidden depth es

/-- Are the open frames out of sight for a list of effects? -/
def isOutOfSight (c : ControlStack) (es : List Effect) : Bool :=
  match c.frames with
  | [] => true
  | f :: _ => keepsWithin f.skipped f.isSkipping 0 es

section Steps

variable {c c' : ControlStack} {e : Effect} {value : Int32} {rest : List (Effect × Int32)}

theorem fates_of_skips (hs : (c.isSkipping && !e.action.isBlockBoundary) = true) :
    c.fates ((e, value) :: rest) = .skipped :: c.fates rest := by
  rw [fates, if_pos hs]

theorem fates_of_ok {notices : List Notice}
    (hs : (c.isSkipping && !e.action.isBlockBoundary) = false)
    (ha : c.apply value e.action = .ok (c', notices)) :
    c.fates ((e, value) :: rest) = .ran :: c'.fates rest := by
  rw [fates, if_neg (by rw [hs]; exact Bool.false_ne_true), ha]

theorem fates_of_error {fault : Fault}
    (hs : (c.isSkipping && !e.action.isBlockBoundary) = false)
    (ha : c.apply value e.action = .error fault) :
    c.fates ((e, value) :: rest) = [.failed] := by
  rw [fates, if_neg (by rw [hs]; exact Bool.false_ne_true), ha]

theorem fates_begin (c : ControlStack) (ha : e.action = .beginBlock) :
    c.fates ((e, value) :: rest) = .ran :: c.beginBlock.fates rest :=
  fates_of_ok (by simp [ha, Action.isBlockBoundary]) (by rw [ha]; rfl)

theorem fates_end (routine : ResourceId) (f : ControlFrame) (outer : List ControlFrame)
    (ha : e.action = .endBlock) :
    fates ⟨routine, f :: outer⟩ ((e, value) :: rest) = .ran :: fates ⟨routine, outer⟩ rest :=
  fates_of_ok (by simp [ha, Action.isBlockBoundary]) (by rw [ha]; rfl)

theorem fates_end_nil (routine : ResourceId) (ha : e.action = .endBlock) :
    fates ⟨routine, []⟩ ((e, value) :: rest) = [.failed] :=
  fates_of_error (by simp [ha, Action.isBlockBoundary]) (by rw [ha]; rfl)

theorem keepsWithin_of_not_boundary {again hidden : Bool} {depth : Nat} {es : List Effect}
    (hb : e.action.isBlockBoundary = false) :
    keepsWithin again hidden depth (e :: es) =
      (!hidden && (!e.action.isControl || 0 < depth) && keepsWithin again hidden depth es) := by
  obtain ⟨delay, duration, action⟩ := e
  cases action <;> first | rfl | cases hb

/-- Where no block is open, control has nothing to act on. -/
theorem apply_nil (routine : ResourceId) (value : Int32) {a : Action} (hc : a.isControl = true)
    (hb : a.isBlockBoundary = false) : ∃ fault, apply ⟨routine, []⟩ value a = .error fault := by
  cases a <;> simp only [Action.isControl, Action.isBlockBoundary, Bool.false_eq_true,
    Bool.true_eq_false] at hc hb
  case condition => exact ⟨_, rfl⟩
  case branch => exact ⟨_, rfl⟩

/-- Inside of a block an effect leaves the frames further out alone, and does the same over any. -/
theorem exists_apply_cons (routine : ResourceId) (g : ControlFrame) (value : Int32) {a : Action}
    (hb : a.isBlockBoundary = false) :
    ∃ g' notices, ∀ outer,
      apply ⟨routine, g :: outer⟩ value a = .ok (⟨routine, g' :: outer⟩, notices) := by
  cases hc : a.isControl with
  | false => exact ⟨g, [], fun outer => apply_of_not_control _ _ hc⟩
  | true =>
    have hl : a.isLeaf true = true := by
      cases a <;> first | rfl | simp [Action.isControl, Action.isBlockBoundary] at hc hb
    refine ⟨(g.apply routine value a).1, (g.apply routine value a).2, fun outer => ?_⟩
    simpa using apply_inside ⟨routine, outer⟩ true g value hl

end Steps

section Below

variable {f : ControlFrame} (routine : ResourceId) (outer : List ControlFrame) (again : Bool)

theorem isSkipping_append (inner : List ControlFrame) (hf : f.isSkipping = false) :
    isSkipping ⟨routine, inner ++ f :: outer⟩ = isSkipping ⟨routine, inner⟩ := by
  cases inner with
  | nil => exact hf
  | cons => rfl

theorem beginBlock_append (inner : List ControlFrame) (hf : f.isSkipping = false) :
    ∃ inner', inner'.length = inner.length + 1 ∧
      beginBlock ⟨routine, inner⟩ = ⟨routine, inner'⟩ ∧
      beginBlock ⟨routine, inner ++ f :: outer⟩ = ⟨routine, inner' ++ f :: outer⟩ := by
  cases inner with
  | nil =>
    refine ⟨[{}], rfl, rfl, ?_⟩
    obtain ⟨r0, r1, r2, skipped, skipNext⟩ := f
    simp_all [beginBlock, ControlFrame.isSkipping]
  | cons g inner => exact ⟨_, rfl, rfl, rfl⟩

theorem fates_append_of_not_boundary {e : Effect} (value : Int32) (inner : List ControlFrame)
    (hf : f.isSkipping = false) (hb : e.action.isBlockBoundary = false)
    (hc : e.action.isControl = false ∨ inner ≠ []) :
    ∃ fate inner', inner'.length = inner.length ∧ ∀ rest,
      fates ⟨routine, inner⟩ ((e, value) :: rest) = fate :: fates ⟨routine, inner'⟩ rest ∧
        fates ⟨routine, inner ++ f :: outer⟩ ((e, value) :: rest) =
          fate :: fates ⟨routine, inner' ++ f :: outer⟩ rest := by
  have hs := isSkipping_append routine outer inner hf
  cases hk : isSkipping ⟨routine, inner⟩ with
  | true =>
    refine ⟨.skipped, inner, rfl, fun rest => ⟨fates_of_skips ?_, fates_of_skips ?_⟩⟩
    · rw [hk, hb]
      rfl
    · rw [hs, hk, hb]
      rfl
  | false =>
    have hn : (isSkipping ⟨routine, inner⟩ && !e.action.isBlockBoundary) = false := by
      rw [hk]
      rfl
    have hn' : (isSkipping ⟨routine, inner ++ f :: outer⟩ && !e.action.isBlockBoundary) = false :=
      by rw [hs, hn]
    cases inner with
    | cons g inner =>
      obtain ⟨g', notices, ha⟩ := exists_apply_cons routine g value hb
      exact ⟨.ran, g' :: inner, rfl, fun rest => ⟨fates_of_ok hn (ha _), fates_of_ok hn' (ha _)⟩⟩
    | nil =>
      have hc : e.action.isControl = false := hc.resolve_right fun hne => hne rfl
      exact ⟨.ran, [], rfl, fun rest => ⟨fates_of_ok hn (apply_of_not_control _ _ hc),
        fates_of_ok hn' (apply_of_not_control _ _ hc)⟩⟩

/-- Where no block of its own is open, control acts on the frame that was left open. -/
theorem fates_ne_of_control {e : Effect} (value : Int32) (hf : f.isSkipping = false)
    (hb : e.action.isBlockBoundary = false) (hc : e.action.isControl = true)
    (rest : List (Effect × Int32)) :
    fates ⟨routine, f :: outer⟩ ((e, value) :: rest) ≠
      fates ⟨routine, []⟩ ((e, value) :: rest) := by
  obtain ⟨g, notices, ha⟩ := exists_apply_cons routine f value hb
  obtain ⟨fault, he⟩ := apply_nil routine value hc hb
  have hs : isSkipping ⟨routine, f :: outer⟩ = false := hf
  rw [fates_of_ok (by rw [hs]; rfl) (ha outer), fates_of_error (by rfl) he]
  simp

/-- Frames that do not skip are out of sight exactly for effects that keep to their own blocks. -/
theorem fates_append_iff (inner : List ControlFrame) (hf : f.isSkipping = false)
    (es : List (Effect × Int32)) :
    fates ⟨routine, inner ++ f :: outer⟩ es = fates ⟨routine, inner⟩ es ↔
      keepsWithin again false inner.length (es.map Prod.fst) = true := by
  induction es generalizing inner with
  | nil => exact iff_of_true rfl rfl
  | cons x es ih =>
    obtain ⟨e, value⟩ := x
    rw [List.map_cons]
    cases hb : e.action.isBlockBoundary with
    | false =>
      rw [keepsWithin_of_not_boundary hb]
      by_cases hc : e.action.isControl = false ∨ inner ≠ []
      · obtain ⟨fate, inner', hl, hx⟩ :=
          fates_append_of_not_boundary routine outer value inner hf hb hc
        have hkeeps : (!e.action.isControl || decide (0 < inner.length)) = true := by
          simpa [List.length_pos_iff] using hc
        rw [(hx es).1, (hx es).2, List.cons.injEq, ih inner', hl, hkeeps]
        simp
      · obtain ⟨hcontrol, hi⟩ := not_or.mp hc
        obtain rfl : inner = [] := Decidable.not_not.mp hi
        have hcontrol : e.action.isControl = true := eq_true_of_ne_false hcontrol
        refine iff_of_false (fates_ne_of_control routine outer value hf hb hcontrol es) ?_
        simp [hcontrol]
    | true =>
      cases ha : e.action <;> simp only [ha, Action.isBlockBoundary, Bool.false_eq_true] at hb
      case beginBlock =>
        obtain ⟨inner', hl, hi, ho⟩ := beginBlock_append routine outer inner hf
        rw [fates_begin _ ha, fates_begin _ ha, hi, ho, List.cons.injEq, ih inner', hl]
        simp [keepsWithin, ha]
      case endBlock =>
        cases inner with
        | nil =>
          rw [List.nil_append, fates_end _ _ _ ha, fates_end_nil _ ha]
          simp [keepsWithin, ha]
        | cons g inner =>
          rw [List.cons_append, fates_end _ _ _ ha, fates_end _ _ _ ha, List.cons.injEq]
          simpa [keepsWithin, ha] using ih inner

/-- The frames of blocks that were opened in a frame that skips, and of the same blocks
elsewhere. -/
theorem beginBlock_hidden (depth : Nat) (htop : depth = 0 → f.isSkipping = true)
    (hin : 0 < depth → f.skipNext = false) :
    beginBlock ⟨routine, List.replicate depth {}⟩ = ⟨routine, List.replicate (depth + 1) {}⟩ ∧
      beginBlock ⟨routine, List.replicate depth { skipped := true } ++ f :: outer⟩ =
        ⟨routine, List.replicate (depth + 1) { skipped := true } ++
          { f with skipNext := false } :: outer⟩ := by
  cases depth with
  | zero => simp [beginBlock, htop rfl]
  | succ depth =>
    have hn := hin (Nat.succ_pos depth)
    obtain ⟨r0, r1, r2, skipped, skipNext⟩ := f
    simp_all [beginBlock, List.replicate_succ, ControlFrame.isSkipping]

/-- While the frame below skips, so does every block, and what runs from an empty stack shows. -/
theorem fates_hidden_iff (depth : Nat) (f : ControlFrame)
    (htop : depth = 0 → f.isSkipping = true) (hin : 0 < depth → f.skipNext = false)
    (es : List (Effect × Int32)) :
    fates ⟨routine, List.replicate depth { skipped := true } ++ f :: outer⟩ es =
        fates ⟨routine, List.replicate depth {}⟩ es ↔
      keepsWithin f.skipped true depth (es.map Prod.fst) = true := by
  induction es generalizing depth f with
  | nil => exact iff_of_true rfl rfl
  | cons x es ih =>
    obtain ⟨e, value⟩ := x
    rw [List.map_cons]
    cases hb : e.action.isBlockBoundary with
    | false =>
      have hs : isSkipping ⟨routine, List.replicate depth { skipped := true } ++ f :: outer⟩ =
          true := by
        cases depth with
        | zero => exact htop rfl
        | succ depth => rfl
      have hk : isSkipping ⟨routine, List.replicate depth {}⟩ = false := by
        cases depth <;> rfl
      rw [keepsWithin_of_not_boundary hb, fates_of_skips (by rw [hs, hb]; rfl), fates,
        if_neg (by rw [hk]; exact Bool.false_ne_true)]
      exact iff_of_false (by split <;> simp) (by simp)
    | true =>
      cases ha : e.action <;> simp only [ha, Action.isBlockBoundary, Bool.false_eq_true] at hb
      case beginBlock =>
        obtain ⟨hi, ho⟩ := beginBlock_hidden routine outer depth htop hin
        rw [fates_begin _ ha, fates_begin _ ha, hi, ho, List.cons.injEq,
          ih (depth + 1) { f with skipNext := false } (by simp) (by simp)]
        simp [keepsWithin, ha]
      case endBlock =>
        cases depth with
        | zero =>
          rw [List.replicate_zero, List.nil_append, List.replicate_zero, fates_end _ _ _ ha,
            fates_end_nil _ ha]
          simp [keepsWithin, ha]
        | succ depth =>
          have hn := hin (Nat.succ_pos depth)
          have hk : keepsWithin f.skipped true (depth + 1) (e :: es.map Prod.fst) =
              keepsWithin f.skipped (f.skipped || 0 < depth) depth (es.map Prod.fst) := by
            simp [keepsWithin, ha]
          rw [List.replicate_succ, List.replicate_succ, List.cons_append, fates_end _ _ _ ha,
            fates_end _ _ _ ha, List.cons.injEq, hk]
          refine (and_iff_right rfl).trans ?_
          by_cases hh : (f.skipped || decide (0 < depth)) = true
          · rw [hh]
            refine ih depth f (fun hz => ?_) fun _ => hn
            simpa [hz, ControlFrame.isSkipping, hn] using hh
          · -- The skip that the frame was armed with is used up, and it shows nothing more.
            simp only [Bool.or_eq_true, decide_eq_true_eq, not_or, Nat.not_lt,
              Nat.le_zero_eq, Bool.not_eq_true] at hh
            obtain ⟨hf, rfl⟩ := hh
            have hs : f.isSkipping = false := by simp [ControlFrame.isSkipping, hf, hn]
            simpa [hf] using fates_append_iff routine outer false [] hs es

/-- What becomes of effects is what would from an empty stack, exactly when the open frames are out
of sight for them. -/
theorem fates_eq_clear_iff (c : ControlStack) (es : List (Effect × Int32)) :
    c.fates es = c.clear.fates es ↔ c.isOutOfSight (es.map Prod.fst) = true := by
  obtain ⟨routine, frames⟩ := c
  cases frames with
  | nil => exact iff_of_true rfl rfl
  | cons f outer =>
    cases hf : f.isSkipping with
    | false =>
      simp only [isOutOfSight, hf]
      exact fates_append_iff routine outer f.skipped [] hf es
    | true =>
      simp only [isOutOfSight, hf]
      exact fates_hidden_iff routine outer 0 f (fun _ => hf) (by simp) es

end Below

end ControlStack
end EffectMachine
