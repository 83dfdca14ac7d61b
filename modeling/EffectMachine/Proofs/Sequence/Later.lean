import EffectMachine.Sequence.Basic

namespace EffectMachine

/-- Position by position, a list goes on in another one that may be longer. -/
def Extends {α : Type} (R : α → α → Prop) (xs ys : List α) : Prop :=
  ∀ (i : Nat) (x : α), xs[i]? = some x → ∃ y, ys[i]? = some y ∧ R x y

namespace Extends

variable {α : Type} {R : α → α → Prop} {xs ys zs : List α}

theorem refl (hr : ∀ x, R x x) (xs : List α) : Extends R xs xs :=
  fun _ x hx => ⟨x, hx, hr x⟩

theorem trans (ht : ∀ x y z, R x y → R y z → R x z) (hx : Extends R xs ys)
    (hy : Extends R ys zs) : Extends R xs zs := by
  intro i x hi
  obtain ⟨y, hj, hxy⟩ := hx i x hi
  obtain ⟨z, hk, hyz⟩ := hy i y hj
  exact ⟨z, hk, ht x y z hxy hyz⟩

theorem nil : Extends R [] ys := by
  intro i x hi
  simp at hi

theorem cons {x y : α} (hxy : R x y) (h : Extends R xs ys) : Extends R (x :: xs) (y :: ys) := by
  intro i z hi
  cases i with
  | zero =>
    simp only [List.getElem?_cons_zero, Option.some.injEq] at hi
    exact ⟨y, by simp, hi ▸ hxy⟩
  | succ i => simpa using h i z (by simpa using hi)

theorem append (hr : ∀ x, R x x) (xs ys : List α) : Extends R xs (xs ++ ys) := by
  intro i x hi
  have hl : i < xs.length := (List.getElem?_eq_some_iff.mp hi).1
  exact ⟨x, by rw [List.getElem?_append_left hl, hi], hr x⟩

theorem map {f : α → α} (hf : ∀ x, R x (f x)) (xs : List α) : Extends R xs (xs.map f) := by
  intro i x hi
  exact ⟨f x, by simp [hi], hf x⟩

/-- Lists extend one another through a function as their images do. -/
theorem map_map {β : Type} {R : β → β → Prop} {f : α → β}
    (h : Extends (fun x y => R (f x) (f y)) xs ys) : Extends R (xs.map f) (ys.map f) := by
  intro i z hi
  rw [List.getElem?_map] at hi ⊢
  obtain ⟨x, hx, rfl⟩ := Option.map_eq_some_iff.mp hi
  obtain ⟨y, hy, hr⟩ := h i x hx
  exact ⟨f y, by rw [hy]; rfl, hr⟩

end Extends

mutual

/-- Were all emitters of a particle and of its batch told to stop? -/
def Particle.isSilent : Particle → Bool
  | .mk _ children emitters => silentParticles children && silentEmitters emitters

def Emitter.isSilent : Emitter → Bool
  | .mk body particles => body.stopRequested && silentParticles particles

def silentParticles : List Particle → Bool
  | [] => true
  | p :: ps => p.isSilent && silentParticles ps

def silentEmitters : List Emitter → Bool
  | [] => true
  | e :: es => e.isSilent && silentEmitters es

end

mutual

theorem Particle.isSilent_stopEmitters : ∀ p : Particle, p.stopEmitters.isSilent = true
  | .mk _ children emitters => by
    simp [Particle.stopEmitters, Particle.isSilent, silentParticles_stop children,
      silentEmitters_stop emitters]

theorem Emitter.isSilent_stop : ∀ e : Emitter, e.stop.isSilent = true
  | .mk _ particles => by
    simp [Emitter.stop, Emitter.isSilent, silentParticles_stop particles]

theorem silentParticles_stop : ∀ ps : List Particle, silentParticles (stopInParticles ps) = true
  | [] => rfl
  | p :: ps => by
    simp [stopInParticles, silentParticles, Particle.isSilent_stopEmitters p,
      silentParticles_stop ps]

theorem silentEmitters_stop : ∀ es : List Emitter, silentEmitters (stopEmitters es) = true
  | [] => rfl
  | e :: es => by
    simp [stopEmitters, silentEmitters, Emitter.isSilent_stop e, silentEmitters_stop es]

end

theorem stopEmitters_eq_map (es : List Emitter) : stopEmitters es = es.map Emitter.stop := by
  induction es with
  | nil => simp [stopEmitters]
  | cons e es ih => simp [stopEmitters, ih]

namespace Emitter

/-- The same emitter, which emits no more once it was told to stop. -/
structure Later (e e' : Emitter) : Prop where
  definition : e'.body.definition = e.body.definition
  owner : e'.body.owner = e.body.owner
  silent : e.isSilent = true → e'.isSilent = true

theorem Later.refl (e : Emitter) : e.Later e := ⟨rfl, rfl, id⟩

theorem Later.trans {e e' e'' : Emitter} (h : e.Later e') (h' : e'.Later e'') : e.Later e'' :=
  ⟨h'.definition.trans h.definition, h'.owner.trans h.owner, h'.silent ∘ h.silent⟩

theorem later_stop (e : Emitter) : e.Later e.stop := by
  cases e with
  | mk b particles =>
    exact ⟨by simp [stop, body], by simp [stop, body], fun _ => isSilent_stop _⟩

end Emitter

namespace SequenceBody

/-- Has it been stopped, or has it failed? Stopping such a sequence does nothing. -/
def isEnded (s : SequenceBody) : Bool := s.stopped || s.isFailed

/-- What a sequence is stays; what has ended or stopped in it stays so. -/
structure Later (s s' : SequenceBody) : Prop where
  id : s'.id = s.id
  routine : s'.routine = s.routine
  depth : s'.depth = s.depth
  stopped : s.stopped = true → s'.stopped = true
  failed : s.isFailed = true → s'.isFailed = true
  emitters : Extends Emitter.Later s.emitters s'.emitters

variable {s s' s'' : SequenceBody}

/-- Only what does not count has changed. -/
theorem Later.of_eq (id : s'.id = s.id) (routine : s'.routine = s.routine)
    (depth : s'.depth = s.depth) (stopped : s'.stopped = s.stopped)
    (failure : s'.failure = s.failure) (emitters : s'.emitters = s.emitters) : s.Later s' where
  id := id
  routine := routine
  depth := depth
  stopped := by rw [stopped]; exact fun h => h
  failed := by simp only [isFailed, failure]; exact fun h => h
  emitters := by rw [emitters]; exact Extends.refl Emitter.Later.refl _

theorem Later.refl (s : SequenceBody) : s.Later s := .of_eq rfl rfl rfl rfl rfl rfl

/-- What is later than something later is later. -/
theorem Later.trans (h : s.Later s') (h' : s'.Later s'') : s.Later s'' where
  id := h'.id.trans h.id
  routine := h'.routine.trans h.routine
  depth := h'.depth.trans h.depth
  stopped := h'.stopped ∘ h.stopped
  failed := h'.failed ∘ h.failed
  emitters := h.emitters.trans (fun _ _ _ => Emitter.Later.trans) h'.emitters

theorem Later.ended (h : s.Later s') (he : s.isEnded = true) : s'.isEnded = true := by
  simp only [isEnded, Bool.or_eq_true] at he ⊢
  exact he.imp h.stopped h.failed

end SequenceBody

namespace Sequence

def ofLists (number : Nat) (effects onComplete onStop : List Effect)
    (children : List Sequence) : Sequence :=
  mk (SequenceBody.fresh ⟨number⟩
    ⟨ResourceId.none, ResourcePath.root, effects, onComplete, onStop, false⟩ .weather 1 0) children

@[simp] theorem body_mk (body : SequenceBody) (children : List Sequence) :
    (mk body children).body = body := rfl

@[simp] theorem children_mk (body : SequenceBody) (children : List Sequence) :
    (mk body children).children = children := rfl

@[simp] theorem mk_eta (s : Sequence) : mk s.body s.children = s := by cases s; rfl

@[simp] theorem body_mapBody (f : SequenceBody → SequenceBody) (s : Sequence) :
    (s.mapBody f).body = f s.body := by cases s; rfl

@[simp] theorem children_mapBody (f : SequenceBody → SequenceBody) (s : Sequence) :
    (s.mapBody f).children = s.children := by cases s; rfl

def at? : Sequence → List Nat → Option Sequence
  | s, [] => some s
  | s, i :: path => s.children[i]?.bind fun c => c.at? path

@[simp] theorem at?_nil (s : Sequence) : s.at? [] = some s := rfl

@[simp] theorem at?_cons (s : Sequence) (i : Nat) (path : List Nat) :
    s.at? (i :: path) = s.children[i]?.bind fun c => c.at? path := rfl

/-- What holds of a sequence and of all below it holds below each child. -/
theorem forall_at?_mk {P : Sequence → Prop} {body : SequenceBody} {children : List Sequence} :
    (∀ path q, (mk body children).at? path = some q → P q) ↔
      P (mk body children) ∧ ∀ c ∈ children, ∀ path q, c.at? path = some q → P q := by
  constructor
  · intro h
    refine ⟨h [] _ rfl, fun c hc path q hq => ?_⟩
    obtain ⟨i, hi⟩ := List.getElem?_of_mem hc
    exact h (i :: path) q (by simp [hi, hq])
  · intro ⟨hs, hc⟩ path q hq
    cases path with
    | nil =>
      simp only [at?_nil, Option.some.injEq] at hq
      exact hq ▸ hs
    | cons i path =>
      obtain ⟨c, hi, hq⟩ := Option.bind_eq_some_iff.mp hq
      exact hc c (List.mem_of_getElem? hi) path q hq

/-- Everything that was there is there at the same path, and so related to what it was. -/
def Pathwise (R : SequenceBody → SequenceBody → Prop) (s s' : Sequence) : Prop :=
  ∀ path d, s.at? path = some d → ∃ d', s'.at? path = some d' ∧ R d.body d'.body

section Pathwise

variable {R : SequenceBody → SequenceBody → Prop} {s s' s'' : Sequence} {b b' : SequenceBody}
  {cs cs' : List Sequence}

theorem Pathwise.refl (hr : ∀ b, R b b) (s : Sequence) : s.Pathwise R s :=
  fun _ d hd => ⟨d, hd, hr d.body⟩

/-- A relation that passes through two steps does so at every place. -/
theorem Pathwise.trans (ht : ∀ b b' b'', R b b' → R b' b'' → R b b'') (h : s.Pathwise R s')
    (h' : s'.Pathwise R s'') : s.Pathwise R s'' := by
  intro path d hd
  obtain ⟨d', hd', hl⟩ := h path d hd
  obtain ⟨d'', hd'', hl'⟩ := h' path d' hd'
  exact ⟨d'', hd'', ht _ _ _ hl hl'⟩

theorem Pathwise.body (h : s.Pathwise R s') : R s.body s'.body := by
  obtain ⟨d, hd, hl⟩ := h [] s rfl
  simp only [at?_nil, Option.some.injEq] at hd
  exact hd ▸ hl

theorem Pathwise.children (h : s.Pathwise R s') :
    Extends (Pathwise R) s.children s'.children := by
  intro i c hi
  obtain ⟨c', hc', _⟩ := h [i] c (by simp [hi])
  simp only [at?_cons, at?_nil, Option.bind_fun_some] at hc'
  refine ⟨c', hc', fun path d hd => ?_⟩
  obtain ⟨d', hd', hl⟩ := h (i :: path) d (by simpa [hi] using hd)
  exact ⟨d', by simpa [hc'] using hd', hl⟩

/-- A tree is related at every place if its root is and its children are. -/
theorem pathwise_mk (hb : R b b') (hc : Extends (Pathwise R) cs cs') :
    (mk b cs).Pathwise R (mk b' cs') := by
  intro path d hd
  cases path with
  | nil =>
    simp only [at?_nil, Option.some.injEq] at hd
    exact ⟨mk b' cs', rfl, hd ▸ hb⟩
  | cons i path =>
    obtain ⟨c, hi, hd⟩ := Option.bind_eq_some_iff.mp hd
    obtain ⟨c', hi', hl⟩ := hc i c hi
    obtain ⟨d', hd', hl⟩ := hl path d hd
    exact ⟨d', by simpa [show cs'[i]? = some c' from hi'] using hd', hl⟩

theorem pathwise_children (hr : ∀ b, R b b) (hc : Extends (Pathwise R) s.children cs') :
    s.Pathwise R (mk s.body cs') := by
  simpa using pathwise_mk (hr s.body) hc

theorem pathwise_body (hr : ∀ b, R b b) (hb : R s.body b') : s.Pathwise R (mk b' s.children) := by
  simpa using pathwise_mk hb (Extends.refl (Pathwise.refl hr) s.children)

theorem pathwise_mapBody (hr : ∀ b, R b b) {f : SequenceBody → SequenceBody}
    (hf : ∀ b : SequenceBody, R b (f b)) (s : Sequence) : s.Pathwise R (s.mapBody f) := by
  cases s with
  | mk body children => exact pathwise_body hr (hf body)

/-- Some descendants were appended to those that were there. -/
theorem pathwise_append (hr : ∀ b, R b b) (s : Sequence) (new : List Sequence) :
    s.Pathwise R (mk s.body (s.children ++ new)) :=
  pathwise_children hr (Extends.append (Pathwise.refl hr) _ _)

end Pathwise

def Later (s s' : Sequence) : Prop :=
  ∀ path d, s.at? path = some d → ∃ d', s'.at? path = some d' ∧ d.body.Later d'.body

variable {s s' s'' : Sequence}

theorem Later.refl (s : Sequence) : s.Later s := Pathwise.refl SequenceBody.Later.refl s

theorem Later.body (h : s.Later s') : s.body.Later s'.body := Pathwise.body h

theorem Later.children (h : s.Later s') : Extends Later s.children s'.children :=
  Pathwise.children h

end Sequence
end EffectMachine
