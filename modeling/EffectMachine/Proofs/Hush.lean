import EffectMachine.Proofs.Particle.Births
import EffectMachine.Proofs.Sequence.Later
import EffectMachine.Proofs.Tree

namespace EffectMachine

theorem stopInParticles_eq_map (ps : List Particle) :
    stopInParticles ps = ps.map Particle.stopEmitters := by
  induction ps with
  | nil => rfl
  | cons p ps ih => rw [stopInParticles, ih, List.map_cons]

namespace Particle

@[simp] theorem body_stopEmitters (p : Particle) : p.stopEmitters.body = p.body := by
  cases p; rfl

@[simp] theorem children_stopEmitters (p : Particle) :
    p.stopEmitters.children = p.children.map stopEmitters := by
  obtain ⟨b, cs, es⟩ := p
  exact stopInParticles_eq_map cs

@[simp] theorem emitters_stopEmitters (p : Particle) :
    p.stopEmitters.emitters = p.emitters.map Emitter.stop := by
  obtain ⟨b, cs, es⟩ := p
  exact stopEmitters_eq_map es

end Particle

namespace Emitter

@[simp] theorem body_stop (e : Emitter) : e.stop.body = { e.body with stopRequested := true } := by
  cases e; rfl

@[simp] theorem particles_stop (e : Emitter) :
    e.stop.particles = e.particles.map Particle.stopEmitters := by
  obtain ⟨b, ps⟩ := e
  exact stopInParticles_eq_map ps

theorem doneEmitting_stop (e : Emitter) : e.stop.doneEmitting = true := by
  rw [doneEmitting, body_stop, EmitterBody.doneEmitting, Bool.true_or]

end Emitter

section Twice

mutual

theorem Particle.stopEmitters_stopEmitters : ∀ p : Particle,
    p.stopEmitters.stopEmitters = p.stopEmitters
  | .mk body children emitters => by
    simp only [Particle.stopEmitters, stopInParticles_twice children, stopEmitters_twice emitters]

theorem Emitter.stop_stop : ∀ e : Emitter, e.stop.stop = e.stop
  | .mk body particles => by
    simp only [Emitter.stop, stopInParticles_twice particles]

theorem stopInParticles_twice : ∀ ps : List Particle,
    stopInParticles (stopInParticles ps) = stopInParticles ps
  | [] => rfl
  | p :: ps => by
    simp only [stopInParticles, Particle.stopEmitters_stopEmitters p, stopInParticles_twice ps]

theorem stopEmitters_twice : ∀ es : List Emitter,
    stopEmitters (stopEmitters es) = stopEmitters es
  | [] => rfl
  | e :: es => by simp only [stopEmitters, Emitter.stop_stop e, stopEmitters_twice es]

end

end Twice

namespace Node

def hushed : Node → Node
  | .particle p => .particle p.stopEmitters
  | .emitter e => .emitter e.stop
  | n => n

/-- Particles and emitters; they own nothing else. -/
def isParticulate : Node → Bool
  | .particle _ | .emitter _ => true
  | _ => false

/-- What is below a particle or an emitter is told to stop with it. -/
theorem owned_hushed {n : Node} (hn : n.isParticulate = true) (k : NodeKind) :
    n.hushed.owned k = (n.owned k).map hushed := by
  cases n with
  | particle p => cases k <;> simp [hushed, owned, Function.comp_def]
  | emitter e => cases k <;> simp [hushed, owned, Function.comp_def]
  | _ => cases hn

/-- Particles and emitters own nothing but particles and emitters. -/
theorem isParticulate_of_owned {n c : Node} (hn : n.isParticulate = true) {k : NodeKind}
    (hc : c ∈ n.owned k) : c.isParticulate = true := by
  cases n with
  | particle p =>
    cases k with
    | particle | emitter =>
      obtain ⟨_, -, rfl⟩ := List.mem_map.mp hc
      rfl
    | sequence => cases hc
  | emitter e =>
    cases k with
    | particle =>
      obtain ⟨_, -, rfl⟩ := List.mem_map.mp hc
      rfl
    | emitter | sequence => cases hc
  | _ => cases hn

theorem isParticulate_of_at? {n c : Node} {a : Place} (hn : n.isParticulate = true)
    (hc : n.at? a = some c) : c.isParticulate = true := by
  induction a generalizing n with
  | nil => exact Option.some.inj hc ▸ hn
  | cons b a ih =>
    obtain ⟨d, hd, hc⟩ := Option.bind_eq_some_iff.mp hc
    exact ih (isParticulate_of_owned hn (List.mem_of_getElem? hd)) hc

/-- A stop does not move anything: at every place there is what was there, hushed. -/
theorem at?_hushed {n : Node} (hn : n.isParticulate = true) (a : Place) :
    n.hushed.at? a = (n.at? a).map hushed := by
  induction a generalizing n with
  | nil => rfl
  | cons s a ih =>
    rw [at?_cons, at?_cons, owned_hushed hn, List.getElem?_map, Option.map_bind]
    cases hc : (n.owned s.kind)[s.index]? with
    | none => rfl
    | some c => exact ih (isParticulate_of_owned hn (List.mem_of_getElem? hc))

/-- The same node, which at most was told to stop; of a sequence, the name tells that it is the
same. -/
def Remains : Node → Node → Prop
  | .particle p, n => n = .particle p ∨ n = .particle p.stopEmitters
  | .emitter e, n => n = .emitter e ∨ n = .emitter e.stop
  | .sequence s, n => ∃ s', n = .sequence s' ∧ s'.body.id = s.body.id
  | .system _, n => ∃ s', n = .system s'

theorem Remains.refl (n : Node) : n.Remains n := by
  cases n with
  | particle | emitter => exact .inl rfl
  | sequence s => exact ⟨s, rfl, rfl⟩
  | system s => exact ⟨s, rfl⟩

/-- What remains through two changes remains through both. -/
theorem Remains.trans {n n' n'' : Node} (h : n.Remains n') (h' : n'.Remains n'') :
    n.Remains n'' := by
  cases n with
  | particle p =>
    rcases h with rfl | rfl
    · exact h'
    · rcases h' with h' | h'
      · exact .inr h'
      · exact .inr (h'.trans (congrArg particle p.stopEmitters_stopEmitters))
  | emitter e =>
    rcases h with rfl | rfl
    · exact h'
    · rcases h' with h' | h'
      · exact .inr h'
      · exact .inr (h'.trans (congrArg emitter e.stop_stop))
  | sequence s =>
    obtain ⟨s', rfl, hs⟩ := h
    obtain ⟨s'', rfl, hs'⟩ := h'
    exact ⟨s'', rfl, hs'.trans hs⟩
  | system s =>
    obtain ⟨s', rfl⟩ := h
    exact h'

theorem Remains.isParticulate_eq {n n' : Node} (h : n.Remains n') :
    n'.isParticulate = n.isParticulate := by
  cases n with
  | particle p => rcases h with rfl | rfl <;> rfl
  | emitter e => rcases h with rfl | rfl <;> rfl
  | sequence s =>
    obtain ⟨_, rfl, -⟩ := h
    rfl
  | system s =>
    obtain ⟨_, rfl⟩ := h
    rfl

theorem Remains.particle {p : Particle} {n : Node} (h : (Node.particle p).Remains n) :
    ∃ q, n = .particle q ∧ q.body = p.body := by
  rcases h with rfl | rfl
  · exact ⟨p, rfl, rfl⟩
  · exact ⟨p.stopEmitters, rfl, p.body_stopEmitters⟩

theorem Remains.emitter {x : Emitter} {n : Node} (h : (Node.emitter x).Remains n) :
    ∃ y, n = .emitter y ∧ (y = x ∨ y = x.stop) := by
  rcases h with h | h
  · exact ⟨x, h, .inl rfl⟩
  · exact ⟨x.stop, h, .inr rfl⟩

theorem remains_hushed (n : Node) : n.Remains n.hushed := by
  cases n with
  | particle | emitter => exact .inr rfl
  | sequence s => exact ⟨s, rfl, rfl⟩
  | system s => exact ⟨s, rfl⟩

/-- Everything is where it was, and at most was told to stop. More may have come. -/
def Lasts (n n' : Node) : Prop :=
  ∀ a c, n.at? a = some c → ∃ c', n'.at? a = some c' ∧ c.Remains c'

theorem Lasts.refl (n : Node) : n.Lasts n := fun _ c hc => ⟨c, hc, .refl c⟩

/-- Places last through two changes if they last through each. -/
theorem Lasts.trans {n n' n'' : Node} (h : n.Lasts n') (h' : n'.Lasts n'') : n.Lasts n'' := by
  intro a c hc
  obtain ⟨c', hc', hr⟩ := h a c hc
  obtain ⟨c'', hc'', hr'⟩ := h' a c' hc'
  exact ⟨c'', hc'', hr.trans hr'⟩

/-- What is below a place that lasts lasts as well. -/
theorem Lasts.below {n n' c : Node} {a : Place} (h : n.Lasts n') (hc : n.at? a = some c) :
    ∃ c', n'.at? a = some c' ∧ c.Lasts c' := by
  obtain ⟨c', hc', -⟩ := h a c hc
  refine ⟨c', hc', fun b d hd => ?_⟩
  have hn : n.at? (a ++ b) = some d := by
    rw [at?_append, hc]
    exact hd
  obtain ⟨d', hd', hr⟩ := h (a ++ b) d hn
  rw [at?_append, hc'] at hd'
  exact ⟨d', hd', hr⟩

theorem lasts_hushed {n : Node} (hn : n.isParticulate = true) : n.Lasts n.hushed := by
  intro a c hc
  refine ⟨c.hushed, ?_, c.remains_hushed⟩
  rw [at?_hushed hn, hc, Option.map_some]

/-- What lasts one by one below two nodes that remain lasts with them. -/
theorem lasts_of_owned {n n' : Node} (hn : n.Remains n')
    (h : ∀ k, Extends Lasts (n.owned k) (n'.owned k)) : n.Lasts n' := by
  intro a c hc
  cases a with
  | nil =>
    cases hc
    exact ⟨n', rfl, hn⟩
  | cons s a =>
    obtain ⟨d, hd, hc⟩ := Option.bind_eq_some_iff.mp hc
    obtain ⟨d', hd', hl⟩ := h s.kind s.index d hd
    obtain ⟨c', hc', hr⟩ := hl a c hc
    exact ⟨c', by rw [at?_cons, hd']; exact hc', hr⟩

end Node

def Particle.Lasts (p p' : Particle) : Prop := (Node.particle p).Lasts (.particle p')

def Emitter.Lasts (e e' : Emitter) : Prop := (Node.emitter e).Lasts (.emitter e')

def Sequence.Lasts (s s' : Sequence) : Prop := (Node.sequence s).Lasts (.sequence s')

theorem Particle.Lasts.refl (p : Particle) : p.Lasts p := Node.Lasts.refl _

theorem Emitter.Lasts.refl (e : Emitter) : e.Lasts e := Node.Lasts.refl _

theorem Emitter.Lasts.trans {e e' e'' : Emitter} (h : e.Lasts e') (h' : e'.Lasts e'') :
    e.Lasts e'' :=
  Node.Lasts.trans h h'

theorem Sequence.Lasts.refl (s : Sequence) : s.Lasts s := Node.Lasts.refl _

theorem Particle.lasts_stopEmitters (p : Particle) : p.Lasts p.stopEmitters :=
  Node.lasts_hushed rfl

theorem Emitter.lasts_stop (e : Emitter) : e.Lasts e.stop := Node.lasts_hushed rfl

end EffectMachine
