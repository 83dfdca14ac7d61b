import EffectMachine.Sequence.System

namespace EffectMachine

/-- What runs, with all that it owns. -/
inductive Node where
  | particle (p : Particle)
  | emitter (e : Emitter)
  | sequence (s : Sequence)
  | system (s : System)

inductive NodeKind where
  | particle
  | emitter
  | sequence
deriving DecidableEq

/-- Of what a node owns, particles are walked first and sequences last. -/
def NodeKind.rank : NodeKind → Nat
  | particle => 0
  | emitter => 1
  | sequence => 2

/-- The way from a node to one that it owns: what kind it is, and which of its kind. -/
structure Branch where
  kind : NodeKind
  index : Nat
deriving DecidableEq

abbrev Place := List Branch

def Branch.Before (s t : Branch) : Prop :=
  s.kind.rank < t.kind.rank ∨ s.kind = t.kind ∧ s.index < t.index

/-- The order of a walk through the tree: what is above comes first. -/
def Place.Before : Place → Place → Prop := List.Lex Branch.Before

namespace Node

def owned : Node → NodeKind → List Node
  | .particle p, .particle => p.children.map .particle
  | .particle p, .emitter => p.emitters.map .emitter
  | .emitter e, .particle => e.particles.map .particle
  | .sequence s, .emitter => s.body.emitters.map .emitter
  | .sequence s, .sequence => s.children.map .sequence
  | .system s, .sequence => s.sequences.map .sequence
  | _, _ => []

/-- The node at a place below another one. -/
def at? : Node → Place → Option Node
  | n, [] => some n
  | n, s :: place => (n.owned s.kind)[s.index]?.bind fun c => c.at? place

@[simp] theorem at?_nil (n : Node) : n.at? [] = some n := rfl

@[simp] theorem at?_cons (n : Node) (s : Branch) (place : Place) :
    n.at? (s :: place) = (n.owned s.kind)[s.index]?.bind fun c => c.at? place := rfl

theorem at?_append (n : Node) (a b : Place) : n.at? (a ++ b) = (n.at? a).bind fun c => c.at? b := by
  induction a generalizing n with
  | nil => rfl
  | cons s a ih =>
    simp only [List.cons_append, at?_cons, Option.bind_assoc]
    exact Option.bind_congr fun c _ => ih c

/-- What a node owns is smaller than the node. -/
theorem sizeOf_lt_of_owned {n c : Node} {k : NodeKind} (hc : c ∈ n.owned k) :
    sizeOf c < sizeOf n := by
  cases n with
  | particle p =>
    obtain ⟨body, children, emitters⟩ := p
    cases k with
    | particle =>
      obtain ⟨q, hq, rfl⟩ := List.mem_map.mp hc
      have hs := List.sizeOf_lt_of_mem (show q ∈ children from hq)
      simp only [particle.sizeOf_spec, Particle.mk.sizeOf_spec]
      omega
    | emitter =>
      obtain ⟨e, he, rfl⟩ := List.mem_map.mp hc
      have hs := List.sizeOf_lt_of_mem (show e ∈ emitters from he)
      simp only [particle.sizeOf_spec, emitter.sizeOf_spec, Particle.mk.sizeOf_spec]
      omega
    | sequence => cases hc
  | emitter e =>
    obtain ⟨body, particles⟩ := e
    cases k with
    | particle =>
      obtain ⟨q, hq, rfl⟩ := List.mem_map.mp hc
      have hs := List.sizeOf_lt_of_mem (show q ∈ particles from hq)
      simp only [particle.sizeOf_spec, emitter.sizeOf_spec, Emitter.mk.sizeOf_spec]
      omega
    | emitter | sequence => cases hc
  | sequence s =>
    obtain ⟨body, children⟩ := s
    cases k with
    | particle => cases hc
    | emitter =>
      obtain ⟨e, he, rfl⟩ := List.mem_map.mp hc
      have hs := List.sizeOf_lt_of_mem (show e ∈ body.emitters from he)
      cases body
      simp only [sequence.sizeOf_spec, emitter.sizeOf_spec, Sequence.mk.sizeOf_spec,
        SequenceBody.mk.sizeOf_spec] at hs ⊢
      omega
    | sequence =>
      obtain ⟨q, hq, rfl⟩ := List.mem_map.mp hc
      have hs := List.sizeOf_lt_of_mem (show q ∈ children from hq)
      simp only [sequence.sizeOf_spec, Sequence.mk.sizeOf_spec]
      omega
  | system s =>
    obtain ⟨sequences, failures⟩ := s
    cases k with
    | particle | emitter => cases hc
    | sequence =>
      obtain ⟨q, hq, rfl⟩ := List.mem_map.mp hc
      have hs := List.sizeOf_lt_of_mem (show q ∈ sequences from hq)
      simp only [sequence.sizeOf_spec, system.sizeOf_spec, System.mk.sizeOf_spec]
      omega

/-- What holds of a node as soon as it holds of all that the node owns holds of every node. -/
theorem induction {P : Node → Prop} (h : ∀ n : Node, (∀ k, ∀ c ∈ n.owned k, P c) → P n)
    (n : Node) : P n :=
  h n fun _ c _ => induction h c
termination_by sizeOf n
decreasing_by exact sizeOf_lt_of_owned ‹_›

end Node
end EffectMachine
