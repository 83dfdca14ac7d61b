import EffectMachine.Proofs.System.Apart
import EffectMachine.Proofs.World.Draws

namespace EffectMachine

/-- The generator has drawn words, if it has changed at all. -/
def HostOrder.drawing : HostOrder where
  rel h h' := h.rng.Reaches h'.rng
  refl h := .refl h.rng
  trans := .trans

theorem HostOrder.drawing_admits (actors : List ActorId) : drawing.Admits actors where
  draw _ _ h := h
  note h _ _ := .refl h.rng
  named h := .refl h.rng
  command h _ _ _ _ := .refl h.rng

/-- Whoever else is at work in the meantime leaves the generator alive. -/
def Occasion.SparesGenerator (o : Occasion) : Prop :=
  ∀ h : Host, h.rng.IsAlive → (o.meanwhile h).rng.IsAlive

namespace Ledger

theorem serve_reaches (l : Ledger) (q : Request) (r : Surroundings) (h : Host) :
    h.rng.Reaches (l.serve q r h).2.rng :=
  (serve_stands (C := fun _ : Unit => Conduct.any) (HostOrder.drawing_admits []).toMild
    (fun _ => Conduct.any_keptIn HostOrder.drawing_admits fun _ h => .refl h.rng)
    (fun _ _ => ⟨(), fun _ _ => trivial⟩) ⟨l.system.any_stands, fun _ _ => ⟨(), trivial⟩⟩).leads h

/-- By induction on the requests. -/
theorem hostAfter_isAlive (l : Ledger) {h : Host} (hg : h.rng.IsAlive) {os : List Occasion}
    (ho : ∀ o ∈ os, o.SparesGenerator) : (l.hostAfter h os).rng.IsAlive := by
  induction os generalizing l h with
  | nil => exact hg
  | cons o os ih =>
    obtain ⟨hm, hos⟩ := List.forall_mem_cons.mp ho
    exact ih _ ((hm h hg).reaches (l.serve_reaches _ _ _)) hos

end Ledger

/-- A generator never comes to zero: not from a seed by any draws, and not in a run of a system
unless someone else takes it there. A draw takes it some words on, and a word takes all states to
all states, one to one. What is drawn below a bound lies below it, and is zero without a draw when
nothing does. So a choice is one of those there are, and a variance is a whole number of frames up
to it. -/
theorem generator_never_dies :
    (∀ seed calls, ((Rng.ofSeed seed).after calls).IsAlive) ∧
    (∀ (l : Ledger) (h : Host) os, h.rng.IsAlive → (∀ o ∈ os, Occasion.SparesGenerator o) →
      (l.hostAfter h os).rng.IsAlive) ∧
    (∀ (c : DrawCall) (g : Rng), g.Reaches (c.after g)) ∧
    (∀ g g' : Rng, g.IsAlive → g.Reaches g' → g'.IsAlive) ∧
    Function.Bijective (fun g => (Draw.word g).2) ∧
    (∀ bound g, if 0 < bound then 0 ≤ (Draw.below bound g).1 ∧ (Draw.below bound g).1 < bound
      else Draw.below bound g = (0, g)) ∧
    (∀ (s : SequenceBody) choices, choices ≠ [] → ∀ r (h : Host),
      let draw := Draw.below (Int32.ofNat choices.length) h.rng
      ∃ i : Fin choices.length, draw.1.toInt = i ∧
        s.chooseRoutine choices r h = s.takeUp (choices.get i) r { h with rng := draw.2 }) ∧
    ∀ v g, ∃ k : Nat, k ≤ v.toNat ∧ (Draw.variance v g).1.IsWhole k := by
  refine ⟨fun seed calls => ?_, fun l h os hg ho => l.hostAfter_isAlive hg ho,
    DrawCall.reaches_after, fun g g' hg => hg.reaches, Rng.next_bijective, fun bound g => ?_,
    fun s choices hc r h => s.chooseRoutine_eq hc r h, Draw.variance_whole⟩
  · exact (Rng.ofSeed_isAlive seed).reaches (Rng.reaches_after _ calls)
  · split
    next h => exact Draw.below_range h g
    next h => exact Draw.below_of_nonpos h g

def Routine.choosing : Routine :=
  { lantern with effects := [⟨0, 0, .randomRoutine [⟨3, 0, 0, 0⟩, lantern.id]⟩] }

/-- One activation chooses in its first tick and another one in its second. -/
def choosingRun : List Occasion :=
  [.start .choosing .weather, .advance 1, .start .choosing .weather, .advance 1].map
    (Occasion.alone .lantern)

/-- Two choices take the generator to its second state. -/
theorem choosingRun_never_dies :
    (Ledger.hostAfter {} .fresh choosingRun).rng = Rng.next^[2] (Rng.ofSeed 0) ∧
    (Ledger.hostAfter {} .fresh choosingRun).rng.IsAlive ∧
    (Rng.next^[2] (Rng.ofSeed 0)).IsAlive ∧
    ∃ i : Fin 2, (Draw.below 2 (Rng.ofSeed 0)).1.toInt = i := by
  obtain ⟨-, runs, -, live, -, -, choice, -⟩ := generator_never_dies
  have spared : ∀ o ∈ choosingRun, o.SparesGenerator := by
    intro o ho
    obtain ⟨request, -, rfl⟩ := List.mem_map.mp ho
    exact fun h hg => hg
  have born := Rng.ofSeed_isAlive 0
  obtain ⟨i, hi, -⟩ := choice (SequenceBody.fresh ⟨1⟩ .choosing .weather 1 0)
    [⟨3, 0, 0, 0⟩, Routine.lantern.id] (by decide) .bare .fresh
  exact ⟨by decide +kernel, runs {} .fresh choosingRun born spared, live _ _ born ⟨2, rfl⟩, i, hi⟩

end EffectMachine
