import EffectMachine.Proofs.Sequence.Invariants
import EffectMachine.Proofs.System.Conduct

namespace EffectMachine

namespace Sequence

/-- No sequence of a tree has failed with another fault than these. -/
def FailedWith (P : Fault → Prop) (s : Sequence) : Prop :=
  s.Throughout fun b => ∀ f, b.failure = some f → P f

/-- No other faults than these show in a run: nowhere below the sequence at any time, in no answer,
and in no notice that a call adds. -/
def FaultsIn (P : Fault → Prop) : Sequence → List Visit → Prop
  | s, [] => s.FailedWith P
  | s, v :: vs =>
    s.FailedWith P ∧
    (∀ f, (s.visited v).1.2 = some (.fault f) → P f) ∧
    (∀ n ∈ (s.visited v).2.log, ∀ f, n.failure? = some f → n ∈ v.host.log ∨ P f) ∧
    (s.visited v).1.1.FaultsIn P vs

variable {I : Invariant} {s : Sequence}

theorem Graded.failedWith (h : s.Graded I.conduct.Sound 0) : s.FailedWith I.allows :=
  fun path q hq => (h path q hq).failure

/-- By induction on the calls. -/
theorem faultsIn_of_sound (vs : List Visit) (hk : ∀ v ∈ vs, I.KeptIn v.surroundings)
    (hs : s.Graded I.conduct.Sound 0) : s.FaultsIn I.allows vs := by
  induction vs generalizing s with
  | nil => exact hs.failedWith
  | cons v vs ih =>
    obtain ⟨hv, hvs⟩ := List.forall_mem_cons.mp hk
    obtain ⟨hx, hlog⟩ := answer_held hv.conduct hs v.call v.host
    exact ⟨hs.failedWith, hx.allows, fun n hn f hf => (hlog n hn).imp_right fun h => h f hf,
      ih hvs hx.sound⟩

end Sequence

namespace Ledger

/-- No other faults than these show in a run: in no record and nowhere below an activation at any
time, and in no notice that a request adds. -/
def FaultsIn (P : Fault → Prop) : Ledger → Host → List Occasion → Prop
  | l, _, [] => (∀ x ∈ l.recorded, P x.fault) ∧ ∀ q ∈ l.system.sequences, q.FailedWith P
  | l, h, o :: os =>
    (∀ x ∈ l.recorded, P x.fault) ∧ (∀ q ∈ l.system.sequences, q.FailedWith P) ∧
    (∀ n ∈ (l.served h o).2.log, ∀ f, n.failure? = some f → n ∈ (o.meanwhile h).log ∨ P f) ∧
    (l.served h o).1.1.FaultsIn P (l.served h o).2 os

variable {I : Invariant} {l : Ledger}

def Admits (I : Invariant) (q : Request) : Prop :=
  ∀ routine binding, q = .start routine binding → ∀ id binding rate,
    I.holds (.fresh id routine binding rate 0) routine.effects

abbrev StandsBy (I : Invariant) (l : Ledger) : Prop := l.Stands fun _ : Unit => I.conduct

theorem stands_empty (I : Invariant) : StandsBy I {} := new_stands _

theorem Admits.starts {q : Request} {r : Surroundings} (ha : Admits I q) (hk : I.KeptIn r)
    {x : Routine × Binding} (hx : q.starts? r.directory = some x) :
    Conduct.Starts (fun _ : Unit => I.conduct) x := by
  cases q with
  | trigger id scope binding =>
    obtain ⟨routine, hr, rfl⟩ := Option.map_eq_some_iff.mp hx
    exact ⟨(), fun _ _ => hk.started hr _ _ _ _⟩
  | start routine binding =>
    cases hx
    exact ⟨(), fun id rate => ha routine binding rfl id binding rate⟩
  | _ => cases hx

/-- By induction on the requests. -/
theorem faultsIn_of_stands (os : List Occasion) (hk : ∀ o ∈ os, I.KeptIn o.surroundings)
    (ha : ∀ o ∈ os, Admits I o.request) (hs : l.StandsBy I) (h : Host) :
    l.FaultsIn I.allows h os := by
  have hrecorded {l : Ledger} (hs : l.StandsBy I) : ∀ x ∈ l.recorded, I.allows x.fault :=
    fun x hx => (hs.recorded x hx).elim fun _ h => h
  have hfailed {l : Ledger} (hs : l.StandsBy I) : ∀ q ∈ l.system.sequences, q.FailedWith I.allows :=
    fun q hq => (hs.system.sequences q hq).elim fun _ h => h.failedWith
  induction os generalizing l h with
  | nil => exact ⟨hrecorded hs, hfailed hs⟩
  | cons o os ih =>
    obtain ⟨hko, hk⟩ := List.forall_mem_cons.mp hk
    obtain ⟨hao, ha⟩ := List.forall_mem_cons.mp ha
    obtain ⟨hx, hlog⟩ := serve_stands (Invariant.admits []).toMild (fun _ => hko.conduct)
      (fun x hx => hao.starts hko hx) hs (o.meanwhile h)
    exact ⟨hrecorded hs, hfailed hs, fun n hn f hf => (hlog n hn).imp_right fun h => h f hf,
      ih hk ha hx _⟩

end Ledger
end EffectMachine
