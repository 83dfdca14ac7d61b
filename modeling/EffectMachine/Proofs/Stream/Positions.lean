import EffectMachine.Proofs.Stream.Lengths

namespace EffectMachine

theorem Reader.remaining_advance (r : Reader) (k : Nat) :
    (r.advance k).remaining = r.remaining - k := by
  rw [remaining, remaining, advance, Nat.sub_sub]

namespace Decoder

variable {α β : Type} {d : Decoder α} {f : α → Decoder β} {u m n : Nat}

/-- Takes so many units of so many bytes, or those that are left, and then finds the end. -/
structure TakesUnits (d : Decoder α) (u n : Nat) : Prop where
  pos : 0 < u
  full : ∀ r : Reader, u * n ≤ r.remaining → ∃ x, d r = .ok x (r.advance (u * n))
  short : ∀ r : Reader, r.remaining < u * n →
    d r = Decoder.short (r.advance (u * (r.remaining / u))) u

namespace TakesUnits

theorem pure (hu : 0 < u) (x : α) : (Pure.pure x : Decoder α).TakesUnits u 0 where
  pos := hu
  full _ _ := ⟨x, rfl⟩
  short _ h := absurd h (Nat.not_lt_zero _)

/-- What is read later takes up the units where the first read has left off. -/
theorem bind (hd : d.TakesUnits u m) (hf : ∀ x, (f x).TakesUnits u n) :
    (d >>= f).TakesUnits u (m + n) where
  pos := hd.pos
  full r h := by
    rw [Nat.mul_add] at h ⊢
    obtain ⟨x, hx⟩ := hd.full r (by omega)
    obtain ⟨y, hy⟩ := (hf x).full (r.advance (u * m)) (by rw [r.remaining_advance]; omega)
    exact ⟨y, by rw [run_bind hx, hy, r.advance_advance]⟩
  short r h := by
    rw [Nat.mul_add] at h
    by_cases hm : r.remaining < u * m
    · exact run_bind_error (hd.short r hm)
    · have hle : u * m ≤ r.remaining := Nat.le_of_not_lt hm
      obtain ⟨x, hx⟩ := hd.full r hle
      have hs := (hf x).short (r.advance (u * m)) (by rw [r.remaining_advance]; omega)
      have hunits : u * m + u * ((r.remaining - u * m) / u) = u * (r.remaining / u) := by
        rw [Nat.sub_mul_div, ← Nat.mul_add, Nat.add_sub_cancel']
        exact (Nat.le_div_iff_mul_le hd.pos).mpr (by rwa [Nat.mul_comm])
      rw [run_bind hx, hs, r.advance_advance, r.remaining_advance, hunits]

theorem map (hd : d.TakesUnits u n) (g : α → β) :
    (d >>= fun a => Pure.pure (g a)).TakesUnits u n :=
  hd.bind fun a => .pure hd.pos (g a)

end TakesUnits

/-- A single read takes one unit or fails where it stands. -/
theorem takesUnits_of_one (hu : 0 < u)
    (full : ∀ r : Reader, u ≤ r.rest.length → ∃ x, d r = .ok x (r.advance u))
    (short : ∀ r : Reader, r.rest.length < u → d r = Decoder.short r u) : d.TakesUnits u 1 where
  pos := hu
  full r h := by
    rw [Nat.mul_one] at h ⊢
    exact full r (r.remaining_eq ▸ h)
  short r h := by
    rw [Nat.mul_one] at h
    rw [short r (r.remaining_eq ▸ h), Nat.div_eq_of_lt h]
    rfl

theorem byte_takesUnits : byte.TakesUnits 1 1 := by
  refine takesUnits_of_one (by decide) (fun r h => ?_) fun r h => ?_
  · obtain ⟨a, rest, hr⟩ := List.exists_cons_of_length_pos h
    exact ⟨a, by rw [byte, hr]⟩
  · rw [byte, List.length_eq_zero_iff.mp (Nat.lt_one_iff.mp h)]

theorem half_takesUnits : half.TakesUnits 2 1 := by
  refine takesUnits_of_one (by decide) (fun r h => ?_) fun r h => ?_
  · obtain ⟨a, tail, hr⟩ := List.exists_cons_of_length_pos (Nat.lt_of_succ_lt h)
    rw [hr, List.length_cons] at h
    obtain ⟨b, rest, rfl⟩ := List.exists_cons_of_length_pos (Nat.lt_of_succ_lt_succ h)
    exact ⟨Word.halfOfBytes a b, by rw [half, hr]⟩
  · cases hr : r.rest with
    | nil => rw [half, hr]
    | cons a rest =>
      obtain rfl : rest = [] := by
        rw [hr, List.length_cons] at h
        exact List.length_eq_zero_iff.mp (by omega)
      rw [half, hr]

/-- Four bytes, however they are put together. -/
theorem four_takesUnits (make : UInt8 → UInt8 → UInt8 → UInt8 → α) :
    TakesUnits (fun r => match r.rest with
      | a :: b :: c :: d :: _ => .ok (make a b c d) (r.advance 4)
      | _ => Decoder.short r 4) 4 1 := by
  refine takesUnits_of_one (by decide) (fun r h => ?_) fun r h => ?_
  · match hr : r.rest, h with
    | a :: b :: c :: d :: rest, _ => exact ⟨make a b c d, rfl⟩
  · match hr : r.rest, h with
    | [], _ | [_], _ | [_, _], _ | [_, _, _], _ => rfl

theorem word_takesUnits : word.TakesUnits 4 1 := four_takesUnits Word.ofBytes

theorem id_takesUnits : Decoder.id.TakesUnits 4 1 := four_takesUnits ResourceId.mk

theorem scalar_takesUnits : scalar.TakesUnits 4 1 := word_takesUnits.map Scalar.mk

theorem vec3_takesUnits : vec3.TakesUnits 4 3 :=
  scalar_takesUnits.bind fun _ => scalar_takesUnits.bind fun _ => scalar_takesUnits.map _

/-- By induction on the count. -/
theorem repeated_takesUnits (hd : d.TakesUnits u 1) (n : Nat) :
    (repeated d n).TakesUnits u n := by
  induction n with
  | zero => exact .pure hd.pos []
  | succ n ih =>
    have h := hd.bind fun x => ih.map (x :: ·)
    rwa [Nat.add_comm] at h

end Decoder

inductive Read where
  | byte
  | half
  | word
  | integer
  | scalar
  | vec3
  | id
  | color
  | words (count : Nat)

namespace Read

abbrev Value : Read → Type
  | byte => UInt8
  | half => UInt16
  | word => UInt32
  | integer => Int32
  | scalar => Scalar
  | vec3 => Vec3
  | id => ResourceId
  | color => Color
  | words _ => List UInt32

def decoder : (x : Read) → Decoder x.Value
  | byte => Decoder.byte
  | half => Decoder.half
  | word => Decoder.word
  | integer => Decoder.integer
  | scalar => Decoder.scalar
  | vec3 => Decoder.vec3
  | id => Decoder.id
  | color => Decoder.packedColor
  | words n => Decoder.words n

def unit : Read → Nat
  | byte => 1
  | half => 2
  | _ => 4

def count : Read → Nat
  | vec3 => 3
  | words n => n
  | _ => 1

def size (x : Read) : Nat := x.unit * x.count

theorem takesUnits (x : Read) : x.decoder.TakesUnits x.unit x.count := by
  cases x with
  | byte => exact Decoder.byte_takesUnits
  | half => exact Decoder.half_takesUnits
  | word => exact Decoder.word_takesUnits
  | integer => exact Decoder.word_takesUnits.map _
  | scalar => exact Decoder.scalar_takesUnits
  | vec3 => exact Decoder.vec3_takesUnits
  | id => exact Decoder.id_takesUnits
  | color => exact Decoder.word_takesUnits.map _
  | words n => exact Decoder.repeated_takesUnits Decoder.word_takesUnits n

/-- Succeeds and moves by its size, or finds the end and stays where it is. -/
def IsAtomic (x : Read) (r : Reader) : Prop :=
  (∃ v, x.decoder r = .ok v (r.advance x.size)) ∨
    ∃ offset wanted, x.decoder r = .error (.unexpectedEnd offset wanted) r

end Read

inductive Move where
  | read (x : Read)
  | seek (offset : Nat)

namespace Reader

/-- Where a move leaves the reader, whether or not it fails. -/
def moved (r : Reader) : Move → Reader
  | .read x =>
    match x.decoder r with
    | .ok _ r' => r'
    | .error _ r' => r'
  | .seek offset => r.seek offset

def after (r : Reader) (ms : List Move) : Reader := ms.foldl moved r

variable {r : Reader} {x : Read}

/-- What a read does: it takes what it needs, or the units that are left. -/
structure Outcome (x : Read) (r : Reader) : Prop where
  full : x.size ≤ r.remaining → ∃ v, x.decoder r = .ok v (r.advance x.size)
  short : r.remaining < x.size → x.decoder r =
    .error (.unexpectedEnd (r.pos + x.unit * (r.remaining / x.unit)) x.unit)
      (r.advance (x.unit * (r.remaining / x.unit)))

theorem outcome (x : Read) (r : Reader) : r.Outcome x :=
  ⟨x.takesUnits.full r, x.takesUnits.short r⟩

/-- A read that fails stays only if not even the first unit is there. -/
theorem isAtomic_iff : x.IsAtomic r ↔ x.size ≤ r.remaining ∨ r.remaining < x.unit := by
  have hu := x.takesUnits.pos
  by_cases hle : x.size ≤ r.remaining
  · exact iff_of_true (.inl (r.outcome x |>.full hle)) (.inl hle)
  · have hs := (r.outcome x).short (Nat.lt_of_not_le hle)
    rw [or_iff_right hle, Read.IsAtomic, hs]
    constructor
    · rintro (⟨v, hv⟩ | ⟨offset, wanted, he⟩)
      · cases hv
      · have hpos : r.pos + x.unit * (r.remaining / x.unit) = r.pos :=
          congrArg pos (EStateM.Result.error.inj he).2
        refine Nat.lt_of_not_le fun hun => ?_
        have hone : 0 < x.unit * (r.remaining / x.unit) :=
          Nat.mul_pos hu (Nat.div_pos hun hu)
        omega
    · intro hlt
      rw [Nat.div_eq_of_lt hlt]
      exact .inr ⟨_, _, rfl⟩

/-- A move goes no further than the end. -/
theorem moved_within (m : Move) (h : r.pos ≤ r.data.length) :
    (r.moved m).data = r.data ∧ (r.moved m).pos ≤ r.data.length := by
  cases m with
  | seek offset => exact ⟨rfl, Nat.min_le_right _ _⟩
  | read x =>
    have within {k : Nat} (hk : k ≤ r.remaining) : r.pos + k ≤ r.data.length := by
      rw [remaining] at hk
      omega
    rw [moved]
    by_cases hle : x.size ≤ r.remaining
    · obtain ⟨v, hv⟩ := (r.outcome x).full hle
      rw [hv]
      exact ⟨rfl, within hle⟩
    · rw [(r.outcome x).short (Nat.lt_of_not_le hle)]
      exact ⟨rfl, within (Nat.mul_div_le _ _)⟩

/-- By induction on the moves. -/
theorem after_within (ms : List Move) (h : r.pos ≤ r.data.length) :
    (r.after ms).data = r.data ∧ (r.after ms).pos ≤ r.data.length := by
  induction ms generalizing r with
  | nil => exact ⟨rfl, h⟩
  | cons m ms ih =>
    obtain ⟨hd, hp⟩ := moved_within m h
    obtain ⟨hd', hp'⟩ := ih (r := r.moved m) (by rwa [hd])
    exact ⟨hd'.trans hd, hd ▸ hp'⟩

/-- Wherever reads and seeks have left a reader, it has not gone past the end. From there a read
succeeds and moves by its size if there is enough left. If not, it finds the end after the units
that are there, and that is where it stays; so it has moved unless there was not even one. -/
theorem reads_atomic_iff (data : List UInt8) (ms : List Move) :
    let r := (Reader.of data).after ms
    r.data = data ∧ r.pos ≤ data.length ∧
      ∀ x : Read, r.Outcome x ∧ (x.IsAtomic r ↔ x.size ≤ r.remaining ∨ r.remaining < x.unit) := by
  intro r
  obtain ⟨hd, hp⟩ := after_within (r := Reader.of data) ms (Nat.zero_le _)
  exact ⟨hd, hp, fun x => ⟨r.outcome x, isAtomic_iff⟩⟩

/-- Three numbers where there is room for one: the first is read, and the reader stays behind it. -/
theorem cutVector_not_atomic :
    ¬Read.vec3.IsAtomic (Reader.of [0, 0, 0, 0]) ∧
      ((Reader.of [0, 0, 0, 0]).moved (.read .vec3)).pos = 4 := by
  refine ⟨?_, rfl⟩
  rintro (⟨v, hv⟩ | ⟨offset, wanted, he⟩)
  · cases hv
  · cases congrArg pos (EStateM.Result.error.inj he).2

end Reader
end EffectMachine
