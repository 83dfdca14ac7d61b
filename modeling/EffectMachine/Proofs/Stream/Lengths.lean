import EffectMachine.Proofs.Stream.Reading

namespace EffectMachine

namespace Reader

variable (r : Reader)

/-- Some bytes further on, with these notices. -/
def past (n : Nat) (log : Log) : Reader := ⟨r.data, r.pos + n, log⟩

@[simp] theorem rest_past (n : Nat) (log : Log) : (r.past n log).rest = r.rest.drop n := by
  rw [rest, rest, past, List.drop_drop]

@[simp] theorem past_past (m n : Nat) (log log' : Log) :
    (r.past m log).past n log' = r.past (m + n) log' := by
  rw [past, past, past, Nat.add_assoc]

theorem rest_past_of_append {bs rest : List UInt8} (h : r.rest = bs ++ rest) (log : Log) :
    (r.past bs.length log).rest = rest := by
  rw [rest_past, h, List.drop_left]

end Reader

namespace Decoder

variable {α β : Type} {d : Decoder α} {f : α → Decoder β} {x : α} {y : β} {bs cs : List UInt8}
  {m n : Nat} {r r' : Reader} {fault : Fault}

theorem run_bind_error (h : d r = .error fault r') : (d >>= f) r = .error fault r' := by
  change EStateM.bind d f r = _
  rw [EStateM.bind, h]

/-- What succeeds after something else succeeded there first. -/
theorem exists_of_bind (h : (d >>= f) r = .ok y r') :
    ∃ x s, d r = .ok x s ∧ f x s = .ok y r' := by
  cases hd : d r with
  | ok x s => exact ⟨x, s, rfl, by rwa [run_bind hd] at h⟩
  | error fault s =>
    rw [run_bind_error hd] at h
    cases h

def Fails (d : Decoder α) (r : Reader) : Prop := ∃ fault r', d r = .error fault r'

theorem Fails.bind (h : d.Fails r) : (d >>= f).Fails r := by
  obtain ⟨fault, r', h⟩ := h
  exact ⟨fault, r', run_bind_error h⟩

theorem Fails.after (h : d r = .ok x r') (hf : (f x).Fails r') : (d >>= f).Fails r := by
  rw [Fails, run_bind h]
  exact hf

theorem Fails.not_ok (h : d.Fails r) : d r ≠ .ok x r' := by
  obtain ⟨fault, r'', h⟩ := h
  rw [h]
  exact nofun

/-- Reads exactly these bytes and makes this of them, whatever follows. Something may be noted. -/
def Takes (d : Decoder α) (bytes : List UInt8) (x : α) : Prop :=
  ∀ r rest, r.rest = bytes ++ rest → ∃ log, d r = .ok x (r.past bytes.length log)

namespace Takes

theorem pure (x : α) : (Pure.pure x : Decoder α).Takes [] x := fun r _ _ => ⟨r.log, rfl⟩

/-- What takes some bytes and then some more takes them together. -/
theorem bind (hd : d.Takes bs x) (hf : (f x).Takes cs y) : (d >>= f).Takes (bs ++ cs) y := by
  intro r rest h
  rw [List.append_assoc] at h
  obtain ⟨log, hx⟩ := hd r _ h
  obtain ⟨log', hy⟩ := hf _ rest (r.rest_past_of_append h log)
  refine ⟨log', ?_⟩
  rw [run_bind hx, hy, r.past_past, List.length_append]

/-- A note takes no bytes. -/
theorem note (n : Notice) : (Decoder.note n).Takes [] () := fun r _ _ => ⟨n :: r.log, rfl⟩

theorem of_eq (h : d.Takes bs x) (he : bs = cs) : d.Takes cs x := he ▸ h

theorem map (h : d.Takes bs x) (g : α → β) :
    (d >>= fun a => Pure.pure (g a)).Takes bs (g x) :=
  (h.bind (.pure (g x))).of_eq (List.append_nil bs)

/-- On its own bytes alone, too. -/
theorem decode (h : d.Takes bs x) : (d.decode bs).1 = .ok x := by
  obtain ⟨log, hx⟩ := h (Reader.of bs) [] (List.append_nil bs).symm
  rw [Decoder.decode, hx]

end Takes

theorem Reads.takes (h : d.Reads bs x) : d.Takes bs x := fun r rest hr => ⟨r.log, h r rest hr⟩

/-- Takes so many bytes, whatever they are, and fails when fewer are left. -/
structure HasLength (d : Decoder α) (n : Nat) : Prop where
  takes : ∀ bytes, bytes.length = n → ∃ x, d.Takes bytes x
  short : ∀ r, r.rest.length < n → d.Fails r

namespace HasLength

theorem pure (x : α) : (Pure.pure x : Decoder α).HasLength 0 where
  takes bytes h := by
    rw [List.length_eq_zero_iff.mp h]
    exact ⟨x, .pure x⟩
  short r h := absurd h (Nat.not_lt_zero _)

/-- Fixed lengths add up. -/
theorem bind (hd : d.HasLength m) (hf : ∀ x, (f x).HasLength n) : (d >>= f).HasLength (m + n) where
  takes bytes h := by
    obtain ⟨x, hx⟩ := hd.takes (bytes.take m) (List.length_take_of_le (by omega))
    obtain ⟨y, hy⟩ := (hf x).takes (bytes.drop m) (by rw [List.length_drop]; omega)
    exact ⟨y, (hx.bind hy).of_eq (List.take_append_drop m bytes)⟩
  short r h := by
    by_cases hm : r.rest.length < m
    · exact (hd.short r hm).bind
    · have hlength : (r.rest.take m).length = m := List.length_take_of_le (by omega)
      obtain ⟨x, hx⟩ := hd.takes _ hlength
      obtain ⟨log, hx⟩ := hx r _ (List.take_append_drop m r.rest).symm
      apply Fails.after hx
      apply (hf x).short
      rw [r.rest_past, hlength, List.length_drop]
      omega

/-- What is made of the outcome takes no more bytes. -/
theorem map (hd : d.HasLength n) (g : α → β) : (d >>= fun a => Pure.pure (g a)).HasLength n :=
  hd.bind fun a => .pure (g a)

/-- A success has taken so many bytes. -/
theorem of_ok (hd : d.HasLength n) (h : d r = .ok x r') :
    n ≤ r.rest.length ∧ ∃ log, r' = r.past n log := by
  have hlong : n ≤ r.rest.length := by
    apply Nat.le_of_not_lt
    intro hshort
    exact (hd.short r hshort).not_ok h
  refine ⟨hlong, ?_⟩
  obtain ⟨y, hy⟩ := hd.takes _ (List.length_take_of_le hlong)
  obtain ⟨log, hy⟩ := hy r _ (List.take_append_drop n r.rest).symm
  rw [List.length_take_of_le hlong, h] at hy
  cases hy
  exact ⟨log, rfl⟩

end HasLength

theorem note_hasLength (n : Notice) : (note n).HasLength 0 where
  takes bytes h := by
    rw [List.length_eq_zero_iff.mp h]
    exact ⟨(), .note n⟩
  short r h := absurd h (Nat.not_lt_zero _)

theorem byte_hasLength : byte.HasLength 1 where
  takes
    | [b], _ => ⟨b, (byte_reads b).takes⟩
  short r h := by
    have hnil : r.rest = [] := List.length_eq_zero_iff.mp (by omega)
    rw [Fails, byte, hnil]
    exact ⟨_, _, rfl⟩

theorem half_hasLength : half.HasLength 2 where
  takes bytes h := by
    obtain ⟨a, bytes, rfl⟩ := List.exists_cons_of_length_eq_add_one h
    obtain ⟨b, rfl⟩ := List.length_eq_one_iff.mp (Nat.succ.inj h)
    refine ⟨Word.halfOfBytes a b, fun r rest hr => ?_⟩
    rw [half, hr]
    exact ⟨r.log, rfl⟩
  short r h := by
    have hone : r.rest.length = 0 ∨ r.rest.length = 1 := by omega
    obtain hnil | hone := hone
    · rw [Fails, half, List.length_eq_zero_iff.mp hnil]
      exact ⟨_, _, rfl⟩
    · obtain ⟨a, ha⟩ := List.length_eq_one_iff.mp hone
      rw [Fails, half, ha]
      exact ⟨_, _, rfl⟩

/-- Four bytes, however they are put together. -/
theorem four_hasLength (make : UInt8 → UInt8 → UInt8 → UInt8 → α) :
    HasLength (fun r => match r.rest with
      | a :: b :: c :: d :: _ => .ok (make a b c d) (r.advance 4)
      | _ => Decoder.short r 4) 4 where
  takes
    | [a, b, c, d], _ => ⟨make a b c d, fun r rest h => by
        dsimp only
        rw [h]
        exact ⟨r.log, rfl⟩⟩
  short r h := by
    unfold Fails
    match hr : r.rest, h with
    | [], _ => dsimp only; rw [hr]; exact ⟨_, _, rfl⟩
    | [_], _ => dsimp only; rw [hr]; exact ⟨_, _, rfl⟩
    | [_, _], _ => dsimp only; rw [hr]; exact ⟨_, _, rfl⟩
    | [_, _, _], _ => dsimp only; rw [hr]; exact ⟨_, _, rfl⟩

theorem word_hasLength : word.HasLength 4 := four_hasLength Word.ofBytes

theorem id_hasLength : Decoder.id.HasLength 4 := four_hasLength ResourceId.mk

theorem integer_hasLength : integer.HasLength 4 := word_hasLength.map UInt32.toInt32

theorem scalar_hasLength : scalar.HasLength 4 := word_hasLength.map Scalar.mk

theorem vec3_hasLength : vec3.HasLength 12 :=
  scalar_hasLength.bind fun _ => scalar_hasLength.bind fun _ => scalar_hasLength.map _

theorem packedColor_hasLength : packedColor.HasLength 4 := word_hasLength.map Color.ofPacked

theorem repeated_hasLength {one : Decoder α} (h : one.HasLength m) (n : Nat) :
    (repeated one n).HasLength (n * m) := by
  induction n with
  | zero =>
    rw [Nat.zero_mul]
    exact .pure []
  | succ n ih =>
    rw [Nat.succ_mul, Nat.add_comm (n * m)]
    exact h.bind fun x => ih.map (x :: ·)

end Decoder
end EffectMachine
