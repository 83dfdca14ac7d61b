import EffectMachine.Proofs.Stream.Words
import EffectMachine.Stream.Reader

namespace EffectMachine

namespace Reader

variable (r : Reader)

theorem rest_advance (n : Nat) : (r.advance n).rest = r.rest.drop n := by
  rw [rest, rest, advance, List.drop_drop]

theorem advance_advance (m n : Nat) : (r.advance m).advance n = r.advance (m + n) := by
  rw [advance, advance, advance, Nat.add_assoc]

theorem remaining_eq : r.remaining = r.rest.length := by
  rw [remaining, rest, List.length_drop]

theorem atEnd_eq : r.atEnd = r.rest.isEmpty := by
  rw [atEnd, rest, Bool.eq_iff_iff, List.isEmpty_iff, List.drop_eq_nil_iff, decide_eq_true_iff]

/-- A place up to the end. -/
theorem seek_eq {n : Nat} (hn : 0 < n) (h : n ≤ r.rest.length) :
    r.seek (r.pos + n) = r.advance n := by
  rw [rest, List.length_drop] at h
  rw [seek, advance, Nat.min_eq_left (by omega)]

end Reader

namespace Decoder

variable {α β : Type} {d : Decoder α} {f : α → Decoder β} {x : α} {y : β} {bs cs : List UInt8}
  {r : Reader} {rest : List UInt8}

/-- Reads exactly these bytes, whatever follows them, and makes this of them. -/
def Reads (d : Decoder α) (bytes : List UInt8) (x : α) : Prop :=
  ∀ r rest, r.rest = bytes ++ rest → d r = .ok x (r.advance bytes.length)

theorem run_bind (h : d r = .ok x r') : (d >>= f) r = f x r' := by
  change EStateM.bind d f r = f x r'
  rw [EStateM.bind, h]

/-- What comes back has a property, whatever was read. -/
def Always (d : Decoder α) (P : α → Prop) : Prop := ∀ r x r', d r = .ok x r' → P x

theorem Always.pure {P : α → Prop} (hx : P x) : (Pure.pure x : Decoder α).Always P := by
  intro r y r' h
  cases h
  exact hx

/-- Nothing has to be known of what comes first. -/
theorem Always.after {P : β → Prop} (d : Decoder α) (hf : ∀ x, (f x).Always P) :
    (d >>= f).Always P := by
  intro r y r' h
  change EStateM.bind d f r = _ at h
  rw [EStateM.bind] at h
  split at h
  next x s _ => exact hf x s y r' h
  next => cases h

theorem rest_of_reads (h : r.rest = bs ++ rest) : (r.advance bs.length).rest = rest := by
  rw [r.rest_advance, h, List.drop_left]

theorem position_eq (r : Reader) : position r = .ok r.pos r := rfl

theorem remaining_of_reads (h : r.rest = bs ++ rest) :
    remaining (r.advance bs.length) = .ok rest.length (r.advance bs.length) := by
  rw [remaining, Reader.remaining_eq, rest_of_reads h]

theorem atEnd_of_rest (hne : bs ≠ []) (h : r.rest = bs ++ rest) : atEnd r = .ok false r := by
  have hrest := List.append_ne_nil_of_left_ne_nil hne rest
  rw [atEnd, r.atEnd_eq, h, List.isEmpty_eq_false_iff.mpr hrest]

namespace Reads

theorem pure (x : α) : (Pure.pure x : Decoder α).Reads [] x := fun _ _ _ => rfl

theorem bind (hd : d.Reads bs x) (hf : (f x).Reads cs y) : (d >>= f).Reads (bs ++ cs) y := by
  intro r rest h
  rw [List.append_assoc] at h
  rw [run_bind (hd r _ h), hf _ rest (rest_of_reads h), r.advance_advance, List.length_append]

theorem of_eq (h : d.Reads bs x) (he : bs = cs) : d.Reads cs x := he ▸ h

/-- What is made of the outcome takes no more bytes. -/
theorem map (h : d.Reads bs x) (g : α → β) :
    (d >>= fun a => Pure.pure (g a)).Reads bs (g x) :=
  (h.bind (.pure (g x))).of_eq (List.append_nil bs)

theorem map_eq (h : d.Reads bs x) {g : α → β} (hg : g x = y) :
    (d >>= fun a => Pure.pure (g a)).Reads bs y := hg ▸ h.map g

/-- One word, then the rest of them. -/
theorem word {w : UInt32} {ws : List UInt32} (hd : d.Reads (Word.bytes w) x)
    (hf : (f x).Reads (Word.allBytes ws) y) : (d >>= f).Reads (Word.allBytes (w :: ws)) y :=
  hd.bind hf

/-- Some words, then the rest of them. -/
theorem words {vs ws : List UInt32} (hd : d.Reads (Word.allBytes vs) x)
    (hf : (f x).Reads (Word.allBytes ws) y) : (d >>= f).Reads (Word.allBytes (vs ++ ws)) y :=
  (hd.bind hf).of_eq (Word.allBytes_append vs ws).symm

theorem last {w : UInt32} (h : d.Reads (Word.bytes w) x) : d.Reads (Word.allBytes [w]) x :=
  h.of_eq (List.append_nil _).symm

theorem done (x : α) : (Pure.pure x : Decoder α).Reads (Word.allBytes []) x := .pure x

end Reads

theorem byte_reads (b : UInt8) : byte.Reads [b] b := by
  intro r rest h
  rw [byte, h]
  rfl

theorem half_reads (w : UInt16) : half.Reads (Word.halfBytes w) w := by
  intro r rest h
  rw [half, h]
  change EStateM.Result.ok _ _ = EStateM.Result.ok _ _
  rw [Word.halfOfBytes_bytes]
  rfl

theorem word_reads (w : UInt32) : word.Reads (Word.bytes w) w := by
  intro r rest h
  rw [word, h]
  change EStateM.Result.ok _ _ = EStateM.Result.ok _ _
  rw [Word.ofBytes_bytes]
  rfl

theorem id_reads (id : ResourceId) : Decoder.id.Reads (Word.bytes id.toWord) id := by
  intro r rest h
  rw [Word.bytes_toWord] at h
  rw [Decoder.id, h]
  rfl

theorem integer_reads (v : Int32) : integer.Reads (Word.bytes v.toUInt32) v := by
  have h := (word_reads v.toUInt32).map UInt32.toInt32
  rw [Int32.toInt32_toUInt32] at h
  exact h

theorem scalar_reads (s : Scalar) : scalar.Reads (Word.bytes s.bits) s :=
  (word_reads s.bits).map Scalar.mk

theorem vec3_reads (v : Vec3) : vec3.Reads (Word.allBytes v.words) v :=
  .word (scalar_reads v.x) (.word (scalar_reads v.y) (.word (scalar_reads v.z) (.done v)))

theorem repeated_reads {one : Decoder α} {enc : α → List UInt8} (xs : List α)
    (h : ∀ x, one.Reads (enc x) x) : (repeated one xs.length).Reads (xs.flatMap enc) xs := by
  induction xs with
  | nil => exact .pure []
  | cons x xs ih => exact (h x).bind (ih.map (x :: ·))

theorem exists_of_decode {data : List UInt8} {log : Log} (h : d.decode data = (.ok x, log)) :
    ∃ r, d (Reader.of data) = .ok x r := by
  rw [Decoder.decode] at h
  split at h
  next y r hy =>
    cases h
    exact ⟨r, hy⟩
  next => cases h

/-- A decoder that reads a whole stream. -/
theorem Reads.decode (h : d.Reads bs x) : d.decode bs = (.ok x, []) := by
  have hx := h (Reader.of bs) [] (List.append_nil bs).symm
  rw [Decoder.decode, hx]
  rfl

end Decoder
end EffectMachine
