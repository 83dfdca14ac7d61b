import EffectMachine.Resource.Id
import Mathlib.Data.List.DropRight

namespace ByteArray

theorem toList_loop_eq (bs : ByteArray) (i : Nat) (acc : List UInt8) :
    toList.loop bs i acc = acc.reverse ++ bs.data.toList.drop i := by
  fun_induction toList.loop bs i acc with
  | case1 i acc h ih =>
    have hi : i < bs.data.toList.length := by simpa using h
    rw [ih, List.drop_eq_getElem_cons hi]
    simp [ByteArray.get!, h]
  | case2 i acc h =>
    rw [List.drop_eq_nil_of_le (by simpa using Nat.le_of_not_lt h)]
    simp

theorem toList_eq (bs : ByteArray) : bs.toList = bs.data.toList := toList_loop_eq bs 0 []

end ByteArray

namespace EffectMachine.ResourceId

/-- A space or a visible character of ASCII. -/
def IsPlain (c : Char) : Prop := 0x20 ≤ c.toNat ∧ c.toNat ≤ 0x7e

instance (c : Char) : Decidable (IsPlain c) := inferInstanceAs (Decidable (_ ∧ _))

def byte (c : Char) : UInt8 := c.val.toUInt8

def IsPlainByte (b : UInt8) : Prop := 0x20 ≤ b ∧ b ≤ 0x7e

instance (b : UInt8) : Decidable (IsPlainByte b) := inferInstanceAs (Decidable (_ ∧ _))

theorem toUTF8_of_plain {cs : List Char} (h : ∀ c ∈ cs, IsPlain c) :
    (String.ofList cs).toUTF8.toList = cs.map byte := by
  change (cs.flatMap String.utf8EncodeChar).toByteArray.toList = _
  rw [ByteArray.toList_eq, List.toList_data_toByteArray]
  induction cs with
  | nil => rfl
  | cons c cs ih =>
    obtain ⟨hc, hcs⟩ := List.forall_mem_cons.mp h
    have hsize : c.utf8Size = 1 :=
      Char.utf8Size_eq_one_iff.mpr (UInt32.le_iff_toNat_le.mpr (Nat.le_trans hc.2 (by decide)))
    rw [List.flatMap_cons, String.utf8EncodeChar_eq_singleton hsize, ih hcs]
    rfl

variable {b : UInt8} {c : Char} {cs : List Char} {bs : List UInt8} {id : ResourceId} {s : String}

theorem isPlainByte_iff : IsPlainByte b ↔ 0x20 ≤ b.toNat ∧ b.toNat ≤ 0x7e := by
  simp only [IsPlainByte, UInt8.le_iff_toNat_le]
  rfl

theorem toNat_letter (h : IsPlainByte b) : (letter b).toNat = b.toNat := by
  have hb := isPlainByte_iff.mp h
  have hl : letter b = Char.ofNat b.toNat := if_pos h
  rw [hl, Char.ofNat, dif_pos (.inl (by omega))]
  rfl

theorem letter_plain (b : UInt8) : IsPlain (letter b) := by
  by_cases h : IsPlainByte b
  · rw [IsPlain, toNat_letter h]
    exact isPlainByte_iff.mp h
  · have hl : letter b = '?' := if_neg h
    rw [hl]
    decide

theorem toNat_byte (h : IsPlain c) : (byte c).toNat = c.toNat := by
  rw [byte, UInt32.toNat_toUInt8]
  exact Nat.mod_eq_of_lt (Nat.lt_of_le_of_lt h.2 (by decide))

theorem byte_plain (h : IsPlain c) : IsPlainByte (byte c) := by
  rw [isPlainByte_iff, toNat_byte h]
  exact h

theorem letter_byte (h : IsPlain c) : letter (byte c) = c := by
  refine Char.toNat_inj.mp ?_
  rw [toNat_letter (byte_plain h), toNat_byte h]

/-- A check of each character, for texts that are given. -/
theorem plain_of_all (h : cs.all (fun c => decide (IsPlain c)) = true) : ∀ c ∈ cs, IsPlain c :=
  fun c hc => of_decide_eq_true (List.all_eq_true.mp h c hc)

section Brackets

/-- Text that does not open with a bracket or close with one. -/
structure Unbracketed (cs : List Char) : Prop where
  opened : cs.head? ≠ some '['
  closed : cs.getLast? ≠ some ']'

theorem dropWhile_unopened (h : cs.head? ≠ some '[') : cs.dropWhile (· = '[') = cs := by
  cases cs with
  | nil => rfl
  | cons c cs => exact List.dropWhile_cons_of_neg (by simpa using h)

theorem rdropWhile_unclosed (h : cs.getLast? ≠ some ']') : cs.rdropWhile (· = ']') = cs := by
  rw [List.rdropWhile_eq_self_iff]
  intro hn hl
  exact h (by rw [List.getLast?_eq_some_getLast hn, of_decide_eq_true hl])

/-- Brackets are all that is taken off. -/
theorem Unbracketed.unbracketed_eq (h : Unbracketed cs) : unbracketed cs = cs := by
  change (cs.dropWhile _).rdropWhile _ = cs
  rw [dropWhile_unopened h.opened, rdropWhile_unclosed h.closed]

theorem Unbracketed.unbracketed_bracketed (h : Unbracketed cs) (hn : cs ≠ []) :
    unbracketed ('[' :: (cs ++ [']'])) = cs := by
  have ho : (cs ++ [']']).head? ≠ some '[' := by
    rw [List.head?_append_of_ne_nil _ hn]
    exact h.opened
  change ((cs ++ [']']).dropWhile _).rdropWhile _ = cs
  rw [dropWhile_unopened ho, List.rdropWhile_concat, if_pos (decide_eq_true rfl),
    rdropWhile_unclosed h.closed]

theorem unbracketed_sublist (cs : List Char) : (unbracketed cs).Sublist cs :=
  (List.rdropWhile_prefix _ _).sublist.trans (List.dropWhile_sublist _)

/-- Once unbracketed, a text neither opens with a bracket nor closes with one. -/
theorem unbracketed_unbracketed (cs : List Char) : Unbracketed (unbracketed cs) := by
  constructor
  · intro h
    obtain ⟨rest, hrest⟩ := List.head?_eq_some_iff.mp h
    obtain ⟨tail, htail⟩ := List.rdropWhile_prefix (· = ']') (cs.dropWhile (· = '['))
    change unbracketed cs ++ tail = _ at htail
    have hd := List.head?_dropWhile_not (· = '[') cs
    rw [← htail, hrest] at hd
    cases hd
  · intro h
    have hn : unbracketed cs ≠ [] := by
      intro hn
      rw [hn] at h
      cases h
    rw [List.getLast?_eq_some_getLast hn] at h
    exact List.rdropWhile_last_not (· = ']') _ hn (decide_eq_true (Option.some.inj h))

end Brackets

/-- What plain text is read as. -/
theorem parse?_of_plain (h : ∀ c ∈ cs, IsPlain c) :
    parse? (String.ofList cs) =
      if (unbracketed cs).length = 0 ∨ 4 < (unbracketed cs).length then
        .error ("resource id must be 1-4 bytes, got '" ++ String.ofList cs ++ "'")
      else .ok (ofBytes ((unbracketed cs).map byte)) := by
  have hu : ∀ c ∈ unbracketed cs, IsPlain c :=
    fun c hc => h c ((unbracketed_sublist cs).mem hc)
  simp only [parse?, String.toList_ofList, toUTF8_of_plain hu, List.length_map]

structure Spells (cs : List Char) : Prop extends Unbracketed cs where
  nonempty : cs ≠ []
  fits : cs.length ≤ 4
  plain : ∀ c ∈ cs, IsPlain c

/-- Plain bytes that are not bracketed, and then zeros. -/
def Readable (id : ResourceId) : Prop := ∃ cs, Spells cs ∧ id = ofBytes (cs.map byte)

namespace Spells

/-- The bytes of a spelling are named by it. -/
theorem name_eq (h : Spells cs) : (ofBytes (cs.map byte)).name = String.ofList cs := by
  have hz : ∀ c ∈ cs, byte c ≠ 0 := by
    intro c hc hz
    have hb := byte_plain (h.plain c hc)
    rw [hz] at hb
    exact absurd hb (by decide)
  have hl : ∀ c ∈ cs, letter (byte c) = c := fun c hc => letter_byte (h.plain c hc)
  have hfits := h.fits
  refine congrArg String.ofList ?_
  match cs, hfits with
  | [], _ => rfl
  | [a], _ => simp_all [ofBytes, bytes]
  | [a, b], _ => simp_all [ofBytes, bytes]
  | [a, b, c], _ => simp_all [ofBytes, bytes]
  | [a, b, c, d], _ => simp_all [ofBytes, bytes]

theorem parse?_name (h : Spells cs) :
    parse? (String.ofList cs) = .ok (ofBytes (cs.map byte)) := by
  have hn := List.length_pos_iff.mpr h.nonempty
  have hf := h.fits
  rw [parse?_of_plain h.plain, h.unbracketed_eq, if_neg (by omega)]

theorem parse?_display (h : Spells cs) :
    parse? ("[" ++ String.ofList cs ++ "]") = .ok (ofBytes (cs.map byte)) := by
  have hn := List.length_pos_iff.mpr h.nonempty
  have hf := h.fits
  have hs : "[" ++ String.ofList cs ++ "]" = String.ofList ('[' :: (cs ++ [']'])) := by
    refine String.toList_inj.mp ?_
    simp
  have hp : ∀ c ∈ '[' :: (cs ++ [']']), IsPlain c := by
    simp only [List.forall_mem_cons, List.forall_mem_append]
    exact ⟨by decide, h.plain, by decide, List.forall_mem_nil _⟩
  rw [hs, parse?_of_plain hp, h.unbracketed_bracketed h.nonempty, if_neg (by omega)]

end Spells

/-- Both spellings of an id are read as the id itself. -/
structure ComesBack (id : ResourceId) : Prop where
  name : parse? id.name = .ok id
  display : parse? id.display = .ok id

theorem Readable.comesBack (h : id.Readable) : id.ComesBack := by
  obtain ⟨cs, hs, rfl⟩ := h
  constructor
  · rw [hs.name_eq, hs.parse?_name]
  · rw [display, hs.name_eq, hs.parse?_display]

/-- What is read from plain text has been spelt by it. -/
theorem readable_of_parse? (hs : ∀ c ∈ s.toList, IsPlain c) (h : parse? s = .ok id) :
    id.Readable := by
  obtain ⟨cs, rfl⟩ : ∃ cs, s = String.ofList cs := ⟨s.toList, String.ofList_toList.symm⟩
  rw [String.toList_ofList] at hs
  rw [parse?_of_plain hs] at h
  split at h
  · cases h
  · cases h
    refine ⟨unbracketed cs, ⟨unbracketed_unbracketed cs, ?_, ?_, ?_⟩, rfl⟩
    · intro hn
      simp_all
    · omega
    · exact fun c hc => hs c ((unbracketed_sublist cs).mem hc)

theorem mem_bytes_ofBytes (h : b ∈ (ofBytes bs).bytes) : b = 0 ∨ b ∈ bs := by
  unfold ofBytes at h
  split at h <;> simp only [bytes, none, List.mem_cons] at h ⊢ <;> grind

theorem Readable.bytes (h : id.Readable) : ∀ b ∈ id.bytes, b = 0 ∨ IsPlainByte b := by
  obtain ⟨cs, hs, rfl⟩ := h
  intro b hb
  refine (mem_bytes_ofBytes hb).imp_right fun hm => ?_
  obtain ⟨c, hc, rfl⟩ := List.mem_map.mp hm
  exact byte_plain (hs.plain c hc)

/-- Whatever is no plain byte is spelt with one. -/
theorem name_plain (id : ResourceId) : ∀ c ∈ id.name.toList, IsPlain c := by
  intro c hc
  rw [name, String.toList_ofList] at hc
  obtain ⟨b, _, rfl⟩ := List.mem_map.mp hc
  exact letter_plain b

theorem display_plain (id : ResourceId) : ∀ c ∈ id.display.toList, IsPlain c := by
  have hd : id.display.toList = '[' :: (id.name.toList ++ [']']) := by simp [display]
  rw [hd]
  simp only [List.forall_mem_cons, List.forall_mem_append]
  exact ⟨by decide, id.name_plain, by decide, List.forall_mem_nil _⟩

/-- An id of plain bytes that are not bracketed comes back from its name and from its display, and
so does every id that was read from plain text. No name is read as none. An id with any other byte
is spelt like a different one, if like any. -/
theorem plain_comesBack :
    (∀ id : ResourceId, id.Readable → id.ComesBack) ∧
      (∀ (s : String) (id : ResourceId), (∀ c ∈ s.toList, IsPlain c) → parse? s = .ok id →
        id.ComesBack) ∧
      (parse? none.name = .error "resource id must be 1-4 bytes, got ''" ∧
        parse? none.display = .error "resource id must be 1-4 bytes, got '[]'") ∧
      ∀ id : ResourceId, (∃ b ∈ id.bytes, b ≠ 0 ∧ ¬IsPlainByte b) →
        parse? id.name ≠ .ok id ∧ parse? id.display ≠ .ok id := by
  refine ⟨fun _ h => h.comesBack, fun s id hs h => (readable_of_parse? hs h).comesBack,
    ⟨?_, ?_⟩, ?_⟩
  · change parse? (String.ofList []) = _
    rw [parse?_of_plain (List.forall_mem_nil _)]
    rfl
  · change parse? (String.ofList ['[', ']']) = _
    rw [parse?_of_plain (plain_of_all (by decide))]
    rfl
  · intro id ⟨b, hb, hz, hp⟩
    have unreadable : ¬id.Readable := fun h => (h.bytes b hb).elim hz hp
    exact ⟨fun h => unreadable (readable_of_parse? id.name_plain h),
      fun h => unreadable (readable_of_parse? id.display_plain h)⟩

/-- Inner brackets are kept, in a short name with and without brackets around it. -/
theorem bracketInside_comesBack :
    ComesBack ⟨0x61, 0x5d, 0x62, 0⟩ ∧
      parse? (name ⟨0x61, 0xc3, 0xa9, 0⟩) ≠ .ok ⟨0x61, 0xc3, 0xa9, 0⟩ := by
  obtain ⟨readable, _, _, unreadable⟩ := plain_comesBack
  refine ⟨readable _ ⟨['a', ']', 'b'], ⟨⟨by decide, by decide⟩, by decide, by decide,
    plain_of_all (by decide)⟩, rfl⟩, (unreadable _ ⟨0xc3, ?_⟩).1⟩
  decide

/-- An accented letter is read as two bytes and spelt with two question marks; none is not read at
all. -/
theorem accented_not_comesBack :
    parse? "é" = .ok ⟨0xc3, 0xa9, 0, 0⟩ ∧
      parse? (name ⟨0xc3, 0xa9, 0, 0⟩) = .ok ⟨0x3f, 0x3f, 0, 0⟩ ∧
      parse? none.name = .error "resource id must be 1-4 bytes, got ''" := by
  refine ⟨?_, ?_, ?_⟩
  · simp only [parse?, ByteArray.toList_eq]
    rfl
  · change parse? (String.ofList ['?', '?']) = _
    rw [parse?_of_plain (plain_of_all (by decide))]
    rfl
  · change parse? (String.ofList []) = _
    rw [parse?_of_plain (List.forall_mem_nil _)]
    rfl

end EffectMachine.ResourceId
