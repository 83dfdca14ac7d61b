import EffectMachine.Proofs.Generator.Operations

namespace EffectMachine

open Decoder OpcodeTable

@[simp] theorem Attachment.ofCode?_code (attach : Attachment) :
    ofCode? attach.code = some attach := by
  cases attach <;> rfl

/-- Checked code by code. -/
theorem Attachment.exists_code_fin : ∀ n : Fin 9, ∃ attach : Attachment, attach.code.toNat = n := by
  intro n
  exact ⟨all[n], by decide +revert⟩

theorem Attachment.exists_code {code : UInt8} (h : code ≤ 8) :
    ∃ attach : Attachment, attach.code = code := by
  have hn : code.toNat < 9 := Nat.lt_succ_of_le h
  obtain ⟨attach, ha⟩ := exists_code_fin ⟨code.toNat, hn⟩
  exact ⟨attach, UInt8.toNat_inj.mp ha⟩

@[simp] theorem GeneratorFlags.ofBits_bits (flags : GeneratorFlags) :
    ofBits flags.bits = flags := by
  obtain ⟨continuousSingleton, autoRun, batched, worldSpace⟩ := flags
  cases continuousSingleton <;> cases autoRun <;> cases batched <;> cases worldSpace <;> rfl

/-- Checked pattern by pattern. -/
theorem GeneratorFlags.bits_ofBits_fin :
    ∀ n : Fin 16, (ofBits (UInt8.ofNat n)).bits = UInt8.ofNat n := by
  decide

theorem GeneratorFlags.bits_ofBits {bits : UInt8} (h : bits < 16) : (ofBits bits).bits = bits := by
  have hb := bits_ofBits_fin ⟨bits.toNat, h⟩
  rwa [UInt8.ofNat_toNat] at hb

namespace Generator

variable {id : ResourceId} {origin : ResourcePath}

theorem attachment_reads (attach : Attachment) :
    (attachment id attach.code).Reads [] attach := by
  rw [attachment, attach.ofCode?_code]
  exact .pure _

def ofHeader (id : ResourceId) (origin : ResourcePath) (g : Generator) : Generator :=
  { g with
    id, origin, generatorUpdaters := [], initializers := [], updaters := [], expiration := [] }

/-- The eight words of a header are read back, and leave the sections empty. -/
theorem readHeader_reads (id : ResourceId) (origin : ResourcePath) (g : Generator) :
    (readHeader id origin).Reads (Word.allBytes g.header) (ofHeader id origin g) := by
  have hbytes : Word.allBytes g.header =
      [g.attach.code] ++ ([] ++ ([g.sourceJoint] ++ ([g.targetJoint] ++ ([g.flags.bits] ++
        (Word.halfBytes g.interval ++ (Word.halfBytes g.intervalVariance ++
        (Word.halfBytes g.perEmission ++ (Word.halfBytes g.batchSlots ++
        (Word.halfBytes g.maxAge ++ (Word.halfBytes g.maxAgeVariance ++
        (Word.bytes g.provider.toWord ++ (Word.bytes g.zoneLink.toWord ++
        (Word.bytes g.baseScale.bits ++ (Word.bytes 0 ++ [])))))))))))))) := by
    simp only [Word.allBytes, header, List.flatMap_cons, List.flatMap_nil, Word.bytes_ofBytes,
      Word.bytes_ofHalves, List.append_assoc, List.cons_append, List.nil_append]
  have hflags : ofHeader id origin g =
      ⟨id, origin, g.attach, g.sourceJoint, g.targetJoint, GeneratorFlags.ofBits g.flags.bits,
        g.interval, g.intervalVariance, g.perEmission, g.batchSlots, g.maxAge, g.maxAgeVariance,
        g.provider, g.zoneLink, g.baseScale, [], [], [], []⟩ := by
    rw [g.flags.ofBits_bits]
    rfl
  rw [hbytes, hflags]
  exact .bind (byte_reads _) (.bind (attachment_reads _) (.bind (byte_reads _)
    (.bind (byte_reads _) (.bind (byte_reads _) (.bind (half_reads _) (.bind (half_reads _)
    (.bind (half_reads _) (.bind (half_reads _) (.bind (half_reads _) (.bind (half_reads _)
    (.bind (id_reads _) (.bind (id_reads _) (.bind (scalar_reads _)
    (.bind (word_reads _) (.pure _)))))))))))))))

/-- What the words of a generator can tell: slot offsets fit their field, a colour is a packed
one. -/
structure IsCanonical (g : Generator) : Prop where
  initializers : ∀ i ∈ g.initializers, i.offset ≤ Header.maxPackedOffset ∧ i.op.IsCanonical
  updaters : ∀ i ∈ g.updaters, i.offset ≤ Header.maxPackedOffset
  expiration : ∀ i ∈ g.expiration, i.offset ≤ Header.maxPackedOffset

/-- The section of a generator's own updaters is read back up to its end. -/
theorem updaters_read (us : List GeneratorUpdater) :
    (generatorTable.decoder .particle).Reads
      (us.flatMap GeneratorUpdater.write ++ Writer.sectionEnd .particle)
      (us.map fun u => (Header.ofArgs u.opcode 0 u.args, u), .terminated) := by
  have hitems : ∀ i ∈ us.map fun u => (Header.ofArgs u.opcode 0 u.args, u),
      (generatorTable.step .particle).Reads i.2.write (.item i.1 i.2) := by
    intro i hi
    obtain ⟨u, _, rfl⟩ := List.mem_map.mp hi
    obtain ⟨parse, hparse, hreads⟩ := u.parser_reads
    have htable : generatorTable.parser? u.opcode = some fun _ => parse := by
      change Option.map _ (GeneratorUpdater.parser? u.opcode) = _
      rw [hparse]
      rfl
    exact step_particle rfl u.length_args_le (by decide) htable (fun _ => hreads) rfl
  have hreads := decoder_reads hitems (fun _ _ => List.cons_ne_nil _ _) step_sectionEnd
  rwa [List.flatMap_map] at hreads

/-- A section of one family, filled with operations of that family. -/
theorem familySection_reads {α : Type} {family : ParticleFamily} (wrap : α → ParticleOperation)
    {pick : ParticleOperation → Option α} (hpick : ∀ a, pick (wrap a) = some a)
    (hfamily : ∀ a, (wrap a).family = family) {is : List (Slotted α)}
    (hoffset : ∀ i ∈ is, i.offset ≤ Header.maxPackedOffset)
    (hcanonical : ∀ i ∈ is, (wrap i.op).IsCanonical) :
    (familySection id family pick).Reads
      (is.flatMap (fun i => ParticleOperation.write i.offset (wrap i.op)) ++
        Writer.sectionEnd .particle)
      (is, .terminated) := by
  let enter (i : Slotted α) : Header × ParticleOperation :=
    (Header.ofArgs (wrap i.op).opcode i.offset (wrap i.op).args, wrap i.op)
  have hitems : ∀ x ∈ is.map enter, ((sectionTable id family).step .particle).Reads
      (ParticleOperation.write x.1.offset x.2) (.item x.1 x.2) := by
    intro x hx
    obtain ⟨i, hi, rfl⟩ := List.mem_map.mp hx
    obtain ⟨parse, hparse, hreads⟩ := (wrap i.op).parser_reads (hcanonical i hi)
    exact step_particle rfl (wrap i.op).length_args_le (hoffset i hi) hparse hreads
      (if_pos (hfamily i.op))
  have hreads := decoder_reads hitems (fun _ _ => List.cons_ne_nil _ _) step_sectionEnd
  rw [List.flatMap_map] at hreads
  have hentered : (is.map enter).filterMap (fun x => (pick x.2).map (⟨x.1.offset, ·⟩)) = is := by
    rw [List.filterMap_map]
    refine (List.filterMap_congr fun i _ => ?_).trans (List.filterMap_some ..)
    change (pick (wrap i.op)).map _ = _
    rw [hpick]
    rfl
  refine (hreads.map_eq ?_)
  dsimp only
  rw [hentered]

def readSections (id : ResourceId) (header : Generator) : Decoder Generator := do
  let (items, how) ← generatorTable.decoder .particle
  let g := { header with generatorUpdaters := items.map Prod.snd }
  if how = .exhausted then return g
  let (initializers, how) ← readInitializers id
  let g := { g with initializers }
  if how = .exhausted then return g
  let (updaters, how) ← readUpdaters id
  let g := { g with updaters }
  if how = .exhausted then return g
  let (expiration, _) ← readExpiration id
  return { g with expiration }

theorem readSections_reads {g : Generator} (hg : g.IsCanonical) :
    (readSections id (ofHeader id origin g)).Reads
      ((g.generatorUpdaters.flatMap GeneratorUpdater.write ++ Writer.sectionEnd .particle) ++
      ((g.initializers.flatMap (fun i => ParticleOperation.write i.offset (.birth i.op)) ++
        Writer.sectionEnd .particle) ++
      ((g.updaters.flatMap (fun i => ParticleOperation.write i.offset (.update i.op)) ++
        Writer.sectionEnd .particle) ++
      (g.expiration.flatMap (fun i => ParticleOperation.write i.offset (.expire i.op)) ++
        Writer.sectionEnd .particle))))
      { g with id, origin } := by
  have hlater : SectionEnd.terminated ≠ .exhausted := by decide
  refine .bind (updaters_read g.generatorUpdaters) ?_
  dsimp only
  rw [if_neg hlater]
  refine .bind (familySection_reads .birth (fun _ => rfl) (fun _ => rfl)
    (fun i hi => (hg.initializers i hi).1) fun i hi => (hg.initializers i hi).2) ?_
  dsimp only
  rw [if_neg hlater]
  refine .bind (familySection_reads .update (fun _ => rfl) (fun _ => rfl) hg.updaters
    fun _ _ => trivial) ?_
  dsimp only
  rw [if_neg hlater]
  refine (familySection_reads .expire (fun _ => rfl) (fun _ => rfl) hg.expiration
    fun _ _ => trivial).map_eq ?_
  have hitems :
      (g.generatorUpdaters.map fun u => (Header.ofArgs u.opcode 0 u.args, u)).map Prod.snd =
        g.generatorUpdaters := by
    rw [List.map_map]
    exact List.map_id _
  dsimp only
  rw [hitems]
  rfl

variable {r : Reader}

theorem decoder_of_long (h : 4 * headerWords ≤ r.rest.length) :
    decoder id origin r = (readHeader id origin >>= readSections id) r := by
  have hfound : ¬r.remaining < headerWords * 4 := by
    rw [r.remaining_eq]
    omega
  rw [decoder, run_bind (show remaining r = .ok r.remaining r from rfl)]
  dsimp only
  rw [if_neg hfound]
  rfl

theorem length_header (g : Generator) : (Word.allBytes g.header).length = 4 * headerWords :=
  Word.length_allBytes _

theorem decode_written {g : Generator} (hg : g.IsCanonical) :
    decode id origin g.write = (.ok { g with id, origin }, []) := by
  have hwrite : (readHeader id origin >>= readSections id).Reads g.write { g with id, origin } := by
    have hreads := (readHeader_reads id origin g).bind (readSections_reads hg)
    refine hreads.of_eq ?_
    simp only [write, List.append_assoc]
  have hlong : 4 * headerWords ≤ (Reader.of g.write).rest.length := by
    change _ ≤ g.write.length
    rw [write]
    simp only [List.length_append, g.length_header]
    omega
  rw [decode, Decoder.decode, decoder_of_long hlong]
  exact hwrite.decode

/-- Says the header of a stream nothing that a generator cannot hold? Its attachment has a meaning,
no other flags are set than the four, and its last word is zero. -/
structure HasPlainHeader (data : List UInt8) : Prop where
  attachment : ∀ code, data[0]? = some code → code ≤ 8
  flags : ∀ bits, data[3]? = some bits → bits < 16
  last : (data.drop 28).take 4 = Word.bytes 0

/-- Eight words that a generator can hold are the header of one. -/
theorem exists_header {data : List UInt8} (hlong : 4 * headerWords ≤ data.length)
    (h : HasPlainHeader data) :
    ∃ g : Generator, Word.allBytes g.header = data.take (4 * headerWords) := by
  obtain ⟨ws, hlength, hws⟩ := Word.exists_allBytes (List.length_take_of_le hlong)
  match ws, hlength with
  | [w0, w1, w2, w3, w4, w5, w6, w7], _ =>
    have hdata : data = Word.allBytes [w0, w1, w2, w3, w4, w5, w6, w7] ++
        data.drop (4 * headerWords) := by
      rw [hws, List.take_append_drop]
    obtain ⟨hattach, hflags, hlast⟩ := h
    rw [hdata] at hattach hflags hlast
    obtain ⟨attach, hattach⟩ := Attachment.exists_code (hattach w0.toUInt8 rfl)
    have hflags := GeneratorFlags.bits_ofBits (hflags (w0 >>> 24).toUInt8 rfl)
    have hlast : w7 = 0 := Word.bytes_inj.mp hlast
    refine ⟨{
      id := ResourceId.none
      origin := ResourcePath.root
      attach
      sourceJoint := (w0 >>> 8).toUInt8
      targetJoint := (w0 >>> 16).toUInt8
      flags := GeneratorFlags.ofBits (w0 >>> 24).toUInt8
      interval := w1.toUInt16
      intervalVariance := (w1 >>> 16).toUInt16
      perEmission := w2.toUInt16
      batchSlots := (w2 >>> 16).toUInt16
      maxAge := w3.toUInt16
      maxAgeVariance := (w3 >>> 16).toUInt16
      provider := ResourceId.ofWord w4
      zoneLink := ResourceId.ofWord w5
      baseScale := ⟨w6⟩
      generatorUpdaters := []
      initializers := []
      updaters := []
      expiration := [] }, ?_⟩
    rw [← hws, header, hattach, hflags, hlast]
    simp only [Word.ofBytes_bytes, Word.ofHalves_halves, Word.toWord_ofWord]

/-- No section changes what the header says. -/
theorem readSections_header (g : Generator) :
    (readSections id g).Always fun g' => g'.header = g.header := by
  refine .after _ fun items => ?_
  dsimp only
  split
  · exact .pure rfl
  refine .after _ fun initializers => ?_
  split
  · exact .pure rfl
  refine .after _ fun updaters => ?_
  split
  · exact .pure rfl
  exact .after _ fun expiration => .pure rfl

theorem length_of_decode {data : List UInt8} {g : Generator} {r : Reader}
    (h : decoder id origin (Reader.of data) = .ok g r) : 4 * headerWords ≤ data.length := by
  by_contra hshort
  have hfound : (Reader.of data).remaining < headerWords * 4 := by
    change data.length - 0 < headerWords * 4
    omega
  rw [decoder, run_bind (show remaining (Reader.of data) = .ok _ _ from rfl)] at h
  dsimp only at h
  rw [if_pos hfound] at h
  cases h

theorem header_of_decode {data : List UInt8} {g : Generator} {log : Log}
    (h : decode id origin data = (.ok g, log)) (hplain : HasPlainHeader data) :
    Word.allBytes g.header = data.take (4 * headerWords) := by
  obtain ⟨r, hr⟩ := exists_of_decode h
  have hlong := length_of_decode hr
  obtain ⟨g', hg'⟩ := exists_header hlong hplain
  have hrest : (Reader.of data).rest = Word.allBytes g'.header ++ data.drop (4 * headerWords) := by
    rw [hg', List.take_append_drop]
    rfl
  have hlong' : 4 * headerWords ≤ (Reader.of data).rest.length := hlong
  rw [decoder_of_long hlong', run_bind (readHeader_reads id origin g' _ _ hrest)] at hr
  have hheader : g.header = (ofHeader id origin g').header := readSections_header _ _ _ _ hr
  rw [hheader, ← hg']
  rfl

/-- Under any name and origin a written generator is read back as it was, with nothing to note. The
header of a stream that was read, if it is plain, is written back as the first words of that
stream, whatever came of its sections. -/
theorem headers_and_lists_round_trip (id : ResourceId) (origin : ResourcePath) :
    (∀ g : Generator, g.IsCanonical →
      decode id origin g.write = (.ok { g with id, origin }, [])) ∧
    ∀ data g log, HasPlainHeader data → decode id origin data = (.ok g, log) →
      Word.allBytes g.header = data.take (4 * headerWords) :=
  ⟨fun _ hg => decode_written hg, fun _ _ _ hplain h => header_of_decode h hplain⟩

/-- A batch with a beam, a ramp, slots at the largest offset, colours and a restart. -/
def ember : Generator where
  id := ⟨1, 0, 0, 0⟩
  origin := ResourcePath.root
  attach := .sourceToTarget
  sourceJoint := 0xF0
  targetJoint := 0x12
  flags := ⟨false, true, true, true⟩
  interval := 2
  intervalVariance := 0xFFFF
  perEmission := 3
  batchSlots := 4
  maxAge := 45
  maxAgeVariance := 5
  provider := ⟨2, 0, 0, 0⟩
  zoneLink := ResourceId.none
  baseScale := ⟨0x7fc00001⟩
  generatorUpdaters := [.emissionRamp ⟨0x3f800000⟩ ⟨0x41200000⟩, .snapshotAnchor]
  initializers :=
    [⟨Header.maxPackedOffset, .velocity ⟨⟨0⟩, ⟨0x3f800000⟩, ⟨0x80000000⟩⟩⟩,
     ⟨16, .colorTransform (Color.ofPacked 0x80ff0000) 30⟩, ⟨32, .keyFrames ⟨3, 0, 0, 0⟩ .height⟩]
  updaters := [⟨Header.maxPackedOffset, .applyVelocity⟩, ⟨0, .fadeOut 10⟩]
  expiration := [⟨0, .restart 2⟩]

theorem ember_isCanonical : ember.IsCanonical where
  initializers := by
    have hcolor : (Initializer.colorTransform (Color.ofPacked 0x80ff0000) 30).IsCanonical :=
      ⟨_, rfl⟩
    refine List.forall_mem_cons.mpr ⟨⟨by decide, trivial⟩, List.forall_mem_cons.mpr
      ⟨⟨by decide, hcolor⟩, List.forall_mem_cons.mpr ⟨⟨by decide, trivial⟩, nofun⟩⟩⟩
  updaters := by decide
  expiration := by decide

/-- It is read back in full, and so is its header alone, with no sections behind it. -/
theorem ember_round_trips :
    decode ember.id ember.origin ember.write = (.ok ember, []) ∧
    ∃ g, decode ember.id ember.origin (Word.allBytes ember.header) = (.ok g, []) ∧
      Word.allBytes g.header = Word.allBytes ember.header := by
  obtain ⟨hwritten, hheader⟩ := headers_and_lists_round_trip ember.id ember.origin
  have hplain : HasPlainHeader (Word.allBytes ember.header) := by
    refine ⟨?_, ?_, by decide⟩
    · rintro code ⟨⟩
      decide
    · rintro bits ⟨⟩
      decide
  exact ⟨hwritten ember ember_isCanonical, ofHeader ember.id ember.origin ember, rfl,
    hheader _ _ [] hplain rfl⟩

end Generator
end EffectMachine
