import EffectMachine.Generator.Table
import EffectMachine.Resource.Path

namespace EffectMachine

structure GeneratorFlags where
  /-- Emits only while no particle is there. -/
  continuousSingleton : Bool := false
  autoRun : Bool := false
  /-- Each emission is a carrier with sub-particles. -/
  batched : Bool := false
  /-- Particles stay where they were emitted. -/
  worldSpace : Bool := false
deriving DecidableEq

namespace GeneratorFlags

def ofBits (bits : UInt8) : GeneratorFlags :=
  ⟨bits &&& 1 ≠ 0, bits &&& 2 ≠ 0, bits &&& 4 ≠ 0, bits &&& 8 ≠ 0⟩

def bits (f : GeneratorFlags) : UInt8 :=
  (if f.continuousSingleton then 1 else 0) ||| (if f.autoRun then 2 else 0) |||
    (if f.batched then 4 else 0) ||| (if f.worldSpace then 8 else 0)

end GeneratorFlags

/-- A header of eight words, then four sections: what the generator does to itself, and the
initializers, updaters and expiration handlers of its particles. -/
structure Generator where
  id : ResourceId
  origin : ResourcePath
  attach : Attachment
  sourceJoint : UInt8
  targetJoint : UInt8
  flags : GeneratorFlags
  /-- Frames between emissions. -/
  interval : UInt16
  intervalVariance : UInt16
  perEmission : UInt16
  batchSlots : UInt16
  maxAge : UInt16
  maxAgeVariance : UInt16
  provider : ResourceId
  zoneLink : ResourceId
  baseScale : Scalar
  generatorUpdaters : List GeneratorUpdater
  initializers : List (Slotted Initializer)
  updaters : List (Slotted Updater)
  expiration : List (Slotted ExpirationHandler)
deriving DecidableEq

namespace Generator

def headerWords : Nat := 8

/-- The attachment of a code; a code without one is noted and attaches nowhere. -/
def attachment (id : ResourceId) (code : UInt8) : Decoder Attachment := do
  match Attachment.ofCode? code with
  | some attach => return attach
  | none =>
    Decoder.note (.unknownAttachment id code)
    return .none

/-- Reads a header; the last word is not used. -/
def readHeader (id : ResourceId) (origin : ResourcePath) : Decoder Generator := do
  let attach ← attachment id (← Decoder.byte)
  let sourceJoint ← Decoder.byte
  let targetJoint ← Decoder.byte
  let flags := GeneratorFlags.ofBits (← Decoder.byte)
  let interval ← Decoder.half
  let intervalVariance ← Decoder.half
  let perEmission ← Decoder.half
  let batchSlots ← Decoder.half
  let maxAge ← Decoder.half
  let maxAgeVariance ← Decoder.half
  let provider ← Decoder.id
  let zoneLink ← Decoder.id
  let baseScale ← Decoder.scalar
  let _ ← Decoder.word
  return ⟨id, origin, attach, sourceJoint, targetJoint, flags, interval, intervalVariance,
    perEmission, batchSlots, maxAge, maxAgeVariance, provider, zoneLink, baseScale, [], [], [], []⟩

/-- The particle table as one section uses it: an instruction of another family is noted. -/
def sectionTable (id : ResourceId) (family : ParticleFamily) : OpcodeTable ParticleOperation :=
  { particleTable with
    remarks := fun header op =>
      if op.family = family then [] else [.wrongSection id header.opcode family op.family] }

/-- Reads a section of one family; instructions of the other families are left out. -/
def familySection {α : Type} (id : ResourceId) (family : ParticleFamily)
    (pick : ParticleOperation → Option α) : Decoder (List (Slotted α) × SectionEnd) := do
  let (items, how) ← (sectionTable id family).decoder .particle
  return (items.filterMap fun (header, op) => (pick op).map (⟨header.offset, ·⟩), how)

def readInitializers (id : ResourceId) : Decoder (List (Slotted Initializer) × SectionEnd) :=
  familySection id .initializer fun | .birth op => some op | _ => none

def readUpdaters (id : ResourceId) : Decoder (List (Slotted Updater) × SectionEnd) :=
  familySection id .updater fun | .update op => some op | _ => none

def readExpiration (id : ResourceId) : Decoder (List (Slotted ExpirationHandler) × SectionEnd) :=
  familySection id .expiration fun | .expire op => some op | _ => none

def decoder (id : ResourceId) (origin : ResourcePath) : Decoder Generator := do
  let found ← Decoder.remaining
  if found < headerWords * 4 then
    throw (.invalidHeader (.shortGenerator id.display (headerWords * 4) found))
  let header ← readHeader id origin
  let (items, how) ← generatorTable.decoder .particle
  let g := { header with generatorUpdaters := items.map Prod.snd }
  if how = .exhausted then return g
  let (initializers, how) ← readInitializers id
  let g := { g with initializers }
  if how = .exhausted then return g
  let (updaters, how) ← readUpdaters id
  let g := { g with updaters }
  if how = .exhausted then return g
  let (expiration, _) ← readExpiration id
  return { g with expiration }

def decode (id : ResourceId) (origin : ResourcePath) (data : List UInt8) :
    Except Fault Generator × Log :=
  (decoder id origin).decode data

def header (g : Generator) : List UInt32 :=
  [Word.ofBytes g.attach.code g.sourceJoint g.targetJoint g.flags.bits,
   Word.ofHalves g.interval g.intervalVariance,
   Word.ofHalves g.perEmission g.batchSlots,
   Word.ofHalves g.maxAge g.maxAgeVariance,
   g.provider.toWord,
   g.zoneLink.toWord,
   g.baseScale.bits,
   0]

def write (g : Generator) : List UInt8 :=
  Word.allBytes g.header ++
    (g.generatorUpdaters.flatMap GeneratorUpdater.write ++ Writer.sectionEnd .particle) ++
    (g.initializers.flatMap (fun i => ParticleOperation.write i.offset (.birth i.op)) ++
      Writer.sectionEnd .particle) ++
    (g.updaters.flatMap (fun i => ParticleOperation.write i.offset (.update i.op)) ++
      Writer.sectionEnd .particle) ++
    (g.expiration.flatMap (fun i => ParticleOperation.write i.offset (.expire i.op)) ++
      Writer.sectionEnd .particle)

end Generator
end EffectMachine
