import EffectMachine.Config
import EffectMachine.Resource.Path
import EffectMachine.Routine.Table

namespace EffectMachine

/-- Three lists of effects, each closed by a terminator. A stream that ends early leaves the later
lists empty. -/
structure Routine where
  id : ResourceId
  origin : ResourcePath
  effects : List Effect
  onComplete : List Effect
  onStop : List Effect
  /-- Runs on its own: it loops on completion or lives in an auto-play location. -/
  autoRun : Bool
deriving DecidableEq

namespace Routine

def ofSections (id : ResourceId) (origin : ResourcePath) (effects onComplete onStop : List Effect)
    (config : Config) : Routine :=
  let loops := onComplete.any fun e => e.action = .loopRoutine
  let autoPlay := match origin.leaf? with
    | some leaf => config.isAutoPlayLocation leaf.name
    | none => false
  ⟨id, origin, effects, onComplete, onStop, loops || autoPlay⟩

def sections : Decoder (List Effect × List Effect × List Effect) := do
  let (effects, how) ← routineTable.decoder .routine
  let effects := effects.map Prod.snd
  if how = .exhausted then return (effects, [], [])
  let (onComplete, how) ← routineTable.decoder .routine
  let onComplete := onComplete.map Prod.snd
  if how = .exhausted then return (effects, onComplete, [])
  let (onStop, _) ← routineTable.decoder .routine
  return (effects, onComplete, onStop.map Prod.snd)

def decode (id : ResourceId) (origin : ResourcePath) (config : Config) (data : List UInt8) :
    Except Fault Routine × Log :=
  let decoder : Decoder Routine := do
    let (effects, onComplete, onStop) ← sections
    return ofSections id origin effects onComplete onStop config
  decoder.decode data

def write (r : Routine) : List UInt8 :=
  [r.effects, r.onComplete, r.onStop].flatMap fun effects =>
    effects.flatMap Effect.write ++ Writer.sectionEnd .routine

end Routine
end EffectMachine
