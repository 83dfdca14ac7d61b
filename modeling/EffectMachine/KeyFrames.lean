import EffectMachine.Stream.Reader

namespace EffectMachine

structure KeyFrame where
  time : Scalar
  value : Scalar
deriving DecidableEq

/-- Keys stand in the total order of their times; equal times keep the order of the stream. -/
structure KeyFrameSet where
  id : ResourceId
  keys : List KeyFrame
deriving DecidableEq

namespace KeyFrameSet

def sorted (keys : List KeyFrame) : List KeyFrame :=
  keys.mergeSort fun a b => a.time.orderKey ≤ b.time.orderKey

def ofKeys (id : ResourceId) (keys : List KeyFrame) : KeyFrameSet := ⟨id, sorted keys⟩

/-- The value at `t` on the line through two keys, or the later value if they nearly coincide. -/
def between (a b : KeyFrame) (t : Scalar) : Scalar :=
  let span := b.time - a.time
  if span ≤ Scalar.epsilon then b.value
  else a.value + (b.value - a.value) * ((t - a.time) / span)

/-- The value from the first pair of neighbours whose later time is not before `t`. -/
def inside (t : Scalar) : KeyFrame → List KeyFrame → Scalar
  | a, [] => a.value
  | a, b :: later => if t ≤ b.time then between a b t else inside t b later

/-- The curve at `t`, held at its ends; an empty set is one everywhere. -/
def sample (s : KeyFrameSet) (t : Scalar) : Scalar :=
  match s.keys with
  | [] => 1
  | first :: later =>
    let last := later.getLast?.getD first
    if t ≤ first.time then first.value
    else if last.time ≤ t then last.value
    else inside t first later

def readKey : Decoder KeyFrame := return ⟨← Decoder.scalar, ← Decoder.scalar⟩

/-- A count word, then a time and a value for each key. -/
def decoder (id : ResourceId) : Decoder KeyFrameSet := do
  let count := (← Decoder.word).toNat
  let found ← Decoder.remaining
  if found < count * 8 then
    throw (.invalidHeader (.shortKeyFrames id.display count found))
  let keys ← Decoder.repeated readKey count
  if !(← Decoder.atEnd) then Decoder.note (.trailingBytes id (← Decoder.remaining))
  return ofKeys id keys

def decode (id : ResourceId) (data : List UInt8) : Except Fault KeyFrameSet × Log :=
  (decoder id).decode data

end KeyFrameSet
end EffectMachine
