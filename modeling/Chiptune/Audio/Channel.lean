import Chiptune.Audio.Frame
import Chiptune.Tone.Period

/-!
# Hardware channels

A channel plays a private copy of some bytes, as fast as its period says, and draws a straight line
between neighbouring bytes. When it runs past the end of the copy it says so, and its owner decides
whether to load other bytes, to go round or to stop.

* `size_clip_le`: a copy is no longer than was asked for.
* `volume_setVolume_le`: the volume never passes 64.
-/

namespace Chiptune

/-- Which bytes a channel was loaded with: a stretch of a source, and the state of that source. -/
structure Clip where
  /-- Counts the changes of the source. -/
  epoch : Nat
  /-- Where the stretch begins. -/
  offset : Nat
  length : Nat
  deriving DecidableEq, Repr

/-- The bytes of a stretch, as far as the source goes. -/
def Clip.of (clip : Clip) (source : Array UInt8) : Array UInt8 :=
  source.extract clip.offset (clip.offset + clip.length)

/-- A hardware channel. -/
structure Channel where
  buffer : Array UInt8
  /-- Where they come from. -/
  loaded : Option Clip
  /-- Whether it plays. -/
  active : Bool
  period : Nat
  volume : Nat
  /-- When the first byte was played, in seconds. -/
  startTime : Float
  index : Nat
  /-- How far it is from that byte to the next. -/
  fraction : Float
  /-- Whether it was started since its position was last refreshed. -/
  restarted : Bool

/-- A way of starting a channel on a stretch of a source at a time. -/
abbrev Starter := Channel → Array UInt8 → Clip → Float → Channel

/-- The whole part of a number from zero on; past `2 ^ 53` there are only whole numbers. -/
def wholePart (x : Float) : Float :=
  if x < 9007199254740992.0 then x.toUInt64.toFloat else x

namespace Channel

def idle : Channel :=
  { buffer := #[], loaded := none, active := false, period := 0, volume := 0, startTime := 0.0,
    index := 0, fraction := 0.0, restarted := false }

/-- The channel with the bytes of a stretch; bytes that it already holds are not copied again. -/
def load (ch : Channel) (source : Array UInt8) (clip : Clip) : Channel :=
  if ch.loaded = some clip then ch
  else { ch with buffer := clip.of source, loaded := some clip }

/-- The channel playing a stretch of a source from a time on. -/
def start (ch : Channel) (source : Array UInt8) (clip : Clip) (t : Float) : Channel :=
  let ch := ch.load source clip
  { ch with
    active := !ch.buffer.isEmpty, startTime := t, index := 0, fraction := 0.0, restarted := true }

/-- The channel silent until it is started again. -/
def stop (ch : Channel) : Channel :=
  { ch with active := false, index := 0, fraction := 0.0 }

def setPeriod (ch : Channel) (period : Nat) : Channel :=
  { ch with period }

/-- The channel with its volume register set, to at most 64. -/
def setVolume (ch : Channel) (volume : Nat) : Channel :=
  { ch with volume := min volume 64 }

/-- Whether the channel moves through its bytes at a time. -/
def isMoving (ch : Channel) (t : Float) : Bool :=
  ch.active && ch.period ≠ 0 && !(t < ch.startTime)

/-- The channel with its position refreshed for a time. -/
def seek (ch : Channel) (clock t : Float) : Channel :=
  if ch.isMoving t then
    let place := Period.rate ch.period clock * (t - ch.startTime)
    { ch with
      index := place.toUInt64.toNat, fraction := limitFloat 0.0 1.0 (place - wholePart place),
      restarted := false }
  else { ch with index := 0, fraction := 0.0, restarted := false }

/-- Whether a channel whose position was refreshed for a time has run past its end. -/
def isPastEnd (ch : Channel) (t : Float) : Bool :=
  ch.isMoving t && ch.buffer.size ≤ ch.index

/-- The channel after it ran past its end and its owner had a chance to start it anew: a started
one keeps its place, another goes round, a stopped one stays silent. -/
def settle (ch : Channel) (clock t : Float) : Channel :=
  if ch.restarted then ch
  else if !ch.active || ch.buffer.isEmpty then ch.stop
  else
    let index := ch.index % ch.buffer.size
    let rate := Period.rate ch.period clock
    let startTime := if 0.0 < rate then t - (Float.ofNat index + ch.fraction) / rate else t
    { ch with index, startTime }

/-- A byte of the buffer as a sample in `[-1, 1)`. -/
def sample (ch : Channel) (i : Nat) : Float :=
  Float.ofInt (ch.buffer.getD i 0).toInt8.toInt / 128.0

def output (ch : Channel) : Float :=
  if !ch.active || ch.period = 0 || ch.buffer.isEmpty then 0.0
  else
    let i := min ch.index (ch.buffer.size - 1)
    let left := ch.sample i
    let right := ch.sample ((i + 1) % ch.buffer.size)
    Float.ofNat ch.volume * (left + ch.fraction * (right - left)) / 64.0

/-- A copy is no longer than was asked for. -/
theorem size_clip_le (clip : Clip) (source : Array UInt8) :
    (clip.of source).size ≤ clip.length := by
  simp only [Clip.of, Array.size_extract]
  omega

/-- The volume never passes 64. -/
theorem volume_setVolume_le (ch : Channel) (volume : Nat) : (ch.setVolume volume).volume ≤ 64 :=
  Nat.min_le_right _ _

end Channel

end Chiptune
