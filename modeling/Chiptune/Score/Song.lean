/-!
# Songs

A score holds several songs over the same patterns. A song plays the steps from `first` to `last`,
each `rows` rows long, and counts time in interrupts: a row lasts as many interrupts as the song's
speed.

* `loopTarget_le`: a song that loops goes on inside its own range of steps.
-/

namespace Chiptune

/-- One entry of the song table. -/
structure Song where
  /-- Interrupts a row lasts at the start of the song. -/
  speed : UInt16
  /-- Rows of each step. -/
  rows : UInt16
  /-- First step played. -/
  first : UInt16
  /-- Last step played before the song loops or ends. -/
  last : UInt16
  /-- Step that a loop goes back to. -/
  repeatFrom : UInt16
  /-- Interrupts in a second. -/
  interruptRate : UInt16
  deriving DecidableEq, Repr, Inhabited

namespace Song

variable (song : Song)

def interruptDelay : Float :=
  1.0 / Float.ofNat song.interruptRate.toNat

/-- Seconds that a row lasts at a speed. -/
def rowDuration (speed : Nat) : Float :=
  Float.ofNat speed / Float.ofNat song.interruptRate.toNat

/-- Rows played in a second at a speed. -/
def rowsPerSecond (speed : Nat) : Float :=
  Float.ofNat song.interruptRate.toNat / Float.ofNat speed

/-- Number of steps in one pass; none when the song starts past its end. -/
def stepCount : Nat :=
  song.last.toNat + 1 - song.first.toNat

/-- The step that play goes back to when it has passed the last one. -/
def loopTarget : Nat :=
  min song.repeatFrom.toNat song.last.toNat

/-- Seconds of one pass at the speed of the start, jumps left aside. -/
def passDuration : Float :=
  Float.ofNat song.stepCount * Float.ofNat song.rows.toNat * song.rowDuration song.speed.toNat

/-- A loop goes on inside the range of the song. -/
theorem loopTarget_le : song.loopTarget ≤ song.last.toNat :=
  Nat.min_le_right _ _

end Song

end Chiptune
