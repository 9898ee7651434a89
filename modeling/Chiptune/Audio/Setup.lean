/-!
# Output settings and their limits

How a score is turned into sound: frames in a second, outputs, filter and clock. Values outside
their limits are refused before anything is played.

* `validate_eq_none_iff`: which settings are accepted.
-/

namespace Chiptune

/-- A number outside its limits. -/
inductive RangeFault where
  /-- A song that the score does not have. -/
  | songIndex (index count : Nat)
  /-- Frames in a second. -/
  | sampleRate (rate : Nat)
  /-- Interrupts that a row lasts. -/
  | songSpeed (speed : Nat)
  /-- Interrupts in a second. -/
  | interruptRate (rate : Nat)
  /-- A channel that the hardware does not have. -/
  | trackIndex (index : Nat)
  /-- Milliseconds of one read. -/
  | readTooLong (ms : Nat)
  /-- Loops of one write. -/
  | loopLimit (loops : Nat)
  deriving DecidableEq, Repr, Inhabited

def RangeFault.message : RangeFault → String
  | .songIndex index count =>
    "song " ++ Nat.repr index ++ " does not exist (module has " ++ Nat.repr count ++ " songs)"
  | .sampleRate rate => "sample rate " ++ Nat.repr rate ++ " Hz outside 2000..=200000"
  | .songSpeed speed => "song speed " ++ Nat.repr speed ++ " outside 1..=16"
  | .interruptRate rate => Nat.repr rate ++ " interrupts per second outside 1..=200"
  | .trackIndex index => "track index " ++ Nat.repr index ++ " outside 0..=3"
  | .readTooLong ms => "cannot read " ++ Nat.repr ms ++ " ms at once (limit is 1000 ms)"
  | .loopLimit loops => "loop limit " ++ Nat.repr loops ++ " exceeds 100"

/-- How the four channels go to the outputs. -/
inductive Outputs where
  /-- All channels to one output. -/
  | mono
  /-- The outer channels to the left, the inner ones to the right. -/
  | stereo
  /-- Each channel to an output of its own. -/
  | quad
  deriving DecidableEq, Repr, Inhabited

/-- Number of outputs, which is the number of bytes in a frame. -/
def Outputs.count : Outputs → Nat
  | .mono => 1
  | .stereo => 2
  | .quad => 4

/-- The television standard of the machine, which sets its clock. -/
inductive Standard where
  | pal
  | ntsc
  deriving DecidableEq, Repr, Inhabited

/-- The sound clock in ticks for each second. -/
def Standard.clock : Standard → Float
  | .pal => 7093789.2
  | .ntsc => 7159090.5

/-- Output settings. -/
structure Setup where
  /-- Frames in a second. -/
  rate : Nat := 44100
  outputs : Outputs := .mono
  /-- Whether the filter may be on. -/
  allowFilter : Bool := true
  standard : Standard := .pal
  deriving DecidableEq, Repr, Inhabited

namespace Setup

/-- What is wrong with the settings, if anything. -/
def validate (s : Setup) : Option RangeFault :=
  if 2000 ≤ s.rate ∧ s.rate ≤ 200000 then none else some (.sampleRate s.rate)

/-- Bytes in a frame. -/
def frameSize (s : Setup) : Nat :=
  s.outputs.count

/-- Settings are accepted exactly if the rate is in its limits. -/
theorem validate_eq_none_iff (s : Setup) : s.validate = none ↔ 2000 ≤ s.rate ∧ s.rate ≤ 200000 := by
  unfold validate
  split <;> simp_all

end Setup

end Chiptune
