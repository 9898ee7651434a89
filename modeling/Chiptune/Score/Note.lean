/-!
# Notes and their commands

A row of a part is a note of four bytes: pitch, instrument, a byte of flags and an argument. The flags
hold, from the top, two switches, the arpeggio preset and the number of the command. They are kept
as read, so a note is written back as it was.

* `command_eq_none_iff`: which rows carry no command.
-/

namespace Chiptune

/-- One row of a part. -/
structure Note where
  /-- Pitch, counted from one; zero starts no note. -/
  value : UInt8
  /-- Instrument, counted from one; zero keeps the current one. -/
  instrument : UInt8
  flags : UInt8
  info : UInt8
  deriving DecidableEq, Repr, Inhabited

/-- What a row does besides starting a note. -/
inductive Command where
  | none
  /-- Lower the period by the argument on each later tick of the row. -/
  | slideUp
  /-- Take the wave table of the argument for the volume envelope. -/
  | setVolumeWave
  /-- Number 3, which has no meaning. -/
  | spare3
  /-- Start the vibrato's cycle again. -/
  | resetVibrato
  /-- Switch the vibrato on with a speed and a depth. -/
  | setVibrato
  /-- Set the volume of the whole output. -/
  | setMasterVolume
  /-- Glide to later notes at the speed of the argument. -/
  | setPortamento
  | clearPortamento
  /-- Number 9, which has no meaning. -/
  | spare9
  /-- Change the volume by the signed argument on each later tick of the row. -/
  | volumeSlide
  /-- Go on at the step of the argument. -/
  | positionJump
  /-- Set the volume of the part. -/
  | setVolume
  /-- Go on at the row of the argument in the next step. -/
  | patternBreak
  /-- Switch the output filter off. -/
  | disableFilter
  /-- Set the number of interrupts that a row lasts. -/
  | setSpeed
  deriving DecidableEq, Repr, Inhabited

/-- The command with a number; only its low four bits count. -/
def Command.ofNumber (n : Nat) : Command :=
  match n % 16 with
  | 0 => .none
  | 1 => .slideUp
  | 2 => .setVolumeWave
  | 3 => .spare3
  | 4 => .resetVibrato
  | 5 => .setVibrato
  | 6 => .setMasterVolume
  | 7 => .setPortamento
  | 8 => .clearPortamento
  | 9 => .spare9
  | 10 => .volumeSlide
  | 11 => .positionJump
  | 12 => .setVolume
  | 13 => .patternBreak
  | 14 => .disableFilter
  | _ => .setSpeed

namespace Note

def blank : Note :=
  ⟨0, 0, 0, 0⟩

variable (n : Note)

def command : Command :=
  Command.ofNumber n.flags.toNat

/-- The arpeggio preset that the row selects; the last of the four choices selects none. -/
def arpeggio? : Option Nat :=
  let preset := n.flags.toNat / 16 % 4
  if preset = 3 then none else some preset

/-- Whether the part's transposition leaves the instrument number alone. -/
def keepsInstrument : Bool :=
  n.flags.toNat / 128 % 2 = 1

/-- Whether the part's transposition leaves the pitch alone. -/
def keepsPitch : Bool :=
  n.flags.toNat / 64 % 2 = 1

/-- Whether the row neither starts a note nor carries a command. -/
def isEmpty : Bool :=
  n.value = 0 && n.instrument = 0 && n.command = .none

/-- A row carries no command exactly if the low four bits of its flags are zero. -/
theorem command_eq_none_iff : n.command = .none ↔ n.flags.toNat % 16 = 0 := by
  unfold command Command.ofNumber
  have : n.flags.toNat % 16 < 16 := Nat.mod_lt _ (by decide)
  split <;> simp_all

end Note

/-- One part of a step: where its rows begin, and how they are transposed. -/
structure Part where
  /-- Number of the first row in the note table. -/
  start : UInt16
  /-- Added to the instrument number of each note. -/
  soundTranspose : Int8
  /-- Added to the pitch of each note. -/
  noteTranspose : Int8
  deriving DecidableEq, Repr, Inhabited

/-- A part at the start of the note table, without transposition. -/
def Part.plain : Part :=
  ⟨0, 0, 0⟩

end Chiptune
