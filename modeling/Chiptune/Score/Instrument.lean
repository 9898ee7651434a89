/-!
# Instruments

An instrument plays a sample or a synthetic waveform and says how the sound moves: its volume
and pitch envelopes, vibrato, arpeggio presets and, for a waveform, the effect that reshapes it.

* `Effect.ofNumber_number`, `Effect.number_ofNumber`: every effect number names one effect.
* `Arpeggio.size_active`: a preset uses at most its fourteen steps.
-/

namespace Chiptune

/-- How the waveform of a synthetic voice is reshaped while it plays. -/
inductive Effect where
  | none
  /-- Negate one byte after the other. -/
  | negateByte
  /-- Negate the first byte of the waveform, then its first two, and so on. -/
  | negateRun
  /-- Add the amount to every byte. -/
  | raise
  /-- Rotate the bytes to the left. -/
  | rotate
  /-- Add another waveform. -/
  | blend
  /-- Negate each byte of the waveform in turn, one at a time. -/
  | negateOne
  /-- Add a byte of another waveform to every byte. -/
  | raiseByWave
  /-- Add a byte of another waveform to every byte, then negate one. -/
  | raiseAndNegate
  /-- Move every byte by one towards another waveform. -/
  | approach
  /-- Move the pitch by the amount for a limited number of steps. -/
  | sweep
  /-- Exchange neighbouring bytes. -/
  | swapPairs
  /-- Replace one byte after the other by noise. -/
  | noiseByte
  /-- Average each byte with the next. -/
  | smooth
  /-- Average each byte with both neighbours. -/
  | smoothWide
  /-- Switch between the waveform and its negative. -/
  | flip
  /-- Replace every byte by noise. -/
  | noise
  /-- Move the pitch by the amount without end. -/
  | drift
  /-- A number past the known ones, which leaves the waveform alone. -/
  | other (number : UInt16) (beyond : 17 < number)
  deriving DecidableEq, Repr, Inhabited

namespace Effect

def ofNumber (n : UInt16) : Effect :=
  if h : 17 < n then .other n h
  else match n.toNat with
    | 0 => .none
    | 1 => .negateByte
    | 2 => .negateRun
    | 3 => .raise
    | 4 => .rotate
    | 5 => .blend
    | 6 => .negateOne
    | 7 => .raiseByWave
    | 8 => .raiseAndNegate
    | 9 => .approach
    | 10 => .sweep
    | 11 => .swapPairs
    | 12 => .noiseByte
    | 13 => .smooth
    | 14 => .smoothWide
    | 15 => .flip
    | 16 => .noise
    | _ => .drift

def number : Effect → UInt16
  | .none => 0
  | .negateByte => 1
  | .negateRun => 2
  | .raise => 3
  | .rotate => 4
  | .blend => 5
  | .negateOne => 6
  | .raiseByWave => 7
  | .raiseAndNegate => 8
  | .approach => 9
  | .sweep => 10
  | .swapPairs => 11
  | .noiseByte => 12
  | .smooth => 13
  | .smoothWide => 14
  | .flip => 15
  | .noise => 16
  | .drift => 17
  | .other n _ => n

@[simp]
theorem ofNumber_number (e : Effect) : ofNumber e.number = e := by
  cases e with
  | other n h => simp [ofNumber, number, h]
  | _ => rfl

@[simp]
theorem number_ofNumber (n : UInt16) : (ofNumber n).number = n := by
  by_cases h : 17 < n
  · simp [ofNumber, number, h]
  · have known : ∀ k : Fin 18, (ofNumber (UInt16.ofNat k)).number = UInt16.ofNat k := by decide
    have hn : n.toNat < 18 := by
      have := mt UInt16.lt_iff_toNat_lt.2 h
      simp at this
      omega
    simpa using known ⟨n.toNat, hn⟩

end Effect

/-- The effect of an instrument and its parameters. -/
structure Reshaping where
  effect : Effect
  /-- An amount, or the number of another waveform. -/
  amount : UInt16
  /-- One end of the window that the effect works in. -/
  left : UInt16
  /-- The other end of the window, or the number of steps that a sweep takes. -/
  right : UInt16
  /-- Ticks that pass between two steps of the effect. -/
  delay : UInt16
  deriving DecidableEq, Repr, Inhabited

/-- The settings of a vibrato. -/
structure Vibrato where
  /-- Ticks before it sets in; from 255 on it is off. -/
  delay : UInt16
  speed : UInt16
  level : UInt16
  deriving DecidableEq, Repr, Inhabited

/-- Ticks before the vibrato sets in, if it ever does. -/
def Vibrato.startDelay? (v : Vibrato) : Option Nat :=
  if v.delay.toNat < 255 then some v.delay.toNat else none

/-- The settings of an envelope that follows a wave table. -/
structure Envelope where
  wave : UInt16
  /-- Ticks spent on the first entry. -/
  delay : UInt16
  /-- Entries played once. -/
  length : UInt16
  /-- Entries after those that are played again and again; with none the last entry holds. -/
  loop : UInt16
  deriving DecidableEq, Repr, Inhabited

/-- An arpeggio preset: pitch offsets in semitones, played in turn. -/
structure Arpeggio where
  /-- Offsets played once. -/
  length : UInt8
  /-- Offsets after those that are played again and again. -/
  loop : UInt8
  steps : Vector Int8 14
  deriving DecidableEq, Repr, Inhabited

def Arpeggio.active (a : Arpeggio) : Array Int8 :=
  a.steps.toArray.take (a.length.toNat + a.loop.toNat)

/-- A preset uses at most its fourteen steps. -/
theorem Arpeggio.size_active (a : Arpeggio) :
    a.active.size = min (a.length.toNat + a.loop.toNat) 14 := by
  simp [active]

/-- An instrument. -/
structure Instrument where
  /-- Nonzero for a synthetic waveform, zero for a sample. -/
  synth : UInt16
  /-- Number of the sample or waveform. -/
  wave : UInt16
  /-- Length of the part played once, in words. -/
  length : UInt16
  /-- Length of the part played again and again, in words: zero repeats the whole sound, one
  nothing. -/
  loop : UInt16
  /-- Bytes without a known meaning. -/
  reservedA : Vector UInt8 8
  /-- Volume, at most 64. -/
  volume : UInt16
  /-- Fine tuning in sixteenths of a semitone. -/
  fineTuning : Int16
  /-- Glide speed in period units for each tick; zero is off. -/
  portamento : UInt16
  vibrato : Vibrato
  pitchEnvelope : Envelope
  volumeEnvelope : Envelope
  /-- Entry at which the volume envelope pauses. -/
  sustainPoint : UInt16
  /-- Ticks that it pauses there. -/
  sustainTicks : UInt16
  /-- Bytes without a known meaning. -/
  reservedB : Vector UInt8 16
  reshaping : Reshaping
  arpeggios : Vector Arpeggio 3
  /-- Name, closed by a zero byte. -/
  name : Vector UInt8 30
  deriving DecidableEq, Repr, Inhabited

namespace Instrument

variable (i : Instrument)

/-- Whether the instrument plays a synthetic waveform. -/
def isSynth : Bool :=
  i.synth ≠ 0

def startVolume : Nat :=
  min i.volume.toNat 64

/-- The arpeggio preset with a number, if it has any steps. -/
def arpeggio? (preset : Nat) : Option Arpeggio :=
  i.arpeggios[preset]?.filter fun a => !a.active.isEmpty

end Instrument

end Chiptune
