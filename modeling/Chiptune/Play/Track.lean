import Chiptune.Audio.Channel
import Chiptune.Score.Basic
import Chiptune.Tone.Chord
import Chiptune.Tone.Contour
import Chiptune.Tone.Shaper
import Chiptune.Tone.Swing

/-!
# Tracks

A track turns the rows of one part into what its hardware channel plays: which bytes, at what period
and volume. A row starts a note and carries out its command; every interrupt is a tick, which
moves slides, glides and envelopes on and writes the channel's registers.

The way of starting a channel is left open in what starts one (`triggerBy`, `playBy`, `reloadBy`,
`refillBy`), and is `Channel.start` when a song is played.

All that moves the period is added up in 32 bits. As with the offset of a shaper, a tick whose sum does not
fit goes on with what is left of it, and `overflowed` tells that a program with the check has stopped.

* `glided_between`: a glide never passes its target.
* `volume_slid_bounds`: a volume slide stays in the range of volumes.
-/

namespace Chiptune

/-- Where a channel's bytes come from. -/
inductive Source where
  /-- From nowhere. -/
  | silent
  /-- From a sample: its number, and the lengths of its two parts in words. -/
  | sample (index length loop : Nat)
  /-- From a waveform while it is reshaped, as far as a length in bytes. -/
  | synth (length : Nat) (shaper : Shaper)
  deriving DecidableEq, Repr

/-- Whether the bytes come from the sample with a number. -/
def Source.isSample (index : Nat) : Source → Bool
  | .sample i _ _ => i = index
  | _ => false

/-- What a track remembers between ticks. -/
structure Track where
  index : Nat
  /-- Instrument in use, counted from zero. -/
  instrument : Option Nat
  /-- Where the channel's bytes come from. -/
  source : Source
  /-- Counts the changes of those bytes. -/
  epoch : Nat
  /-- Note, transposition included. -/
  pitch : Int
  fine : Int
  /-- Period before modulation; zero until the first note. -/
  period : Int
  /-- Period that a glide leads to. -/
  target : Option Int
  portamento : Nat
  /-- Glide speed of a command, which comes before that of the instrument. -/
  ownPortamento : Option Nat
  /-- Volume before the envelope. -/
  volume : Int
  volumeContour : Option Contour
  pitchContour : Option Contour
  swing : Swing
  chord : Chord
  /-- Period taken away on each later tick of the row. -/
  slide : Int
  /-- Volume added on each later tick of the row. -/
  volumeSlide : Int
  /-- Ticks of the row so far, as a 16-bit word. -/
  rowTick : Nat
  /-- Whether a period offset or a sum with one has not fitted its register. -/
  overflowed : Bool
  deriving DecidableEq, Repr

namespace Track

def idle (index : Nat) : Track :=
  { index, instrument := none, source := .silent, epoch := 0, pitch := 0, fine := 0, period := 0,
    target := none, portamento := 0, ownPortamento := none, volume := 0, volumeContour := none,
    pitchContour := none, swing := .off, chord := .plain, slide := 0, volumeSlide := 0,
    rowTick := 0, overflowed := false }

/-- The volume as a number out of 64. -/
def shownVolume (tr : Track) : Nat :=
  (Period.limit 0 64 tr.volume).toNat

def glideSpeed (tr : Track) : Nat :=
  tr.ownPortamento.getD tr.portamento

/-! ## Rows -/

/-- The track at the start of a row. -/
def newRow (tr : Track) : Track :=
  { tr with slide := 0, volumeSlide := 0, rowTick := 0 }

/-- The instrument that a note asks for; a note without a number keeps the current one. -/
def instrumentFor (tr : Track) (part : Part) (note : Note) : Option Nat :=
  if note.instrument = 0 then tr.instrument
  else
    let moved := if note.keepsInstrument then 0 else part.soundTranspose.toInt
    let number := note.instrument.toNat + moved - 1
    if 0 ≤ number then some number.toNat else none

def pitchFor (part : Part) (note : Note) : Int :=
  let moved := if note.keepsPitch then 0 else part.noteTranspose.toInt
  Period.limit 1 Period.topNote (note.value.toNat + moved)

/-- The track with a new period: reached at once, or by a glide if one is on and a note has been
played before. -/
def headFor (tr : Track) (period : Int) : Track :=
  if 0 < tr.glideSpeed ∧ 0 < tr.period then { tr with target := some period }
  else { tr with period, target := none }

/-- The track with the pitch of a note of an instrument. -/
def tuned (tr : Track) (inst : Instrument) (part : Part) (note : Note) : Track :=
  let pitch := pitchFor part note
  let fine := inst.fineTuning.toInt
  headFor { tr with pitch, fine, portamento := inst.portamento.toNat }
    (Period.tune (Period.ofNote pitch) fine)

/-- The track with the volume and the movements of an instrument at their start. -/
def dressed (tr : Track) (inst : Instrument) (note : Note) : Track :=
  { tr with
    volume := inst.startVolume
    volumeContour := (Contour.ofEnvelope? inst.volumeEnvelope).map
      (·.pausing inst.sustainPoint.toNat inst.sustainTicks.toNat)
    pitchContour := Contour.ofEnvelope? inst.pitchEnvelope
    swing := .ofVibrato inst.vibrato
    chord := .ofSelection (note.arpeggio?.bind inst.arpeggio?) }

/-- Bytes that a synthetic instrument plays; the whole waveform if it does not say. -/
def synthLength (inst : Instrument) : Nat :=
  let length := min (inst.length.toNat * 2) 128
  if length = 0 then 128 else length

/-- Bytes of a sample that are played first; the whole sample if the instrument does not say. -/
def firstLength (inst : Instrument) (data : Array UInt8) : Nat :=
  let length := inst.length.toNat * 2 + inst.loop.toNat * 2
  if length = 0 then data.size else length

section

variable (start : Starter)

/-- The track and its channel after the sound of an instrument was started. -/
def triggerBy (score : Score) (tr : Track) (inst : Instrument) (t : Float) (ch : Channel) :
    Track × Channel :=
  let index := inst.wave.toNat
  if inst.isSynth then
    let wave := score.waves[index]?.getD .silent
    let length := synthLength inst
    let epoch := tr.epoch + 1
    let shaper := Shaper.start inst.reshaping wave (UInt64.ofNat (epoch ^^^ tr.index))
    ({ tr with epoch, source := .synth length shaper }, start ch wave.toArray ⟨epoch, 0, length⟩ t)
  else match score.samples[index]? with
    | none => ({ tr with source := .silent }, ch.stop)
    | some sample =>
      -- another note of the same sample plays the same bytes
      let epoch := if tr.source.isSample index then tr.epoch else tr.epoch + 1
      ({ tr with epoch, source := .sample index inst.length.toNat inst.loop.toNat },
        start ch sample.data ⟨epoch, 0, firstLength inst sample.data⟩ t)

/-- The track and its channel after the note of a row. A row without a note keeps the sound. -/
def playBy (score : Score) (tr : Track) (part : Part) (note : Note) (t : Float) (ch : Channel) :
    Track × Channel :=
  let tr := tr.newRow
  if note.value = 0 then (tr, ch)
  else
    let tr := { tr with instrument := tr.instrumentFor part note }
    match tr.instrument.bind (score.instruments[·]?) with
    | none => ({ tr with source := .silent }, ch.stop)
    | some inst => ((tr.tuned inst part note).dressed inst note).triggerBy start score inst t ch

end

def trigger (score : Score) (tr : Track) (inst : Instrument) (t : Float) (ch : Channel) :
    Track × Channel :=
  tr.triggerBy Channel.start score inst t ch

def play (score : Score) (tr : Track) (part : Part) (note : Note) (t : Float) (ch : Channel) :
    Track × Channel :=
  tr.playBy Channel.start score part note t ch

/-- The track after the command of a row, as far as the command is about this track. -/
def command (tr : Track) (note : Note) : Track :=
  let info := note.info.toNat
  match note.command with
  | .slideUp => { tr with slide := info }
  | .setVolumeWave => { tr with volumeContour := tr.volumeContour.map (·.along info) }
  | .resetVibrato => { tr with swing := tr.swing.restart }
  | .setVibrato => { tr with swing := tr.swing.set (info / 16) (info % 16 * 16) }
  | .setPortamento => { tr with ownPortamento := some info }
  | .clearPortamento =>
    { tr with ownPortamento := none, period := tr.target.getD tr.period, target := none }
  | .volumeSlide => { tr with volumeSlide := note.info.toInt8.toInt }
  | .setVolume => { tr with volume := min info 64 }
  | _ => tr

/-! ## Ticks -/

/-- The period after one more tick of a glide. -/
def glided (period target : Int) (speed : Nat) : Int :=
  if speed = 0 then target
  else if period < target then min (period + speed) target
  else max (period - speed) target

/-- The track after one more tick of its glide, if it has one. -/
def glide (tr : Track) : Track :=
  match tr.target with
  | none => tr
  | some target =>
    let period := glided tr.period target tr.glideSpeed
    { tr with period, target := if period = target then none else some target }

/-- The track after one more tick of its slides, which rest on the first tick of a row. -/
def slid (tr : Track) (first : Bool) : Track :=
  if first then tr
  else
    { tr with
      period := Period.limit Period.lowest Period.highest (tr.period - tr.slide)
      volume := Period.limit 0 64 (tr.volume + tr.volumeSlide) }

/-- The track after one more tick of the effect on its waveform. -/
def reshaped (score : Score) (tr : Track) : Track :=
  match tr.source with
  | .synth length shaper =>
    { tr with
      source := .synth length (shaper.advance score.waves)
      epoch := if shaper.changed score.waves then tr.epoch + 1 else tr.epoch }
  | _ => tr

/-- The period offset of the effect on the waveform. -/
def effectOffset (tr : Track) : Int :=
  match tr.source with
  | .synth _ shaper => shaper.offset
  | _ => 0

def chordOffset (tr : Track) : Int :=
  let pitch := Period.limit 1 Period.topNote (tr.pitch + tr.chord.current)
  Period.tune (Period.ofNote pitch) tr.fine - (Period.tune (Period.ofNote tr.pitch) tr.fine : Int)

/-- The sum of the period and all that moves it. -/
def modulation (score : Score) (tr : Track) : Int :=
  let contour := (tr.pitchContour.map (·.offset score.pitchWaves)).getD 0
  tr.period + tr.chordOffset + tr.swing.offset + contour + tr.effectOffset

/-- The period with all modulation, in a 32-bit register. -/
def modulated (score : Score) (tr : Track) : Int :=
  Word.signed32 (tr.modulation score)

/-- Whether the period offset of the effect on the waveform has left its register, or the sum with it
does. -/
def overflows (score : Score) (tr : Track) : Bool :=
  let offset := match tr.source with
    | .synth _ shaper => shaper.overflowed
    | _ => false
  offset || !Word.fits32 (tr.modulation score)

def enveloped (score : Score) (tr : Track) : Nat :=
  let contour := (tr.volumeContour.map (·.volume score.volumeWaves)).getD 64
  tr.shownVolume * contour / 64

/-- The track with its movements one tick later. -/
def moved (score : Score) (tr : Track) : Track :=
  { tr with
    swing := tr.swing.advance
    chord := tr.chord.advance
    volumeContour := tr.volumeContour.map Contour.advance
    pitchContour := tr.pitchContour.map Contour.advance
    overflowed := tr.overflowed || tr.overflows score }

/-- Whether the next tick is the first of a row, or of another round of the speed. -/
def isFirstTick (tr : Track) (speed : Nat) : Bool :=
  tr.rowTick % max speed 1 = 0

def counted (tr : Track) : Track :=
  { tr with rowTick := (tr.rowTick + 1) % 0x10000 }

/-- The track and its channel after a tick. -/
def tick (score : Score) (speed : Nat) (tr : Track) (ch : Channel) : Track × Channel :=
  let first := tr.isFirstTick speed
  let tr := tr.counted
  if tr.period = 0 then (tr, ch)
  else
    let tr := ((tr.reshaped score).slid first).glide
    (tr.moved score, (ch.setPeriod (Period.clamp (tr.modulated score))).setVolume (tr.enveloped score))

section

variable (start : Starter)

/-- The channel started on a stretch of a source, unless it holds that stretch already. -/
def reloadBy (ch : Channel) (source : Array UInt8) (clip : Clip) (t : Float) : Channel :=
  if ch.loaded = some clip then ch else start ch source clip t

/-- The channel of the track when it has run past its bytes: a sample goes on with its loop or
stops, a waveform goes on with its present shape. -/
def refillBy (score : Score) (tr : Track) (t : Float) (ch : Channel) : Channel :=
  match tr.source with
  | .silent => ch.stop
  | .sample _ _ 0 => ch
  | .sample _ _ 1 => ch.stop
  | .sample index length loop =>
    match score.samples[index]? with
    | none => ch.stop
    | some sample => reloadBy start ch sample.data ⟨tr.epoch, length * 2, loop * 2⟩ t
  | .synth length shaper => reloadBy start ch shaper.wave.toArray ⟨tr.epoch, 0, length⟩ t

end

def reload (ch : Channel) (source : Array UInt8) (clip : Clip) (t : Float) : Channel :=
  reloadBy Channel.start ch source clip t

def refill (score : Score) (tr : Track) (t : Float) (ch : Channel) : Channel :=
  tr.refillBy Channel.start score t ch

theorem refillBy_start (score : Score) (tr : Track) (t : Float) (ch : Channel) :
    tr.refillBy Channel.start score t ch = tr.refill score t ch :=
  rfl

/-- A glide never passes its target. -/
theorem glided_between (period target : Int) (speed : Nat) :
    min period target ≤ glided period target speed ∧
      glided period target speed ≤ max period target := by
  unfold glided
  split
  · omega
  · split <;> omega

/-- A volume slide stays in the range of volumes. -/
theorem volume_slid_bounds (tr : Track) : 0 ≤ (tr.slid false).volume ∧ (tr.slid false).volume ≤ 64 :=
  Period.limit_bounds (by decide) _

end Track

end Chiptune
