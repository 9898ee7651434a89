import Chiptune.Bytes.Layout
import Chiptune.Score.Basic

/-!
# Records of a module file

The layouts of the records that both forms of a module file share. Words come with their most
significant byte first.

* `song_exact`, `part_exact`, `note_exact`, `instrument_exact`, `sampleInfo_exact`, `wave_exact`:
  every record is read back as it was written and written as it was read.
* `sizes`: the sizes of the records.
-/

namespace Chiptune.Record

open Layout

def raw (n : Nat) : Layout (Vector UInt8 n) :=
  vector n byte

def song : Layout Song :=
  (pair word16 <| pair word16 <| pair word16 <| pair word16 <| pair word16 word16).map
    (fun (speed, rows, first, last, repeatFrom, interruptRate) =>
      { speed, rows, first, last, repeatFrom, interruptRate })
    (fun s => (s.speed, s.rows, s.first, s.last, s.repeatFrom, s.interruptRate))

def part : Layout Part :=
  (pair word16 <| pair signedByte signedByte).map
    (fun (start, soundTranspose, noteTranspose) => { start, soundTranspose, noteTranspose })
    (fun p => (p.start, p.soundTranspose, p.noteTranspose))

def note : Layout Note :=
  (pair byte <| pair byte <| pair byte byte).map
    (fun (value, instrument, flags, info) => { value, instrument, flags, info })
    (fun n => (n.value, n.instrument, n.flags, n.info))

def vibrato : Layout Vibrato :=
  (pair word16 <| pair word16 word16).map
    (fun (delay, speed, level) => { delay, speed, level })
    (fun v => (v.delay, v.speed, v.level))

def envelope : Layout Envelope :=
  (pair word16 <| pair word16 <| pair word16 word16).map
    (fun (wave, delay, length, loop) => { wave, delay, length, loop })
    (fun e => (e.wave, e.delay, e.length, e.loop))

/-- How a waveform is reshaped: the number of the effect stands after its amount. -/
def reshaping : Layout Reshaping :=
  (pair word16 <| pair word16 <| pair word16 <| pair word16 word16).map
    (fun (amount, effect, left, right, delay) =>
      { effect := Effect.ofNumber effect, amount, left, right, delay })
    (fun r => (r.amount, r.effect.number, r.left, r.right, r.delay))

def arpeggio : Layout Arpeggio :=
  (pair byte <| pair byte <| vector 14 signedByte).map
    (fun (length, loop, steps) => { length, loop, steps })
    (fun a => (a.length, a.loop, a.steps))

def instrument : Layout Instrument :=
  (pair word16 <| pair word16 <| pair word16 <| pair word16 <| pair (raw 8) <| pair word16 <|
    pair signed16 <| pair word16 <| pair vibrato <| pair envelope <| pair envelope <|
    pair word16 <| pair word16 <| pair (raw 16) <| pair reshaping <|
    pair (vector 3 arpeggio) (raw 30)).map
    (fun (synth, wave, length, loop, reservedA, volume, fineTuning, portamento, vibrato,
        pitchEnvelope, volumeEnvelope, sustainPoint, sustainTicks, reservedB, reshaping,
        arpeggios, name) =>
      { synth, wave, length, loop, reservedA, volume, fineTuning, portamento, vibrato,
        pitchEnvelope, volumeEnvelope, sustainPoint, sustainTicks, reservedB, reshaping,
        arpeggios, name })
    (fun i => (i.synth, i.wave, i.length, i.loop, i.reservedA, i.volume, i.fineTuning,
      i.portamento, i.vibrato, i.pitchEnvelope, i.volumeEnvelope, i.sustainPoint,
      i.sustainTicks, i.reservedB, i.reshaping, i.arpeggios, i.name))

def sampleInfo : Layout SampleInfo :=
  (pair word16 <| pair word16 <| pair (raw 30) (raw 4)).map
    (fun (length, loop, name, reserved) => { length, loop, name, reserved })
    (fun i => (i.length, i.loop, i.name, i.reserved))

def wave : Layout Wave :=
  raw 128

theorem raw_exact (n : Nat) : (raw n).Exact :=
  vector_exact byte_exact n

theorem song_exact : song.Exact :=
  map_exact (pair_exact word16_exact <| pair_exact word16_exact <| pair_exact word16_exact <|
    pair_exact word16_exact <| pair_exact word16_exact word16_exact) (fun _ => rfl) (fun _ => rfl)

theorem part_exact : part.Exact :=
  map_exact (pair_exact word16_exact <| pair_exact signedByte_exact signedByte_exact)
    (fun _ => rfl) (fun _ => rfl)

theorem note_exact : note.Exact :=
  map_exact (pair_exact byte_exact <| pair_exact byte_exact <| pair_exact byte_exact byte_exact)
    (fun _ => rfl) (fun _ => rfl)

theorem vibrato_exact : vibrato.Exact :=
  map_exact (pair_exact word16_exact <| pair_exact word16_exact word16_exact)
    (fun _ => rfl) (fun _ => rfl)

theorem envelope_exact : envelope.Exact :=
  map_exact (pair_exact word16_exact <| pair_exact word16_exact <| pair_exact word16_exact
    word16_exact) (fun _ => rfl) (fun _ => rfl)

theorem reshaping_exact : reshaping.Exact :=
  map_exact (pair_exact word16_exact <| pair_exact word16_exact <| pair_exact word16_exact <|
    pair_exact word16_exact word16_exact) (fun _ => by simp) (fun _ => by simp)

theorem arpeggio_exact : arpeggio.Exact :=
  map_exact (pair_exact byte_exact <| pair_exact byte_exact <| vector_exact signedByte_exact 14)
    (fun _ => rfl) (fun _ => rfl)

theorem instrument_exact : instrument.Exact :=
  map_exact (pair_exact word16_exact <| pair_exact word16_exact <| pair_exact word16_exact <|
    pair_exact word16_exact <| pair_exact (raw_exact 8) <| pair_exact word16_exact <|
    pair_exact signed16_exact <| pair_exact word16_exact <| pair_exact vibrato_exact <|
    pair_exact envelope_exact <| pair_exact envelope_exact <| pair_exact word16_exact <|
    pair_exact word16_exact <| pair_exact (raw_exact 16) <| pair_exact reshaping_exact <|
    pair_exact (vector_exact arpeggio_exact 3) (raw_exact 30)) (fun _ => rfl) (fun _ => rfl)

theorem sampleInfo_exact : sampleInfo.Exact :=
  map_exact (pair_exact word16_exact <| pair_exact word16_exact <| pair_exact (raw_exact 30)
    (raw_exact 4)) (fun _ => rfl) (fun _ => rfl)

theorem wave_exact : wave.Exact :=
  raw_exact 128

theorem sizes :
    song.size = 12 ∧ part.size = 4 ∧ note.size = 4 ∧ instrument.size = 152 ∧
      sampleInfo.size = 38 ∧ wave.size = 128 := by
  decide

end Chiptune.Record
