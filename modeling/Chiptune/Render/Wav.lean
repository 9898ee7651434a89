import Chiptune.Audio.Frame
import Chiptune.Audio.Setup

/-!
# WAV files

A WAV file of 8-bit samples: a RIFF header, a `fmt` chunk of 16 bytes that describes the samples, and
a `data` chunk that holds them, unsigned. All sizes are 32-bit words with the low byte first.

* `size_encode`: a file is its header of 44 bytes and the samples.
-/

namespace Chiptune.Wav

def letters (text : String) : Bytes :=
  text.toList.map fun c => UInt8.ofNat c.toNat

/-- What the `fmt` chunk says. -/
structure Format where
  /-- Samples in a frame. -/
  channels : Nat
  /-- Frames in a second. -/
  rate : Nat
  bits : Nat
  deriving DecidableEq, Repr

/-- Bytes in a frame. -/
def Format.frameSize (f : Format) : Nat :=
  f.channels * (f.bits / 8)

/-- The payload of the `fmt` chunk; the leading 1 stands for plain samples. -/
def Format.bytes (f : Format) : Bytes :=
  Word.littleBytes 2 1 ++ Word.littleBytes 2 f.channels ++ Word.littleBytes 4 f.rate ++
    Word.littleBytes 4 (f.rate * f.frameSize) ++ Word.littleBytes 2 f.frameSize ++
    Word.littleBytes 2 f.bits

/-- The header of a file with the given number of bytes of samples. -/
def header (f : Format) (size : Nat) : Bytes :=
  letters "RIFF" ++ Word.littleBytes 4 (36 + size) ++ letters "WAVE" ++
    letters "fmt " ++ Word.littleBytes 4 16 ++ f.bytes ++
    letters "data" ++ Word.littleBytes 4 size

/-- The format of 8-bit samples for some outputs. -/
def format (rate : Nat) (outputs : Outputs) : Format :=
  ⟨outputs.count, rate, 8⟩

/-- The file of unsigned samples. -/
def encode (rate : Nat) (outputs : Outputs) (pcm : Array UInt8) : Array UInt8 :=
  (header (format rate outputs) pcm.size).toArray ++ pcm

def ofSigned (rate : Nat) (outputs : Outputs) (pcm : Array UInt8) : Array UInt8 :=
  encode rate outputs (toUnsigned pcm)

theorem length_header (f : Format) (size : Nat) : (header f size).length = 44 := by
  simp [header, Format.bytes, letters]

/-- A file is its header of 44 bytes and the samples. -/
theorem size_encode (rate : Nat) (outputs : Outputs) (pcm : Array UInt8) :
    (encode rate outputs pcm).size = 44 + pcm.size := by
  simp [encode, length_header]

end Chiptune.Wav
