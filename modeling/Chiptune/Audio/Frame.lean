import Chiptune.Bytes.Word

/-!
# Frames

A frame holds one sample for each output. Samples are limited to `[-1, 1]` and sent out as signed
bytes; unsigned bytes are the same with the silence moved to 128.

* `toUnsigned_toUnsigned`: moving the silence twice moves it back.
-/

namespace Chiptune

/-- A value moved into a range; not-a-number stays as it is. -/
def limitFloat (lo hi x : Float) : Float :=
  if x < lo then lo else if hi < x then hi else x

/-- A sample in `[-1, 1]` as the nearest signed byte. -/
def quantize (x : Float) : Int8 :=
  (limitFloat (-128.0) 127.0 (x * 128.0).round).toInt8

/-- One sample for each output. -/
structure Frame where
  samples : Array Float

namespace Frame

def empty : Frame :=
  ⟨#[]⟩

/-- The frame with one more sample, limited to `[-1, 1]`. -/
def push (f : Frame) (x : Float) : Frame :=
  ⟨f.samples.push (limitFloat (-1.0) 1.0 x)⟩

def ofList (xs : List Float) : Frame :=
  xs.foldl push empty

def signed (f : Frame) : Array Int8 :=
  f.samples.map quantize

/-- The bytes that a frame is sent out as. -/
def bytes (f : Frame) : Array UInt8 :=
  f.signed.map Int8.toUInt8

@[simp]
theorem size_bytes (f : Frame) : f.bytes.size = f.samples.size := by
  simp [bytes, signed]

theorem size_push (f : Frame) (x : Float) : (f.push x).samples.size = f.samples.size + 1 := by
  simp [push]

theorem size_ofList (xs : List Float) : (ofList xs).samples.size = xs.length := by
  suffices ∀ f : Frame, (xs.foldl push f).samples.size = f.samples.size + xs.length by
    simpa [ofList, empty] using this empty
  induction xs with
  | nil => simp
  | cons x xs ih =>
    intro f
    simp only [List.foldl_cons, ih, size_push, List.length_cons]
    omega

end Frame

/-- Signed bytes with the silence moved from 0 to 128. -/
def toUnsigned (pcm : Array UInt8) : Array UInt8 :=
  pcm.map (· + 128)

/-- Moving the silence twice moves it back. -/
theorem toUnsigned_toUnsigned (pcm : Array UInt8) : toUnsigned (toUnsigned pcm) = pcm := by
  have : ∀ b : UInt8, b + 128 + 128 = b := fun b => by
    rw [UInt8.add_assoc]
    exact UInt8.add_zero b
  simp [toUnsigned, Function.comp_def, this]

end Chiptune
