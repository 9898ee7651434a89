/-!
# The output filter

The hardware's low-pass filter of second order: each output is a weighted sum of the last three
inputs and the last two outputs. The weights put the cutoff at 3275 Hz for 44100 samples in a
second, whatever the rate that is played at.

* `inputs_feed`, `outputs_feed`: what the filter remembers moves back by one place.
-/

namespace Chiptune

/-- What a filter remembers: the last two inputs and outputs, latest first. -/
structure LowPass where
  x1 : Float
  x2 : Float
  y1 : Float
  y2 : Float

namespace LowPass

def silent : LowPass :=
  ⟨0.0, 0.0, 0.0, 0.0⟩

/-- The weights of a filter. -/
structure Weights where
  b0 : Float
  b1 : Float
  b2 : Float
  a1 : Float
  a2 : Float

/-- The weights of a Butterworth filter with the given cutoff, by the bilinear transform. -/
def butterworth (cutoff rate : Float) : Weights :=
  let root2 : Float := 1.4142135623730951
  let omega := 2.0 * 3.141592653589793 * cutoff / rate
  let k := 1.0 / (0.5 * omega).tan
  let k2 := k * k
  let d := k2 + root2 * k + 1.0
  { b0 := 1.0 / d, b1 := 2.0 / d, b2 := 1.0 / d,
    a1 := (2.0 - 2.0 * k2) / d, a2 := (k2 - root2 * k + 1.0) / d }

def weights : Weights :=
  butterworth 3275.0 44100.0

/-- The filter after one more sample; its output is the latest it remembers. -/
def feed (f : LowPass) (x : Float) : LowPass :=
  let w := weights
  let y := w.b0 * x + w.b1 * f.x1 + w.b2 * f.x2 - w.a1 * f.y1 - w.a2 * f.y2
  ⟨x, f.x1, y, f.y1⟩

def output (f : LowPass) : Float :=
  f.y1

theorem inputs_feed (f : LowPass) (x : Float) : (f.feed x).x1 = x ∧ (f.feed x).x2 = f.x1 :=
  ⟨rfl, rfl⟩

theorem outputs_feed (f : LowPass) (x : Float) :
    (f.feed x).output = (f.feed x).y1 ∧ (f.feed x).y2 = f.output :=
  ⟨rfl, rfl⟩

end LowPass

end Chiptune
