import Chiptune.Bytes.Word
import Chiptune.Score.Instrument
import Chiptune.Tone.Noise

/-!
# Shapers

A synthetic voice plays a copy of its waveform, and an effect reshapes the copy while it plays. The
effect makes a step, then waits for its delay. A step fills a window with new bytes, or moves
the period; some effects work at a cursor that goes round in the window.

The period offset is added up in a 32-bit register. Where a sum does not fit, a program that checks for
overflow stops. Here the register goes on with what is left of the sum, as it does without the check, and
`overflowed` tells that the program with the check has stopped.

* `Window.next_mem`: the cursor stays in the window.
* `wave_advance_of_unchanged`: a tick that reports no change leaves the waveform alone.
-/

namespace Chiptune

/-- A stretch of a wave table, both ends included. -/
structure Window where
  first : Nat
  last : Nat
  first_le_last : first ≤ last
  last_lt : last < 128
  deriving DecidableEq, Repr

namespace Window

/-- The window between two positions, either of which may come first. -/
def between (a b : Nat) : Window :=
  ⟨min (min a 127) (min b 127), max (min a 127) (min b 127), by omega, by omega⟩

def contains (w : Window) (i : Nat) : Bool :=
  w.first ≤ i && i ≤ w.last

/-- How many positions the window has. -/
def size (w : Window) : Nat :=
  w.last + 1 - w.first

/-- The position after another, going round in the window. -/
def next (w : Window) (i : Nat) : Nat :=
  if w.last ≤ i then w.first else i + 1

/-- The position before another, going round in the window. -/
def previous (w : Window) (i : Nat) : Nat :=
  if w.first < i then i - 1 else w.last

theorem contains_iff (w : Window) (i : Nat) :
    w.contains i = true ↔ w.first ≤ i ∧ i ≤ w.last := by
  simp [contains]

theorem first_mem (w : Window) : w.contains w.first :=
  (w.contains_iff _).2 ⟨Nat.le_refl _, w.first_le_last⟩

theorem next_mem {w : Window} {i : Nat} (h : w.contains i) : w.contains (w.next i) := by
  have := w.first_le_last
  simp only [contains_iff] at *
  unfold next
  split <;> omega

theorem previous_mem {w : Window} {i : Nat} (h : w.contains i) : w.contains (w.previous i) := by
  have := w.first_le_last
  simp only [contains_iff] at *
  unfold previous
  split <;> omega

end Window

/-- The negative of a signed byte; the lowest is its own negative. -/
def negated (b : UInt8) : UInt8 :=
  0 - b

/-- A signed byte one nearer to another. -/
def towards (b target : UInt8) : UInt8 :=
  if b.toInt8.toInt < target.toInt8.toInt then b + 1
  else if target.toInt8.toInt < b.toInt8.toInt then b - 1
  else b

def ofLevel (n : Int) : UInt8 :=
  (Int8.ofInt n).toUInt8

/-- A waveform while an effect reshapes it. -/
structure Shaper where
  /-- What is done in a step. -/
  effect : Effect
  /-- An amount, or the number of another waveform. -/
  amount : UInt16
  /-- Steps that a sweep takes. -/
  limit : Nat
  /-- Ticks that pass between two steps. -/
  delay : Nat
  window : Window
  initial : Wave
  wave : Wave
  /-- Ticks to wait before the next step. -/
  waiting : Nat
  /-- Position of the next step in the window. -/
  cursor : Nat
  /-- Period offset gathered so far. -/
  offset : Int
  /-- Whether a period offset has not fitted its register. -/
  overflowed : Bool
  /-- Steps of a sweep made so far. -/
  steps : Nat
  /-- Whether the waveform is the negative of the one at the start. -/
  flipped : Bool
  /-- Source of noise. -/
  noise : Noise
  deriving DecidableEq, Repr

namespace Shaper

/-- The shaper of an instrument's effect on a waveform, before its first step. -/
def start (r : Reshaping) (wave : Wave) (seed : UInt64) : Shaper :=
  let window := Window.between r.left.toNat r.right.toNat
  { effect := r.effect, amount := r.amount, limit := r.right.toNat, delay := r.delay.toNat,
    window, initial := wave, wave, waiting := 0, cursor := window.first, offset := 0,
    overflowed := false, steps := 0, flipped := false, noise := .ofSeed seed }

/-- The other waveform that the amount names; zeros if there is none. -/
def otherWave (s : Shaper) (waves : Array Wave) : Wave :=
  waves[s.amount.toNat]?.getD .silent

/-- The shaper with one byte of its wave replaced. -/
def put (s : Shaper) (i : Nat) (b : UInt8) : Shaper :=
  { s with wave := s.wave.put i b }

/-- The shaper with so many bytes of its wave from one on replaced in turn, each by a byte that is found
from the wave as it is by then. -/
def stretch (s : Shaper) (first count : Nat) (f : Wave → Nat → UInt8) : Shaper :=
  { s with wave := s.wave.rewritten first count f }

/-- The shaper with the bytes of its window replaced in turn. -/
def rewritten (s : Shaper) (f : Wave → Nat → UInt8) : Shaper :=
  s.stretch s.window.first s.window.size f

/-- The shaper with its cursor at the next position. -/
def moved (s : Shaper) : Shaper :=
  { s with cursor := s.window.next s.cursor }

/-- A byte added to every byte of the window. -/
def raisedBy (s : Shaper) (b : UInt8) : Shaper :=
  s.rewritten fun v i => v.byte i + b

/-- The byte before the cursor restored, and then the one at the cursor negated. -/
def negatedAtCursor (s : Shaper) : Shaper :=
  let before := s.window.previous s.cursor
  (s.put before (s.initial.byte before)).put s.cursor (negated (s.initial.byte s.cursor))

/-- The bytes of the window exchanged in pairs; an odd one at the end stays. -/
def swappedPairs (s : Shaper) : Shaper :=
  let exchange (v : Wave) (k : Nat) := v.swapped (s.window.first + 2 * k)
  { s with wave := (List.range (s.window.size / 2)).foldl exchange s.wave }

/-- The period offset moved by the amount, in a 32-bit register. -/
def shifted (s : Shaper) : Shaper :=
  let sum := s.offset + s.amount.toInt16.toInt
  { s with offset := Word.signed32 sum, overflowed := s.overflowed || !Word.fits32 sum }

def step (waves : Array Wave) (s : Shaper) : Shaper :=
  match s.effect with
  | .none => s
  | .negateByte => (s.put s.cursor (negated (s.wave.byte s.cursor))).moved
  | .negateRun =>
    (s.rewritten fun _ i =>
      if i ≤ s.cursor then negated (s.initial.byte i) else s.initial.byte i).moved
  | .raise => s.raisedBy s.amount.toUInt8
  | .rotate => s.rewritten fun _ i => s.wave.byte (s.window.next i)
  | .blend =>
    let other := s.otherWave waves
    s.rewritten fun v i => v.byte i + other.byte i
  | .negateOne => s.negatedAtCursor.moved
  | .raiseByWave => (s.raisedBy ((s.otherWave waves).byte s.cursor)).moved
  | .raiseAndNegate => (s.raisedBy ((s.otherWave waves).byte s.cursor)).negatedAtCursor.moved
  | .approach =>
    let other := s.otherWave waves
    s.rewritten fun v i => towards (v.byte i) (other.byte i)
  | .sweep => if s.steps < s.limit then { s.shifted with steps := s.steps + 1 } else s
  | .swapPairs => s.swappedPairs
  | .noiseByte =>
    let (b, noise) := s.noise.byte
    { (s.put s.cursor b).moved with noise }
  | .smooth =>
    -- the last byte of the window has no neighbour in it, and stays
    s.stretch s.window.first (s.window.size - 1) fun v i =>
      ofLevel ((v.level i + v.level (i + 1)).tdiv 2)
  | .smoothWide =>
    -- neighbours are read as they were before the step
    s.stretch (s.window.first + 1) (s.window.size - 2) fun _ i =>
      ofLevel ((s.wave.level (i - 1) + 2 * s.wave.level i + s.wave.level (i + 1)).tdiv 4)
  | .flip =>
    let flipped := !s.flipped
    { s.rewritten fun _ i => if flipped then negated (s.initial.byte i) else s.initial.byte i with
      flipped }
  | .noise =>
    -- a whole table is drawn, however narrow the window is
    let (bytes, noise) := s.noise.wave
    { s.rewritten fun _ i => bytes.byte i with noise }
  | .drift => s.shifted
  | .other _ _ => s

/-- Whether a step counts as a change of the waveform. Nearing another waveform counts as long as
some byte of the window differs from it. -/
def changes (waves : Array Wave) (s : Shaper) : Bool :=
  match s.effect with
  | .none | .sweep | .drift | .other _ _ => false
  | .approach =>
    let other := s.otherWave waves
    (List.range 128).any fun i => s.window.contains i && s.wave.byte i != other.byte i
  | _ => true

def isDue (s : Shaper) : Bool :=
  s.waiting = 0

def advance (waves : Array Wave) (s : Shaper) : Shaper :=
  if s.isDue then { s.step waves with waiting := s.delay } else { s with waiting := s.waiting - 1 }

/-- Whether the next tick counts as a change of the waveform. -/
def changed (waves : Array Wave) (s : Shaper) : Bool :=
  s.isDue && s.changes waves

def after (waves : Array Wave) (s : Shaper) : Nat → Shaper
  | 0 => s
  | n + 1 => (s.after waves n).advance waves

theorem towards_self (b : UInt8) : towards b b = b := by
  simp [towards]

/-- A step that does not count as a change leaves the waveform alone. -/
theorem wave_step_of_unchanged {waves : Array Wave} {s : Shaper}
    (h : s.changes waves = false) : (s.step waves).wave = s.wave := by
  cases he : s.effect <;> simp only [changes, he, Bool.true_eq_false] at h <;> simp only [step, he]
  case sweep => split <;> rfl
  case drift => rfl
  case approach =>
    -- each byte of the window is the other wave's already
    refine Wave.rewritten_of_eq fun i hfirst hlast => ?_
    have hfit := s.window.last_lt
    have hle := s.window.first_le_last
    unfold Window.size at hlast
    have hc : s.window.contains i = true := (s.window.contains_iff i).2 ⟨hfirst, by omega⟩
    have hsame := List.any_eq_false.1 h i (by rw [List.mem_range]; omega)
    simp only [hc, Bool.true_and, bne_iff_ne, ne_eq, Decidable.not_not] at hsame
    rw [hsame, towards_self]

/-- A tick that reports no change leaves the waveform alone. -/
theorem wave_advance_of_unchanged {waves : Array Wave} {s : Shaper}
    (h : s.changed waves = false) : (s.advance waves).wave = s.wave := by
  unfold advance
  split
  · rename_i due
    simp only [changed, due, Bool.true_and] at h
    exact wave_step_of_unchanged h
  · rfl

end Shaper

end Chiptune
