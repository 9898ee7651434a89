import Chiptune.Score.Instrument

/-!
# Broken chords

A broken chord plays the steps of an arpeggio preset in turn, one a tick. After the last step it goes
back to the loop, or to the first step if it has no loop.

* `position_lt`: a chord with steps is always at one of them.
-/

namespace Chiptune

/-- An arpeggio while it plays. -/
structure Chord where
  /-- Pitch offsets in semitones. -/
  steps : Array Int8
  /-- Steps before the loop. -/
  length : Nat
  /-- The step reached. -/
  position : Nat
  deriving DecidableEq, Repr

namespace Chord

def plain : Chord :=
  ⟨#[], 0, 0⟩

/-- The chord of a preset, at its first step. -/
def ofArpeggio (a : Arpeggio) : Chord :=
  ⟨a.active, min a.length.toNat a.active.size, 0⟩

/-- The chord of a preset, if one is selected. -/
def ofSelection (a : Option Arpeggio) : Chord :=
  (a.map ofArpeggio).getD plain

def current (c : Chord) : Int :=
  match c.steps[c.position]? with
  | none => 0
  | some step => step.toInt

def next (c : Chord) : Nat :=
  if c.position + 1 < c.steps.size then c.position + 1
  else if c.length < c.steps.size then c.length
  else 0

def advance (c : Chord) : Chord :=
  { c with position := c.next }

def after (c : Chord) : Nat → Chord
  | 0 => c
  | n + 1 => (c.after n).advance

@[simp]
theorem steps_after (c : Chord) (n : Nat) : (c.after n).steps = c.steps := by
  induction n with
  | zero => rfl
  | succ n ih => simpa [after, advance] using ih

/-- A chord with steps is always at one of them. -/
theorem position_lt {c : Chord} (h : c.position < c.steps.size) (n : Nat) :
    (c.after n).position < c.steps.size := by
  induction n with
  | zero => exact h
  | succ n ih =>
    simp only [after, advance, next, steps_after]
    split
    · assumption
    · split <;> omega

theorem current_bounds (c : Chord) : -128 ≤ c.current ∧ c.current ≤ 127 := by
  unfold current
  split
  · decide
  · rename_i step _
    have h1 := step.le_toInt
    have h2 := step.toInt_lt
    omega

end Chord

end Chiptune
