import Chiptune.Score.Instrument
import Chiptune.Score.Wave

/-!
# Contours

A contour walks along a wave table, one entry a tick, and so gives a sound its course in volume
or pitch. It waits on the first entry, may pause once at one entry, and at the end goes back to its
loop or stays.

* `position_lt`: the walk stays inside its entries.
-/

namespace Chiptune

/-- A walk along a wave table. -/
structure Contour where
  wave : Nat
  /-- Ticks to wait on the first entry. -/
  delay : Nat
  /-- Entries before the loop. -/
  length : Nat
  /-- Entries in all. -/
  total : Nat
  /-- The entry reached. -/
  position : Nat
  /-- Ticks of the delay that are left. -/
  waiting : Nat
  /-- Where to pause and the ticks of the pause that are left. -/
  pause : Option (Nat × Nat)
  deriving DecidableEq, Repr

namespace Contour

/-- The walk of an envelope, if it has any entries. -/
def ofEnvelope? (e : Envelope) : Option Contour :=
  let total := min 128 (e.length.toNat + e.loop.toNat)
  if total = 0 then none
  else some
    { wave := e.wave.toNat, delay := e.delay.toNat, length := min e.length.toNat total, total,
      position := 0, waiting := e.delay.toNat, pause := none }

/-- The walk with a pause of some ticks when it first reaches an entry. -/
def pausing (c : Contour) (point ticks : Nat) : Contour :=
  if 0 < ticks ∧ point < c.total then { c with pause := some (point, ticks) } else c

/-- The walk along another table, from the start. -/
def along (c : Contour) (wave : Nat) : Contour :=
  { c with wave, position := 0, waiting := c.delay }

/-- The ticks of the pause that are left if the walk is pausing now. -/
def paused? (c : Contour) : Option (Nat × Nat) :=
  c.pause.filter fun p => c.position = p.1

def next (c : Contour) : Nat :=
  if c.position + 1 < c.total then c.position + 1
  else if c.length < c.total then c.length
  else c.total - 1

def advance (c : Contour) : Contour :=
  match c.paused? with
  | some (point, ticks) =>
    { c with pause := if 1 < ticks then some (point, ticks - 1) else none }
  | none =>
    if 0 < c.waiting then { c with waiting := c.waiting - 1 } else { c with position := c.next }

def after (c : Contour) : Nat → Contour
  | 0 => c
  | n + 1 => (c.after n).advance

/-- The volume that the walk has reached, out of 64; full volume where the table is missing. -/
def volume (c : Contour) (tables : Array Wave) : Nat :=
  match tables[c.wave]? with
  | none => 64
  | some w => min 64 (w.byte c.position).toNat

/-- The period offset that the walk has reached; none where the table is missing. -/
def offset (c : Contour) (tables : Array Wave) : Int :=
  match tables[c.wave]? with
  | none => 0
  | some w => w.level c.position

/-- The walk one tick later stays inside its entries. -/
theorem position_advance_lt {c : Contour} (h : c.position < c.total) :
    c.advance.position < c.advance.total := by
  unfold advance
  split
  · exact h
  · split
    · exact h
    · unfold next
      simp only
      split
      · assumption
      · split <;> omega

theorem position_lt {c : Contour} (h : c.position < c.total) (n : Nat) :
    (c.after n).position < (c.after n).total := by
  induction n with
  | zero => exact h
  | succ n ih => exact position_advance_lt ih

theorem volume_le (c : Contour) (tables : Array Wave) : c.volume tables ≤ 64 := by
  unfold volume
  split <;> omega

theorem offset_bounds (c : Contour) (tables : Array Wave) :
    -128 ≤ c.offset tables ∧ c.offset tables ≤ 127 := by
  unfold offset
  split
  · decide
  · exact Wave.level_bounds _ _

end Contour

end Chiptune
