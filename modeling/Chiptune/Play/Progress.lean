import Chiptune.Play.Directive
import Chiptune.Score.Song

/-!
# Progress through a song

Where a song stands, apart from how it sounds: the next row, the speed, the interrupts and loops so
far. After each row the song goes on to the next one, or where a directive leads. When it passes its
last step, or a directive leads back, the song either loops or ends.

* `ends_iff`: when a row ends the song.
* `row_nextPlace_lt`: the next row is a row of the song.
-/

namespace Chiptune

/-- Where a song stands. -/
structure Progress where
  place : Place
  /-- Interrupts that a row lasts. -/
  speed : Nat
  /-- Interrupts so far, up to the end of the song. -/
  interrupts : Nat
  /-- Loops so far. A counter of 32 bits agrees up to `2 ^ 32 - 1` of them, and as there are no more loops
  than interrupts it does for at least eight months of sound. -/
  loops : Nat
  /-- Loops that are allowed, if that is limited. -/
  loopLimit : Option Nat
  deriving DecidableEq, Repr

namespace Progress

def start (song : Song) : Progress :=
  { place := ⟨song.first.toNat, 0⟩, speed := song.speed.toNat, interrupts := 0, loops := 0,
    loopLimit := none }

/-- The start of a song, under the same loop limit. -/
def restart (song : Song) (p : Progress) : Progress :=
  { start song with loopLimit := p.loopLimit }

def isDue (p : Progress) : Bool :=
  p.interrupts % p.speed = 0

def counted (p : Progress) : Progress :=
  { p with interrupts := p.interrupts + 1 }

def mayLoop (p : Progress) (looping : Bool) : Bool :=
  looping && p.loopLimit.all (p.loops < ·)

/-- The place after the current one, or the goal of a directive; a place past the end of a step is
the start of the next step. -/
def nextPlace (song : Song) (p : Progress) (goal : Option Place) : Place :=
  let next := goal.getD ⟨p.place.step, p.place.row + 1⟩
  if next.row < song.rows.toNat then next
  else ⟨(goal.map Place.step).getD (p.place.step + 1), 0⟩

/-- Whether a place is past the last step of the song. -/
def isPast (song : Song) (place : Place) : Bool :=
  song.last.toNat < place.step

/-- Whether going from the current place to the next one, by a directive or not, is the end of a
pass: it leaves the song, or a directive leads back. -/
def closesPass (song : Song) (p : Progress) (goal : Option Place) : Bool :=
  let next := p.nextPlace song goal
  isPast song next || (goal.isSome && next.notAfter p.place)

/-- The progress after a row whose directives have the given goal. -/
def turn (song : Song) (looping : Bool) (p : Progress) (goal : Option Place) : Progress :=
  let next := p.nextPlace song goal
  if p.closesPass song goal && p.mayLoop looping then
    let step := if isPast song next then song.loopTarget else next.step
    { p with place := { next with step }, loops := p.loops + 1 }
  else { p with place := next }

/-- Whether a row whose directives have the given goal ends the song. -/
def ends (song : Song) (looping : Bool) (p : Progress) (goal : Option Place) : Bool :=
  p.closesPass song goal && !p.mayLoop looping

/-- A row ends the song exactly if it closes a pass and no loop is left. -/
theorem ends_iff (song : Song) (looping : Bool) (p : Progress) (goal : Option Place) :
    p.ends song looping goal = true ↔
      p.closesPass song goal = true ∧ p.mayLoop looping = false := by
  simp [ends]

/-- The next row is a row of a step, or the first one. -/
theorem row_nextPlace_lt (song : Song) (p : Progress) (goal : Option Place) :
    (p.nextPlace song goal).row < max 1 song.rows.toNat := by
  unfold nextPlace
  simp only
  split
  · omega
  · simp only
    omega

/-- A turn changes neither the speed nor the count of interrupts. -/
theorem speed_turn (song : Song) (looping : Bool) (p : Progress) (goal : Option Place) :
    (p.turn song looping goal).speed = p.speed ∧
      (p.turn song looping goal).interrupts = p.interrupts := by
  unfold turn
  split <;> exact ⟨rfl, rfl⟩

end Progress

end Chiptune
