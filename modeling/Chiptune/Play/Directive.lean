import Chiptune.Audio.Mixer
import Chiptune.Score.Note

/-!
# Directives

Some commands are not about the track they stand in but about the whole song: its volume, filter,
speed and course. A directive is what such a command asks for.

* `channels_onMixer`: no directive touches a channel.
-/

namespace Chiptune

/-- A row of a step. -/
structure Place where
  step : Nat
  row : Nat
  deriving DecidableEq, Repr, Inhabited

/-- Whether a place comes before another or is the same. -/
def Place.notAfter (a b : Place) : Bool :=
  a.step < b.step || (a.step = b.step && a.row ≤ b.row)

/-- What a command asks of the whole song. -/
inductive Directive where
  | nothing
  /-- Set the volume of the output. -/
  | master (volume : Nat)
  /-- Switch the filter off. -/
  | unfilter
  /-- Set the number of interrupts that a row lasts. -/
  | speed (interrupts : Nat)
  /-- Go on at the first row of a step. -/
  | jump (step : Nat)
  /-- Go on at a row of the next step. -/
  | skip (row : Nat)
  deriving DecidableEq, Repr, Inhabited

namespace Directive

/-- The directive in a row. A speed outside 1 to 16 is ignored. -/
def ofNote (note : Note) : Directive :=
  let info := note.info.toNat
  match note.command with
  | .setMasterVolume => .master info
  | .disableFilter => .unfilter
  | .setSpeed => if 1 ≤ info ∧ info ≤ 16 then .speed info else .nothing
  | .positionJump => .jump info
  | .patternBreak => .skip info
  | _ => .nothing

def onMixer (d : Directive) (m : Mixer) : Mixer :=
  match d with
  | .master volume => m.setMaster volume
  | .unfilter => m.setFilter false
  | _ => m

def onSpeed (d : Directive) (current : Nat) : Nat :=
  match d with
  | .speed interrupts => interrupts
  | _ => current

/-- Where a directive in a step makes the song go on. -/
def goal? (d : Directive) (step : Nat) : Option Place :=
  match d with
  | .jump goal => some ⟨goal, 0⟩
  | .skip row => some ⟨Word.position (step + 1), row⟩
  | _ => none

/-- Where the last of some directives that has a goal makes the song go on. -/
def lastGoal? (ds : List Directive) (step : Nat) : Option Place :=
  ds.foldl (fun goal d => (d.goal? step).or goal) none

/-- No directive touches a channel. -/
@[simp]
theorem channels_onMixer (d : Directive) (m : Mixer) : (d.onMixer m).channels = m.channels := by
  cases d <;> rfl

end Directive

end Chiptune
