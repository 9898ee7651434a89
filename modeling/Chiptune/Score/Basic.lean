import Chiptune.Bytes.Utf8
import Chiptune.Score.Wave
import Chiptune.Score.Song
import Chiptune.Score.Note
import Chiptune.Score.Instrument
import Chiptune.Score.Sample

/-!
# Scores

A score is everything that a module file holds: songs, the parts of each step, the notes, and the
instruments, samples and wave tables that they are played with.

* `part?_of_small`: parts lie step by step, four to a step.
-/

namespace Chiptune

/-- The forms that a module file comes in. -/
inductive Encoding where
  /-- Tagged chunks, as the editor saves them. -/
  | chunked
  /-- Tables found through a list of offsets, as in a player program. -/
  | offsetTable
  deriving DecidableEq, Repr, Inhabited

/-- The version mark of a score whose file gives none. -/
def standardVersion : Vector UInt8 4 :=
  #v[0x56, 0x31, 0x2E, 0x30]

/-- Everything that a module file holds. -/
structure Score where
  /-- The form that the score was read from. -/
  encoding : Encoding := .chunked
  version : Vector UInt8 4 := standardVersion
  /-- Name of the author, in the form that has one. -/
  author : Option String := none
  songs : Array Song := #[]
  /-- Parts, four to a step. -/
  parts : Array Part := #[]
  notes : Array Note := #[]
  instruments : Array Instrument := #[]
  samples : Array Sample := #[]
  waves : Array Wave := #[]
  /-- Tables of volume envelopes. -/
  volumeWaves : Array Wave := #[]
  /-- Tables of pitch envelopes. -/
  pitchWaves : Array Wave := #[]
  /-- State of the editor, which play never looks at. -/
  editor : Option (Vector UInt8 20) := none
  deriving DecidableEq, Repr, Inhabited

namespace Score

variable (score : Score)

def partsPerStep : Nat := 4

def versionText : String :=
  (Utf8.strict? score.version.toList).getD "????"

/-- Number of complete steps. -/
def stepCount : Nat :=
  score.parts.size / partsPerStep

/-- The part that a channel plays in a step. -/
def part? (step channel : Nat) : Option Part :=
  if channel < partsPerStep then score.parts[Word.position (step * partsPerStep + channel)]?
  else none

/-- The note of a part in a row. -/
def note? (part : Part) (row : Nat) : Option Note :=
  score.notes[Word.position (part.start.toNat + row)]?

/-- The part and the note that a channel plays in a row of a step; a plain part and a blank note
where the tables end. -/
def row (step channel row : Nat) : Part × Note :=
  match score.part? step channel with
  | none => (.plain, .blank)
  | some part => (part, (score.note? part row).getD .blank)

/-- Parts lie step by step, four to a step. -/
theorem part?_of_small {step channel : Nat} (hs : step < 0x2000000000000000) (hc : channel < 4) :
    score.part? step channel = score.parts[step * 4 + channel]? := by
  have hp : step * 4 + channel < 0x10000000000000000 := by omega
  unfold part? partsPerStep
  rw [if_pos hc, Word.position_of_lt hp]

/-- A step that lies partly past the end of the table is not counted. -/
theorem stepCount_mul_le : score.stepCount * partsPerStep ≤ score.parts.size :=
  Nat.div_mul_le_self _ _

end Score

end Chiptune
