import Chiptune.Bytes.Decimal
import Chiptune.Score.Basic

/-!
# Summaries

A summary tells what a score holds, as lines of text: the form it came in, the sizes of its tables and
a line for each song.

* `length_songLines`: every song has a line.
-/

namespace Chiptune.Summary

/-- A number written to a width, with blanks before it. -/
def column (width n : Nat) : String :=
  let digits := Nat.repr n
  "".pushn ' ' (width - digits.length) ++ digits

def formName : Encoding → String
  | .chunked => "SOAR"
  | .offsetTable => "offset table"

/-- The line of a song, without its end. -/
def songLine (index : Nat) (song : Song) : String :=
  "  " ++ column 2 index ++ ": steps " ++ column 3 song.first.toNat ++ "-" ++
    column 3 song.last.toNat ++ " repeat " ++ column 3 song.repeatFrom.toNat ++ " rows " ++
    column 3 song.rows.toNat ++ " speed " ++ column 2 song.speed.toNat ++ " @ " ++
    column 3 song.interruptRate.toNat ++ " Hz, ~" ++ Decimal.onePlace song.passDuration ++ " s"

def songLines (score : Score) : List String :=
  score.songs.toList.mapIdx songLine

def lines (score : Score) : List String :=
  ["Format:      " ++ formName score.encoding ++ " (" ++ score.versionText ++ ")"] ++
  (score.author.toList.map fun author => "Author:      " ++ author) ++
  ["Steps:       " ++ Nat.repr score.stepCount,
    "Notes:       " ++ Nat.repr score.notes.size,
    "Instruments: " ++ Nat.repr score.instruments.size,
    "Samples:     " ++ Nat.repr score.samples.size,
    "Waves:       " ++ Nat.repr score.waves.size ++ " (ADSR " ++
      Nat.repr score.volumeWaves.size ++ ", AMF " ++ Nat.repr score.pitchWaves.size ++ ")",
    "Songs:       " ++ Nat.repr score.songs.size] ++
  songLines score

def text (score : Score) : String :=
  String.join ((lines score).map (· ++ "\n"))

theorem length_songLines (score : Score) : (songLines score).length = score.songs.size := by
  simp [songLines]

end Chiptune.Summary
