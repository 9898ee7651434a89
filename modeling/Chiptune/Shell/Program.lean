import Chiptune.Shell.Arguments

/-!
# The program

A run of the program on a disk: its words are read, and if they ask for a job it is done.

* `run_usage`: words that make no sense change no file.
-/

namespace Chiptune.Shell

def versionLine : String :=
  "sonic-arranger 0.1.0\n"

def helpText : String :=
  "Usage: [OPTIONS] <COMMAND>\n\nCommands:\n" ++
  "  convert <INPUT> <OUTPUT>  Renders a song to WAV, or to bare PCM for .raw/.pcm outputs\n" ++
  "  decode <INPUT> <OUTPUT>   Re-encodes a module in the editable SOAR form\n" ++
  "  info <INPUT>              Prints the module summary\n"

/-- What a request that is no job shows; `none` for a job. -/
def Request.answer? : Request → Option Outcome
  | .missing => some ⟨2, none, ""⟩
  | .help => some ⟨0, none, helpText⟩
  | .version => some ⟨0, none, versionLine⟩
  | .usage => some ⟨2, none, ""⟩
  | .job _ => none

def run (words : List String) (d : Disk) : Outcome × Disk :=
  match parse words with
  | .job j => j.run d
  | request => (request.answer?.getD default, d)

/-- What a run shows on the standard output: what it printed, and what it stored there. -/
def shown (o : Outcome) (d : Disk) : String :=
  o.printed ++ Utf8.lossy (d.held Disk.standardOutput)

/-- Words that make no sense change no file. -/
theorem run_usage {words : List String} (h : parse words = .usage) (d : Disk) :
    run words d = (⟨2, none, ""⟩, d) := by
  simp [run, h, Request.answer?]

end Chiptune.Shell
