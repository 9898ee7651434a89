import Chiptune.File.Basic
import Chiptune.Play.Stream
import Chiptune.Render.Summary
import Chiptune.Render.Wav

/-!
# Sessions

A session holds one score and does with it what a user asks for: load another, save it, render a song
as bare samples or as a WAV file, or tell what it holds.

* `wav_eq`: a rendered WAV file holds the unsigned samples.
-/

namespace Chiptune

/-- Why a session does not do what it is asked for. -/
inductive SessionFault where
  /-- The score cannot be read or written. -/
  | load (fault : FileFault)
  /-- The song cannot be rendered to its end. -/
  | stream (fault : StreamFault)
  /-- The song cannot be started. -/
  | range (fault : RangeFault)
  /-- The file cannot be written. -/
  | disk (fault : DiskFault)
  deriving DecidableEq, Repr, Inhabited

def SessionFault.message : SessionFault → String
  | .load fault => "failed to load module: " ++ fault.message
  | .stream fault => fault.message
  | .range fault => fault.message
  | .disk fault => "i/o error: " ++ fault.message

/-- A score in use. -/
structure Session where
  score : Score
  deriving Repr, Inhabited

namespace Session

/-- A session without a score of its own. -/
def empty : Session :=
  ⟨{}⟩

/-- The session with the score of a module file. -/
def load (content : Bytes) : Except SessionFault Session :=
  match ModuleFile.decode content with
  | .error fault => .error (.load fault)
  | .ok score => .ok ⟨score⟩

/-- The session with the score of a file that was read, or not. -/
def loadFile (content : Except DiskFault Bytes) : Except SessionFault Session :=
  match content with
  | .error fault => .error (.load (.disk fault))
  | .ok content => load content

def save (s : Session) : Except SessionFault Bytes :=
  match ModuleFile.encode s.score with
  | .error fault => .error (.load fault)
  | .ok content => .ok content

def stream (s : Session) (song : Nat) (setup : Setup) : Except SessionFault Stream :=
  match Stream.start s.score song setup with
  | .error fault => .error (.range fault)
  | .ok stream => .ok stream

/-- The samples of a whole song, with at most the given number of loops. -/
def render (s : Session) (song : Nat) (setup : Setup) (loops : Nat) (unsigned : Bool) :
    Except SessionFault (Array UInt8) :=
  match s.stream song setup with
  | .error fault => .error fault
  | .ok stream => match (stream.write loops true unsigned .endless).whole with
    | .error fault => .error (.stream fault)
    | .ok pcm => .ok pcm

/-- The WAV file of a whole song, with at most the given number of loops. -/
def wav (s : Session) (song : Nat) (setup : Setup) (loops : Nat) :
    Except SessionFault (Array UInt8) :=
  match s.render song setup loops true with
  | .error fault => .error fault
  | .ok pcm => .ok (Wav.encode setup.rate setup.outputs pcm)

def summary (s : Session) : String :=
  Summary.text s.score

/-- A rendered WAV file holds the unsigned samples. -/
theorem wav_eq (s : Session) (song : Nat) (setup : Setup) (loops : Nat) :
    s.wav song setup loops =
      (s.render song setup loops true).map (Wav.encode setup.rate setup.outputs) := by
  unfold wav
  split <;> rename_i h <;> simp [h, Except.map]

end Session

end Chiptune
