import Chiptune.Render.Session
import Chiptune.Shell.Disk

/-!
# Jobs

A job is what the program does when it is started: convert a song to samples, re-encode a module, or print
what it holds. Everything is worked out before an output is touched, so a job that fails on its
input leaves all files alone.

* `disk_run_info`: printing a summary changes no file.
-/

namespace Chiptune.Shell

/-- How a song is rendered. -/
structure Rendering where
  setup : Setup := {}
  song : Nat := 0
  /-- Most loops. -/
  loops : Nat := 0
  /-- Whether bare samples have their silence at 128. -/
  unsignedRaw : Bool := false
  deriving DecidableEq, Repr, Inhabited

/-- What the program is told to do. -/
inductive Job where
  /-- Render a song of a module to a file. -/
  | convert (input output : String) (how : Rendering)
  /-- Write a module in the chunked form. -/
  | decode (input output : String)
  | info (input : String)
  deriving DecidableEq, Repr, Inhabited

/-- Why a job fails. -/
inductive Failure where
  /-- The input is not a module. -/
  | load (path : String) (fault : SessionFault)
  /-- The module cannot be rendered or encoded. -/
  | process (fault : SessionFault)
  /-- The output cannot be stored. -/
  | store (path : String) (fault : StoreFault)
  deriving DecidableEq, Repr, Inhabited

namespace Failure

def code : Failure → Nat
  | .load _ _ => 1
  | .process _ => 2
  | .store _ (.create _) => 3
  | .store _ (.write _) => 4

def message : Failure → String
  | .load path fault => path ++ ": " ++ fault.message
  | .process fault => fault.message
  | .store path (.create fault) => "cannot create " ++ path ++ ": " ++ fault.message
  | .store path (.write fault) => "cannot write " ++ path ++ ": " ++ fault.message

end Failure

/-- What a job makes of its input. -/
inductive Product where
  | text (text : String)
  /-- A file to store. -/
  | file (path : String) (content : Bytes)
  deriving DecidableEq, Repr, Inhabited

/-- Whether a path asks for bare samples. -/
def isRaw (path : String) : Bool :=
  match Path.extension? path with
  | none => false
  | some ext => Path.sameLetters ext "raw" || Path.sameLetters ext "pcm"

namespace Job

def input : Job → String
  | .convert input _ _ => input
  | .decode input _ => input
  | .info input => input

/-- What a rendered song is stored as: bare samples or a WAV file, as its path asks for. -/
def rendered (s : Session) (output : String) (how : Rendering) :
    Except SessionFault (Array UInt8) :=
  if isRaw output then s.render how.song how.setup how.loops how.unsignedRaw
  else s.wav how.song how.setup how.loops

/-- What a job makes of a loaded session. -/
def produceFrom (j : Job) (s : Session) : Except SessionFault Product :=
  match j with
  | .convert _ output how => (rendered s output how).map fun pcm => .file output pcm.toList
  | .decode _ output => s.save.map (.file output)
  | .info _ => .ok (.text s.summary)

def produce (j : Job) (content : Except DiskFault Bytes) : Except Failure Product :=
  match Session.loadFile content with
  | .error fault => .error (.load j.input fault)
  | .ok s => match j.produceFrom s with
    | .error fault => .error (.process fault)
    | .ok product => .ok product

end Job

/-- What a run of the program shows. -/
structure Outcome where
  code : Nat
  /-- The line about a failure. -/
  message : Option String
  printed : String
  deriving DecidableEq, Repr, Inhabited

namespace Outcome

def done (printed : String) : Outcome :=
  ⟨0, none, printed⟩

def failed (f : Failure) : Outcome :=
  ⟨f.code, some ("error: " ++ f.message), ""⟩

end Outcome

def Job.run (j : Job) (d : Disk) : Outcome × Disk :=
  match j.produce (d.read j.input) with
  | .error failure => (.failed failure, d)
  | .ok (.text text) => (.done text, d)
  | .ok (.file path content) => match d.store path content with
    | (some fault, d) => (.failed (.store path fault), d)
    | (none, d) => (.done "", d)

/-- Printing a summary changes no file. -/
theorem disk_run_info (input : String) (d : Disk) : ((Job.info input).run d).2 = d := by
  unfold Job.run
  split
  · rfl
  · rfl
  · rename_i h
    simp only [Job.produce, Job.produceFrom] at h
    split at h <;> simp at h

end Chiptune.Shell
