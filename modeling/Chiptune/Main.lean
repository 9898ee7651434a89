import Chiptune.Shell.Program

/-!
# The command line

Reads the input, lets the job work it out, and stores or prints what comes of it.
-/

namespace Chiptune.Shell

/-- The number of a system fault; some operations report its negative. -/
def faultNumber (code : UInt32) : Nat :=
  if code < 0x80000000 then code.toNat else (0 - code).toNat

def numberedFault (number : Nat) (text : String) : DiskFault :=
  match number with
  | 2 => .noSuchFile
  | 13 => .noPermission
  | 20 => .notDirectory
  | 21 => .isDirectory
  | 28 => .noSpace
  | 36 => .nameTooLong
  | _ => .other text number

/-- What the system said about a failed operation. -/
def diskFault : IO.Error → DiskFault
  | .noFileOrDirectory .. => .noSuchFile
  | .resourceExhausted _ code text => numberedFault (faultNumber code) text
  | .inappropriateType _ code text => numberedFault (faultNumber code) text
  | .invalidArgument _ code text => numberedFault (faultNumber code) text
  | .permissionDenied _ code text => numberedFault (faultNumber code) text
  | e => .other (toString e) 5

def readContent (path : String) : IO (Except DiskFault Bytes) := do
  try
    let bytes ← IO.FS.readBinFile path
    return .ok bytes.toList
  catch e => return .error (diskFault e)

/-- Writes some content to an open file and tells why that failed, if it did. -/
def writeContent (handle : IO.FS.Handle) (content : Bytes) : IO (Option StoreFault) := do
  try
    handle.write ⟨content.toArray⟩
    handle.flush
    return none
  catch e => return some (.write (diskFault e))

/-- Stores a file and tells why that failed, if it did. -/
def storeContent (path : String) (content : Bytes) : IO (Option StoreFault) := do
  try
    writeContent (← IO.FS.Handle.mk path .write) content
  catch e => return some (.create (diskFault e))

/-- Shows an outcome and gives its exit code. -/
def report (o : Outcome) : IO UInt32 := do
  IO.print o.printed
  if let some line := o.message then IO.eprintln line
  return UInt32.ofNat o.code

def perform (j : Job) : IO UInt32 := do
  match j.produce (← readContent j.input) with
  | .error failure => report (.failed failure)
  | .ok (.text text) => report (.done text)
  | .ok (.file path content) => match ← storeContent path content with
    | some fault => report (.failed (.store path fault))
    | none => report (.done "")

end Chiptune.Shell

open Chiptune.Shell in
def main (args : List String) : IO UInt32 := do
  match parse args with
  | .job j => perform j
  | .usage => do
    IO.eprint helpText
    return 2
  | .missing => do
    IO.eprint helpText
    return 2
  | request => report (request.answer?.getD default)
