import Chiptune.Bytes.Utf8

/-!
# Why a module file is refused

Reading never gives part of a score: the first fault met ends it.
-/

namespace Chiptune

/-- A table of a module file. -/
inductive Table where
  | songs
  | parts
  | notes
  | instruments
  | samples
  | waves
  | volumeWaves
  | pitchWaves
  deriving DecidableEq, Repr, Inhabited

/-- The table in the singular, as messages about writing name it. -/
def Table.single : Table → String
  | .songs => "song"
  | .parts => "voice"
  | .notes => "note"
  | .instruments => "instrument"
  | .samples => "sample"
  | .waves => "synth wave"
  | .volumeWaves => "ADSR wave"
  | .pitchWaves => "AMF wave"

/-- The table in the plural, as messages about reading name it. -/
def Table.plural (t : Table) : String :=
  t.single ++ "s"

/-- What an operating system says about a file operation that failed. -/
inductive DiskFault where
  | noSuchFile
  | notDirectory
  | isDirectory
  | noSpace
  | noPermission
  /-- A name, or a whole path, with too many bytes. -/
  | nameTooLong
  /-- A path with a zero byte, which the system is not even asked about. -/
  | zeroInName
  /-- Anything else, with its description and number. -/
  | other (text : String) (number : Nat)
  deriving DecidableEq, Repr, Inhabited

/-- The system's own text for a failed file operation. -/
def DiskFault.message : DiskFault → String
  | .noSuchFile => "No such file or directory (os error 2)"
  | .notDirectory => "Not a directory (os error 20)"
  | .isDirectory => "Is a directory (os error 21)"
  | .noSpace => "No space left on device (os error 28)"
  | .noPermission => "Permission denied (os error 13)"
  | .nameTooLong => "File name too long (os error 36)"
  | .zeroInName => "file name contained an unexpected NUL byte"
  | .other text number => text ++ " (os error " ++ Nat.repr number ++ ")"

/-- Why a module file is not read or not written. -/
inductive FileFault where
  /-- Too short to tell the form. -/
  | tooShort (length : Nat)
  /-- No list of offsets in it. -/
  | noStructure
  /-- A chunk with an unknown tag. -/
  | unknownChunk (tag : Bytes) (offset : Nat)
  /-- No closing mark after the samples. -/
  | noSentinel
  /-- No mark after the list of offsets. -/
  | badHeader
  /-- A table that starts before the one it follows. -/
  | decreasing (table : Table)
  /-- The input ends too early. -/
  | endOfData
  /-- A table with more records than its count can say. -/
  | tooLarge (table : Table)
  /-- The form with a list of offsets cannot be written. -/
  | unwritableForm
  /-- The file cannot be reached. -/
  | disk (fault : DiskFault)
  deriving DecidableEq, Repr, Inhabited

/-- Lower-case hexadecimal digits of a number. -/
def hexadecimal (n : Nat) : String :=
  String.ofList (Nat.toDigits 16 n)

def FileFault.message : FileFault → String
  | .tooShort length => "input too short to contain a module (" ++ Nat.repr length ++ " bytes)"
  | .noStructure => "no Sonic Arranger structure marker found"
  | .unknownChunk tag offset =>
    "unknown chunk '" ++ Utf8.lossy tag ++ "' at offset 0x" ++ hexadecimal offset
  | .noSentinel => "missing deadbeef sentinel after sample data"
  | .badHeader => "malformed legacy header"
  | .decreasing table => "legacy offset table decreases at " ++ table.plural
  | .endOfData => "unexpected end of data"
  | .tooLarge table => table.single ++ " table too large to encode"
  | .unwritableForm => "encoding to the legacy offset-table form is not supported"
  | .disk fault => fault.message

end Chiptune
