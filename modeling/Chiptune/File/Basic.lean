import Chiptune.File.Chunked
import Chiptune.File.OffsetTable

/-!
# Module files

A module file comes in two forms, told apart by its first four bytes. Both are read, the chunked one
is also written.

* `encoding?_ok_iff`: an input has a form exactly if it has four bytes.
-/

namespace Chiptune.ModuleFile

def encoding? (s : Bytes) : Except FileFault Encoding :=
  if s.length < 4 then .error (.tooShort s.length)
  else if s.take 4 = Chunked.mark then .ok .chunked
  else .ok .offsetTable

/-- The score of a module file in either form. -/
def decode (s : Bytes) : Except FileFault Score :=
  match encoding? s with
  | .error fault => .error fault
  | .ok .chunked => Chunked.decode (s.drop 4)
  | .ok .offsetTable => OffsetTable.decode s

/-- The module file of a score in a form. -/
def encodeAs (form : Encoding) (score : Score) : Except FileFault Bytes :=
  match form with
  | .chunked => Chunked.encode score
  | .offsetTable => .error .unwritableForm

def encode (score : Score) : Except FileFault Bytes :=
  encodeAs .chunked score

/-- An input has a form exactly if it has four bytes. -/
theorem encoding?_ok_iff (s : Bytes) : (∃ e, encoding? s = .ok e) ↔ 4 ≤ s.length := by
  unfold encoding?
  split
  · simp; omega
  · split <;> simp <;> omega

end Chiptune.ModuleFile
