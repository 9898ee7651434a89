import Chiptune.Bytes.Word

/-!
# Labels

Names lie in fixed fields that a zero byte closes. A label is shown in printable ASCII, one character
for each byte, so its length on the screen is its length in the field.

* `length_shown_le`: a shown label is no longer than its field.
-/

namespace Chiptune.Label

/-- Printable ASCII bytes are shown as they are, all others as a question mark. -/
def glyph (b : UInt8) : Char :=
  if 0x20 ≤ b ∧ b < 0x7F then Char.ofNat b.toNat else '?'

/-- The characters of a label up to the zero byte that closes it. -/
def chars (field : Bytes) : List Char :=
  (field.takeWhile (· ≠ 0)).map glyph

def shown {n : Nat} (field : Vector UInt8 n) : String :=
  String.ofList (chars field.toList)

theorem length_chars_le (field : Bytes) : (chars field).length ≤ field.length := by
  simpa [chars] using (List.takeWhile_sublist _).length_le

/-- A label is no longer than its field. -/
theorem length_shown_le {n : Nat} (field : Vector UInt8 n) : (shown field).length ≤ n := by
  simpa [shown] using length_chars_le field.toList

end Chiptune.Label
