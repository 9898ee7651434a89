import Chiptune.Bytes.Word

/-!
# Text in UTF-8

A byte string is read as a row of pieces: well-formed characters, and stretches that belong to no
character. A stretch is as long as it could still have become a character, so a cut-off character
is one stretch and a stray byte is another.

* `pieces`: the pieces of a byte string.
* `lossy`: its text, with U+FFFD for each stretch.
* `strict?`: its text, if every piece is a character.
-/

namespace Chiptune.Utf8

/-- Whether a byte lies in a closed range. -/
def within (lo hi : UInt8) (b : UInt8) : Bool :=
  lo ≤ b && b ≤ hi

/-- The ranges of the bytes that may follow a lead byte, in order; `none` for a byte that leads no
character. The second byte of some characters has a narrower range, which keeps out overlong forms,
surrogates and numbers past U+10FFFF. -/
def tail? (b : UInt8) : Option (List (UInt8 × UInt8)) :=
  if b < 0x80 then some []
  else if within 0xC2 0xDF b then some [(0x80, 0xBF)]
  else if b = 0xE0 then some [(0xA0, 0xBF), (0x80, 0xBF)]
  else if b = 0xED then some [(0x80, 0x9F), (0x80, 0xBF)]
  else if within 0xE1 0xEF b then some [(0x80, 0xBF), (0x80, 0xBF)]
  else if b = 0xF0 then some [(0x90, 0xBF), (0x80, 0xBF), (0x80, 0xBF)]
  else if within 0xF1 0xF3 b then some [(0x80, 0xBF), (0x80, 0xBF), (0x80, 0xBF)]
  else if b = 0xF4 then some [(0x80, 0x8F), (0x80, 0xBF), (0x80, 0xBF)]
  else none

/-- The leading bytes that lie in the ranges, each in its own. -/
def accepted : List (UInt8 × UInt8) → Bytes → Bytes
  | (lo, hi) :: ranges, b :: rest => if within lo hi b then b :: accepted ranges rest else []
  | _, _ => []

theorem length_accepted_le (ranges : List (UInt8 × UInt8)) (s : Bytes) :
    (accepted ranges s).length ≤ s.length := by
  induction ranges generalizing s with
  | nil => simp [accepted]
  | cons r ranges ih =>
    cases s with
    | nil => simp [accepted]
    | cons b rest =>
      have := ih rest
      simp only [accepted]
      split
      · simp only [List.length_cons]
        omega
      · simp

/-- The scalar value of a well-formed character from its lead byte and the bytes after it: each of
those carries six bits, the lead byte the rest. -/
def scalar (lead : UInt8) (rest : Bytes) : Nat :=
  let high := match rest.length with
    | 0 => lead.toNat
    | 1 => lead.toNat % 32
    | 2 => lead.toNat % 16
    | _ => lead.toNat % 8
  rest.foldl (fun n b => n * 64 + b.toNat % 64) high

/-- A piece of a byte string. -/
inductive Piece where
  | char (c : Char)
  /-- A stretch of bytes that belongs to no character. -/
  | stray
  deriving DecidableEq, Repr

/-- The first piece of a nonempty byte string and the number of bytes it takes past the first. -/
def firstPiece (lead : UInt8) (rest : Bytes) : Piece × Nat :=
  match tail? lead with
  | none => (.stray, 0)
  | some ranges =>
    let more := accepted ranges rest
    if more.length = ranges.length then (.char (Char.ofNat (scalar lead more)), more.length)
    else (.stray, more.length)

/-- The pieces of a byte string, in order. -/
def pieces : Bytes → List Piece
  | [] => []
  | lead :: rest => (firstPiece lead rest).1 :: pieces (rest.drop (firstPiece lead rest).2)
  termination_by s => s.length
  decreasing_by simp only [List.length_cons, List.length_drop]; omega

def Piece.shown : Piece → Char
  | .char c => c
  | .stray => '\uFFFD'

/-- The text of a byte string, with U+FFFD for each stretch that belongs to no character. -/
def lossy (s : Bytes) : String :=
  String.ofList ((pieces s).map Piece.shown)

/-- The text of a byte string, if it is well-formed throughout. -/
def strict? (s : Bytes) : Option String :=
  if .stray ∈ pieces s then none else some (lossy s)

end Chiptune.Utf8
