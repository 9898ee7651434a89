/-!
# Periods

The sound hardware plays a byte every `period` ticks of half its clock, so a lower period is a
higher pitch. Notes have periods from a table of nine octaves; tuning and modulation move them inside
the range of that table.

* `clamp_bounds`, `clamp_of_mem`: a clamped period is in the range, and one in the range is kept.
* `tune_bounds`: a tuned period of a note is zero or in the range.
-/

namespace Chiptune.Period

/-- The shortest period, of the highest note. -/
def lowest : Nat := 28

/-- The longest period, of the lowest note. -/
def highest : Nat := 13696

/-- The highest note. -/
def topNote : Nat := 108

/-- Periods of the notes, an octave to a line; the first entry stands for no note. -/
def table : Array Nat := #[
  0,
  13696, 12928, 12192, 11520, 10848, 10240, 9664, 9120, 8608, 8128, 7680, 7248,
  6848, 6464, 6096, 5760, 5424, 5120, 4832, 4560, 4304, 4064, 3840, 3624,
  3424, 3232, 3048, 2880, 2712, 2560, 2416, 2280, 2152, 2032, 1920, 1812,
  1712, 1616, 1524, 1440, 1356, 1280, 1208, 1140, 1076, 1016, 960, 906,
  856, 808, 762, 720, 678, 640, 604, 570, 538, 508, 480, 453,
  428, 404, 381, 360, 339, 320, 302, 285, 269, 254, 240, 226,
  214, 202, 190, 180, 170, 160, 151, 143, 135, 127, 120, 113,
  107, 101, 95, 90, 85, 80, 75, 71, 67, 63, 60, 56,
  53, 50, 47, 45, 42, 40, 37, 35, 33, 31, 30, 28]

/-- A number moved into a range. -/
def limit (lo hi n : Int) : Int :=
  max lo (min hi n)

/-- The period of a note: zero below the first note, that of the highest note above it. -/
def ofNote (note : Int) : Nat :=
  if note < 1 then 0 else table.getD (min note.toNat topNote) 0

/-- The playable period nearest to a modulated one. -/
def clamp (period : Int) : Nat :=
  (limit lowest highest period).toNat

/-- A period after fine tuning in sixteenths of a semitone. -/
def tune (period : Nat) (fine : Int) : Nat :=
  if period = 0 ∨ fine = 0 then period
  else
    let factor := (2.0 : Float) ^ (-Float.ofInt fine / (12.0 * 16.0))
    clamp (Float.ofNat period * factor).round.toInt32.toInt

/-- Bytes played in a second at a period. -/
def rate (period : Nat) (clock : Float) : Float :=
  if period = 0 then 0.0 else clock / (2.0 * Float.ofNat period)

theorem limit_bounds {lo hi : Int} (h : lo ≤ hi) (n : Int) :
    lo ≤ limit lo hi n ∧ limit lo hi n ≤ hi := by
  unfold limit
  omega

theorem limit_of_mem {lo hi n : Int} (h : lo ≤ n ∧ n ≤ hi) : limit lo hi n = n := by
  unfold limit
  omega

/-- A clamped period is playable. -/
theorem clamp_bounds (p : Int) : lowest ≤ clamp p ∧ clamp p ≤ highest := by
  have range : (lowest : Int) ≤ highest := by decide
  have := limit_bounds range p
  unfold clamp
  omega

/-- A playable period is kept. -/
theorem clamp_of_mem {p : Int} (h : lowest ≤ p ∧ p ≤ highest) : (clamp p : Int) = p := by
  rw [clamp, limit_of_mem h]
  have : (0 : Int) ≤ lowest := by decide
  omega

theorem ofNote_bounds (note : Int) :
    ofNote note = 0 ∨ lowest ≤ ofNote note ∧ ofNote note ≤ highest := by
  unfold ofNote
  split
  · exact .inl rfl
  · have key : ∀ k : Fin 109, table.getD k 0 = 0 ∨
        lowest ≤ table.getD k 0 ∧ table.getD k 0 ≤ highest := by decide +kernel
    exact key ⟨min note.toNat topNote, by unfold topNote; omega⟩

/-- A tuned period of a note is zero or playable. -/
theorem tune_bounds (note fine : Int) :
    tune (ofNote note) fine = 0 ∨
      lowest ≤ tune (ofNote note) fine ∧ tune (ofNote note) fine ≤ highest := by
  unfold tune
  split
  · exact ofNote_bounds note
  · exact .inr (clamp_bounds _)

end Chiptune.Period
