/-!
# Words as bytes

A byte string is a list of bytes. A word of `w` bytes is the number that its bytes spell in base 256,
read from either end.

* `little_littleBytes`, `big_bigBytes`: a number below `span w` is spelled by its `w` bytes.
* `littleBytes_little`, `bigBytes_big`: every byte string is the spelling of its number.
* `fits32`, `signed32`: whether a 32-bit two's complement register holds a number, and what it holds.
-/

namespace Chiptune

/-- A byte string. -/
abbrev Bytes := List UInt8

namespace Word

/-- How many numbers a word of `w` bytes tells apart. -/
def span : Nat → Nat
  | 0 => 1
  | w + 1 => 256 * span w

/-- The number spelled by bytes, least significant first. -/
def little : Bytes → Nat
  | [] => 0
  | b :: rest => b.toNat + 256 * little rest

/-- The low `w` bytes of a number, least significant first. -/
def littleBytes : Nat → Nat → Bytes
  | 0, _ => []
  | w + 1, n => UInt8.ofNat n :: littleBytes w (n / 256)

/-- The number spelled by bytes, most significant first. -/
def big (bytes : Bytes) : Nat :=
  little bytes.reverse

/-- The low `w` bytes of a number, most significant first. -/
def bigBytes (w n : Nat) : Bytes :=
  (littleBytes w n).reverse

@[simp]
theorem length_littleBytes (w n : Nat) : (littleBytes w n).length = w := by
  induction w generalizing n with
  | zero => rfl
  | succ w ih => simp [littleBytes, ih]

@[simp]
theorem length_bigBytes (w n : Nat) : (bigBytes w n).length = w := by
  simp [bigBytes]

theorem little_lt (bytes : Bytes) : little bytes < span bytes.length := by
  induction bytes with
  | nil => simp [little, span]
  | cons b rest ih =>
    have hb := b.toNat_lt
    simp only [little, List.length_cons, span]
    omega

theorem big_lt (bytes : Bytes) : big bytes < span bytes.length := by
  simpa [big] using little_lt bytes.reverse

theorem little_littleBytes {w n : Nat} (h : n < span w) : little (littleBytes w n) = n := by
  induction w generalizing n with
  | zero =>
    simp only [span] at h
    simp only [littleBytes, little]
    omega
  | succ w ih =>
    have : n / 256 < span w := Nat.div_lt_of_lt_mul h
    simp only [littleBytes, little, ih this, UInt8.toNat_ofNat']
    omega

theorem littleBytes_little (bytes : Bytes) : littleBytes bytes.length (little bytes) = bytes := by
  induction bytes with
  | nil => rfl
  | cons b rest ih =>
    have hb := b.toNat_lt
    have hq : (b.toNat + 256 * little rest) / 256 = little rest := by omega
    have hr : UInt8.ofNat (b.toNat + 256 * little rest) = b := by
      apply UInt8.toNat_inj.1
      simp only [UInt8.toNat_ofNat']
      omega
    simp only [List.length_cons, littleBytes, little, hq, hr, ih]

theorem big_bigBytes {w n : Nat} (h : n < span w) : big (bigBytes w n) = n := by
  simp [big, bigBytes, little_littleBytes h]

theorem bigBytes_big (bytes : Bytes) : bigBytes bytes.length (big bytes) = bytes := by
  have := littleBytes_little bytes.reverse
  simp only [List.length_reverse] at this
  simp [big, bigBytes, this]

/-- Whether a 32-bit register holds a number as it is. -/
def fits32 (n : Int) : Bool :=
  -0x80000000 ≤ n && n < 0x80000000

/-- The number in `[-2 ^ 31, 2 ^ 31)` that a 32-bit register holds for `n` when nobody checks whether `n`
fits. -/
def signed32 (n : Int) : Int :=
  n.bmod 0x100000000

/-- A number that fits a 32-bit register is held as it is. -/
theorem signed32_of_fits {n : Int} (lower : -0x80000000 ≤ n) (upper : n < 0x80000000) :
    signed32 n = n := by
  unfold signed32
  rw [Int.bmod_eq_of_le] <;> omega

/-- A table position as a 64-bit word: one past the last position is the first again, unless a check for
overflow stops the program there. No row of a song lies that far. -/
def position (n : Nat) : Nat :=
  n % 0x10000000000000000

/-- A position that fits a word is kept. -/
theorem position_of_lt {n : Nat} (h : n < 0x10000000000000000) : position n = n :=
  Nat.mod_eq_of_lt h

end Word

end Chiptune
