import Chiptune.Score.Wave

/-!
# Noise

Noise is the keystream of ChaCha with twelve rounds, so a voice with a given seed sounds the same each
time. The stream is a row of 32-bit words in blocks of sixteen; the key is drawn from the seed by
a linear congruential generator with permuted output.

* `byte_fst`, `wave_fst`: which words of the stream a voice takes.
-/

namespace Chiptune

namespace Keystream

/-- The sixteen words of a block. -/
abbrev Block := Vector UInt32 16

/-- The word turned left by some bits. -/
def turnLeft (x : UInt32) (bits : UInt32) : UInt32 :=
  (x <<< bits) ||| (x >>> (32 - bits))

/-- The word turned right by some bits. -/
def turnRight (x : UInt32) (bits : UInt32) : UInt32 :=
  (x >>> bits) ||| (x <<< (32 - bits))

/-- A quarter round on four words of a block. -/
def quarter (s : Block) (i j k l : Fin 16) : Block :=
  let a := s[i] + s[j]
  let d := turnLeft (s[l] ^^^ a) 16
  let c := s[k] + d
  let b := turnLeft (s[j] ^^^ c) 12
  let a := a + b
  let d := turnLeft (d ^^^ a) 8
  let c := c + d
  let b := turnLeft (b ^^^ c) 7
  (((s.set i a).set j b).set k c).set l d

/-- Two rounds: the columns of the four-by-four square, then its diagonals. -/
def doubleRound (s : Block) : Block :=
  let s := quarter (quarter (quarter (quarter s 0 4 8 12) 1 5 9 13) 2 6 10 14) 3 7 11 15
  quarter (quarter (quarter (quarter s 0 5 10 15) 1 6 11 12) 2 7 8 13) 3 4 9 14

/-- A block after a number of double rounds. -/
def rounds : Nat → Block → Block
  | 0, s => s
  | n + 1, s => rounds n (doubleRound s)

/-- The square that a block starts from: four constants, the key, the block's number, two zeros. -/
def start (key : Vector UInt32 8) (number : Nat) : Block :=
  #v[0x61707865, 0x3320646e, 0x79622d32, 0x6b206574,
    key[0], key[1], key[2], key[3], key[4], key[5], key[6], key[7],
    UInt32.ofNat number, UInt32.ofNat (number / 0x100000000), 0, 0]

def block (key : Vector UInt32 8) (number : Nat) : Block :=
  let s := start key number
  Vector.zipWith (· + ·) (rounds 6 s) s

def word (key : Vector UInt32 8) (i : Nat) : UInt32 :=
  (block key (i / 16)).get ⟨i % 16, Nat.mod_lt _ (by decide)⟩

/-- The next state of the generator that draws a key. -/
def draw (state : UInt64) : UInt64 :=
  state * 6364136223846793005 + 11634580027462260723

def drawn (state : UInt64) : UInt32 :=
  turnRight (((state >>> 18) ^^^ state) >>> 27).toUInt32 (state >>> 59).toUInt32

def draws (seed : UInt64) : Nat → UInt64
  | 0 => draw seed
  | n + 1 => draw (draws seed n)

def key (seed : UInt64) : Vector UInt32 8 :=
  Vector.ofFn fun i => drawn (draws seed i)

end Keystream

/-- A source of noise: a key and the number of words taken so far. -/
structure Noise where
  key : Vector UInt32 8
  taken : Nat
  deriving DecidableEq, Repr

namespace Noise

def ofSeed (seed : UInt64) : Noise :=
  ⟨Keystream.key seed, 0⟩

/-- One byte of noise: the low byte of the next word. -/
def byte (n : Noise) : UInt8 × Noise :=
  ((Keystream.word n.key n.taken).toUInt8, { n with taken := n.taken + 1 })

/-- A byte of a word, counted from the lowest. -/
def byteOf (word : UInt32) (i : Nat) : UInt8 :=
  (word >>> UInt32.ofNat (8 * i)).toUInt8

/-- A wave table of noise: the next 32 words, lowest byte first. -/
def wave (n : Noise) : Wave × Noise :=
  let words := Vector.ofFn fun i : Fin 32 => Keystream.word n.key (n.taken + i)
  (Wave.tabulate fun i => byteOf (words[i / 4]?.getD 0) (i % 4),
    { n with taken := n.taken + 32 })

theorem byte_fst (n : Noise) : n.byte.1 = (Keystream.word n.key n.taken).toUInt8 :=
  rfl

/-- A table of noise takes its bytes from 32 words in a row. -/
theorem wave_fst (n : Noise) {i : Nat} (h : i < 128) :
    n.wave.1.byte i = byteOf (Keystream.word n.key (n.taken + i / 4)) (i % 4) := by
  have : i / 4 < 32 := by omega
  simp [wave, Wave.byte_tabulate _ h, this]

end Noise

end Chiptune
