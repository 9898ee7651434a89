import Chiptune.File.Chunk

/-!
# The form with a list of offsets

A player program carries its score somewhere inside it. The structure begins where the big-endian
word 40 first stands: that word is the offset of the song table, seven more offsets follow, and all
of them count from the structure's first byte. How many records a table has follows from where the
next one starts. After the samples come a closing mark and the author's name, every bit of it
inverted.

* `structure?_cons_of_ne`: a byte at which no structure begins does not matter.
* `authorChars_map_complement`: a name of seven-bit characters is read as it was written.
-/

namespace Chiptune.OffsetTable

open Layout

/-- Offset of the song table, which is also the sign of a structure. -/
def firstOffset : Nat := 0x28

def sign : Bytes :=
  Word.bigBytes 4 firstOffset

def structure? : Bytes → Option Bytes
  | [] => none
  | b :: rest => if (b :: rest).take 4 = sign then some (b :: rest) else structure? rest

/-- Where the tables after the songs start. -/
structure Offsets where
  parts : Nat
  notes : Nat
  instruments : Nat
  waves : Nat
  volumeWaves : Nat
  pitchWaves : Nat
  samples : Nat
  deriving DecidableEq, Repr

/-- Reading seven offsets from the front. -/
def offsets? (s : Bytes) : Option (Offsets × Bytes) :=
  ((pair word32 <| pair word32 <| pair word32 <| pair word32 <| pair word32 <|
    pair word32 word32).read? s).map
    fun ((parts, notes, instruments, waves, volumeWaves, pitchWaves, samples), rest) =>
      (⟨parts.toNat, notes.toNat, instruments.toNat, waves.toNat, volumeWaves.toNat,
        pitchWaves.toNat, samples.toNat⟩, rest)

/-- Each table after the songs with the offset before its own and its own. -/
def Offsets.starts (o : Offsets) : List (Table × Nat × Nat) :=
  [(.parts, firstOffset, o.parts), (.notes, o.parts, o.notes),
    (.instruments, o.notes, o.instruments), (.waves, o.instruments, o.waves),
    (.volumeWaves, o.waves, o.volumeWaves), (.pitchWaves, o.volumeWaves, o.pitchWaves),
    (.samples, o.pitchWaves, o.samples)]

/-- The first table that starts before the one it follows. -/
def Offsets.decreasing? (o : Offsets) : Option Table :=
  (o.starts.find? fun (_, before, own) => own < before).map (·.1)

/-- The input, or a fault where it is cut short. -/
def within {α : Type} : Option α → Except FileFault α
  | none => .error .endOfData
  | some x => .ok x

/-- The offsets at the head of a structure: seven words, a free word, a mark, a reserved word. -/
def head (s : Bytes) : Except FileFault Offsets := do
  let (offsets, s) ← within (offsets? (s.drop 4))
  let (_, s) ← within (word16.read? s)
  let (mark, s) ← within (word16.read? s)
  if mark ≠ 0xFFFF then .error .badHeader
  let _ ← within (word32.read? s)
  match offsets.decreasing? with
  | some table => .error (.decreasing table)
  | none => .ok offsets

/-- The structure from an offset on, or `none` past its end. -/
def from? (s : Bytes) (offset : Nat) : Option Bytes :=
  if offset ≤ s.length then some (s.drop offset) else none

/-- The records between two offsets; bytes that make up no record are left out. -/
def section? {α : Type} (l : Layout α) (s : Bytes) (start stop : Nat) : Option (Array α) := do
  let tail ← from? s start
  let (xs, _) ← l.take? ((stop - start) / l.size) tail
  return xs

/-- The tables of a structure and what follows the samples. -/
def tables? (s : Bytes) (o : Offsets) : Option (Score × Bytes) := do
  let songs ← section? Record.song s firstOffset o.parts
  let parts ← section? Record.part s o.parts o.notes
  let notes ← section? Record.note s o.notes o.instruments
  let instruments ← section? Record.instrument s o.instruments o.waves
  let waves ← section? Record.wave s o.waves o.volumeWaves
  let volumeWaves ← section? Record.wave s o.volumeWaves o.pitchWaves
  let pitchWaves ← section? Record.wave s o.pitchWaves o.samples
  let (samples, rest) ← (from? s o.samples).bind Counted.bareSamples?
  return ({ encoding := .offsetTable, songs, parts, notes, instruments, samples, waves,
            volumeWaves, pitchWaves }, rest)

def sentinel : Bytes :=
  Tag.letters 'd' 'e' 'a' 'd' ++ Tag.letters 'b' 'e' 'e' 'f' ++ [0, 0, 0, 0]

/-- The name in inverted bytes; the first byte without its high bit ends it. -/
def authorChars (s : Bytes) : List Char :=
  (s.takeWhile (0x80 ≤ ·)).map fun b => Char.ofNat (~~~b).toNat

/-- The author's name, which a zero byte has to close. -/
def author? (s : Bytes) : Option String :=
  if 0 ∈ s then some (String.ofList (authorChars (s.takeWhile (· ≠ 0)))) else none

/-- The score of the first structure in a byte string. -/
def decode (input : Bytes) : Except FileFault Score :=
  match structure? input with
  | none => .error .noStructure
  | some s => do
    let offsets ← head s
    let (score, rest) ← within (tables? s offsets)
    if rest.take sentinel.length ≠ sentinel then .error .noSentinel
    let author ← within (author? (rest.drop sentinel.length))
    return { score with author := some author }

/-- A byte at which no structure begins does not matter. -/
theorem structure?_cons_of_ne {b : UInt8} {rest : Bytes} (h : (b :: rest).take 4 ≠ sign) :
    structure? (b :: rest) = structure? rest := by
  rw [structure?, if_neg h]

/-- A name of seven-bit characters is read as it was written. -/
theorem authorChars_map_complement (cs : List Char) (h : ∀ c ∈ cs, c.toNat < 128) :
    authorChars (cs.map fun c => ~~~UInt8.ofNat c.toNat) = cs := by
  induction cs with
  | nil => rfl
  | cons c cs ih =>
    have hc := h c (by simp)
    have hb : (0x80 : UInt8) ≤ ~~~UInt8.ofNat c.toNat := by
      have := Nat.mod_eq_of_lt (show c.toNat < 256 by omega)
      simp [UInt8.le_iff_toNat_le, UInt8.toNat_not]
      omega
    have hr : Char.ofNat (UInt8.ofNat c.toNat).toNat = c := by
      simp [Nat.mod_eq_of_lt (show c.toNat < 256 by omega)]
    have := ih fun d hd => h d (by simp [hd])
    simp only [authorChars, List.map_cons, List.takeWhile_cons, hb, decide_true, if_true,
      UInt8.not_not, hr, List.cons.injEq, true_and]
    exact this

end Chiptune.OffsetTable
