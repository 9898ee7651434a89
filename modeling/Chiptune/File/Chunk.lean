import Chiptune.File.Fault
import Chiptune.File.Counted

/-!
# Chunks

The editor saves a score as a row of chunks: a tag of four letters, then a payload that carries its
own counts. Nothing says how long a chunk is, so the payload of each tag decides where the next tag
stands.

* `Tag.ofBytes?_bytes`: every tag is known by its letters.
* `Chunk.length_of_read?`: a chunk's payload is taken from the front of the input.
-/

namespace Chiptune

/-- What a chunk holds. -/
inductive Tag where
  | table (t : Table)
  | editor
  deriving DecidableEq, Repr, Inhabited

namespace Tag

def letters (a b c d : Char) : Bytes :=
  [a, b, c, d].map fun x => UInt8.ofNat x.toNat

def bytes : Tag → Bytes
  | .table .songs => letters 'S' 'T' 'B' 'L'
  | .table .parts => letters 'O' 'V' 'T' 'B'
  | .table .notes => letters 'N' 'T' 'B' 'L'
  | .table .instruments => letters 'I' 'N' 'S' 'T'
  | .table .samples => letters 'S' 'D' '8' 'B'
  | .table .waves => letters 'S' 'Y' 'W' 'T'
  | .table .volumeWaves => letters 'S' 'Y' 'A' 'R'
  | .table .pitchWaves => letters 'S' 'Y' 'A' 'F'
  | .editor => letters 'E' 'D' 'A' 'T'

/-- All tags, in the order in which the editor writes them. -/
def all : List Tag :=
  [.table .songs, .table .parts, .table .notes, .table .instruments, .table .samples,
    .table .waves, .table .volumeWaves, .table .pitchWaves, .editor]

def ofBytes? (s : Bytes) : Option Tag :=
  all.find? (·.bytes = s)

@[simp]
theorem length_bytes (t : Tag) : t.bytes.length = 4 := by
  rcases t with (_ | _ | _ | _ | _ | _ | _ | _) | _ <;> rfl

theorem ofBytes?_bytes (t : Tag) : ofBytes? t.bytes = some t := by
  rcases t with (_ | _ | _ | _ | _ | _ | _ | _) | _ <;> decide

/-- Letters belong to one tag only. -/
theorem bytes_of_ofBytes? {s : Bytes} {t : Tag} (h : ofBytes? s = some t) : t.bytes = s := by
  simpa using List.find?_some h

end Tag

/-- A chunk of a module file. -/
inductive Chunk where
  | songs (table : Array Song)
  | parts (table : Array Part)
  | notes (table : Array Note)
  | instruments (table : Array Instrument)
  | samples (table : Array Sample)
  | waves (table : Array Wave)
  | volumeWaves (table : Array Wave)
  | pitchWaves (table : Array Wave)
  | editor (state : Vector UInt8 20)
  deriving DecidableEq, Repr

namespace Chunk

def tag : Chunk → Tag
  | .songs _ => .table .songs
  | .parts _ => .table .parts
  | .notes _ => .table .notes
  | .instruments _ => .table .instruments
  | .samples _ => .table .samples
  | .waves _ => .table .waves
  | .volumeWaves _ => .table .volumeWaves
  | .pitchWaves _ => .table .pitchWaves
  | .editor _ => .editor

/-- The chunk of a tag from the front of a byte string, and what follows it. -/
def read? (t : Tag) (s : Bytes) : Option (Chunk × Bytes) :=
  match t with
  | .table .songs => (Counted.table? Record.song 1 s).map fun (xs, rest) => (.songs xs, rest)
  | .table .parts =>
    (Counted.table? Record.part Score.partsPerStep s).map fun (xs, rest) => (.parts xs, rest)
  | .table .notes => (Counted.table? Record.note 1 s).map fun (xs, rest) => (.notes xs, rest)
  | .table .instruments =>
    (Counted.table? Record.instrument 1 s).map fun (xs, rest) => (.instruments xs, rest)
  | .table .samples => (Counted.samples? s).map fun (xs, rest) => (.samples xs, rest)
  | .table .waves => (Counted.table? Record.wave 1 s).map fun (xs, rest) => (.waves xs, rest)
  | .table .volumeWaves =>
    (Counted.table? Record.wave 1 s).map fun (xs, rest) => (.volumeWaves xs, rest)
  | .table .pitchWaves =>
    (Counted.table? Record.wave 1 s).map fun (xs, rest) => (.pitchWaves xs, rest)
  | .editor => ((Record.raw 20).read? s).map fun (state, rest) => (.editor state, rest)

def count : Chunk → Nat
  | .songs xs => xs.size
  | .parts xs => xs.size / Score.partsPerStep
  | .notes xs => xs.size
  | .instruments xs => xs.size
  | .samples xs => xs.size
  | .waves xs => xs.size
  | .volumeWaves xs => xs.size
  | .pitchWaves xs => xs.size
  | .editor _ => 0

def payload (c : Chunk) : Bytes :=
  match c with
  | .songs xs => Counted.encodeCount c.count ++ Record.song.encodeAll xs
  | .parts xs => Counted.encodeCount c.count ++ Record.part.encodeAll xs
  | .notes xs => Counted.encodeCount c.count ++ Record.note.encodeAll xs
  | .instruments xs => Counted.encodeCount c.count ++ Record.instrument.encodeAll xs
  | .samples xs => Counted.encodeSamples xs
  | .waves xs => Counted.encodeCount c.count ++ Record.wave.encodeAll xs
  | .volumeWaves xs => Counted.encodeCount c.count ++ Record.wave.encodeAll xs
  | .pitchWaves xs => Counted.encodeCount c.count ++ Record.wave.encodeAll xs
  | .editor state => (Record.raw 20).encode state

def bytes (c : Chunk) : Bytes :=
  c.tag.bytes ++ c.payload

/-- Whether the counts and sizes of a chunk fit their words. -/
def fits : Chunk → Bool
  | .samples xs => xs.size < 0x80000000 && xs.all fun x => x.data.size < 0x100000000
  | c => c.count < 0x80000000

/-- A chunk's payload is taken from the front of the input. -/
theorem length_of_read? {t : Tag} {s rest : Bytes} {c : Chunk}
    (h : read? t s = some (c, rest)) : rest.length ≤ s.length := by
  rcases t with (_ | _ | _ | _ | _ | _ | _ | _) | _ <;>
    obtain ⟨⟨xs, last⟩, hr, he⟩ := Option.map_eq_some_iff.1 h <;>
    obtain ⟨-, rfl⟩ := Prod.mk.inj he
  case table.samples => exact Counted.length_of_samples? hr
  case editor =>
    unfold Layout.read? at hr
    split at hr
    · obtain ⟨-, rfl⟩ := by simpa using hr
      simp
    · simp at hr
  all_goals exact Counted.length_of_table? hr

end Chunk

end Chiptune
