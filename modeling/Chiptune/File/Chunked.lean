import Chiptune.File.Chunk

/-!
# The chunked form

A chunked file is a mark, a version and a row of chunks up to the end of the input. The score is the
empty score with one chunk after the other put in its place, so of two chunks with one tag the later
one counts, and a table without a chunk is empty.

* `chunks_nil`, `chunks_cons`: the row of chunks one at a time.
* `Score.toChunks`: the chunks that a score is written as.
-/

namespace Chiptune

/-- The score with the content of a chunk put in its place. -/
def Score.put (score : Score) : Chunk → Score
  | .songs table => { score with songs := table }
  | .parts table => { score with parts := table }
  | .notes table => { score with notes := table }
  | .instruments table => { score with instruments := table }
  | .samples table => { score with samples := table }
  | .waves table => { score with waves := table }
  | .volumeWaves table => { score with volumeWaves := table }
  | .pitchWaves table => { score with pitchWaves := table }
  | .editor state => { score with editor := some state }

/-- The chunks that a score is written as. Only whole steps are written. -/
def Score.toChunks (score : Score) : List Chunk :=
  [.songs score.songs,
    .parts (score.parts.take (score.stepCount * partsPerStep)),
    .notes score.notes,
    .instruments score.instruments,
    .samples score.samples,
    .waves score.waves,
    .volumeWaves score.volumeWaves,
    .pitchWaves score.pitchWaves] ++
  score.editor.toList.map .editor

namespace Chunked

/-- The mark at the start of the form. -/
def mark : Bytes :=
  Tag.letters 'S' 'O' 'A' 'R'

/-- The first chunk of a nonempty byte string that ends `total` bytes into the file. -/
def firstChunk (total : Nat) (s : Bytes) : Except FileFault (Chunk × Bytes) :=
  if s.length < 4 then .error .endOfData
  else match Tag.ofBytes? (s.take 4) with
    | none => .error (.unknownChunk (s.take 4) (total - s.length))
    | some t => match Chunk.read? t (s.drop 4) with
      | none => .error .endOfData
      | some found => .ok found

/-- A chunk takes at least the four bytes of its tag. -/
theorem length_of_firstChunk {total : Nat} {s : Bytes} {found : Chunk × Bytes}
    (h : firstChunk total s = .ok found) : found.2.length < s.length := by
  unfold firstChunk at h
  split at h
  · simp at h
  · split at h
    · simp at h
    · split at h
      · simp at h
      · rename_i first hr
        obtain rfl : first = found := by simpa using h
        have : first.2.length ≤ (s.drop 4).length := Chunk.length_of_read? hr
        simp only [List.length_drop] at this
        omega

/-- The chunks of a byte string that ends `total` bytes into the file. -/
def chunks (total : Nat) (s : Bytes) : Except FileFault (List Chunk) :=
  if s.isEmpty then .ok []
  else match _h : firstChunk total s with
    | .error fault => .error fault
    | .ok found => (chunks total found.2).map (found.1 :: ·)
  termination_by s.length
  decreasing_by exact length_of_firstChunk _h

/-- The score of a version mark and a row of chunks. -/
def assemble (version : Vector UInt8 4) (row : List Chunk) : Score :=
  row.foldl Score.put { version }

/-- The score in the bytes that follow the mark. -/
def decode (s : Bytes) : Except FileFault Score :=
  match (Record.raw 4).read? s with
  | none => .error .endOfData
  -- offsets in faults count from the start of the file, the mark included
  | some (version, rest) => (chunks (s.length + mark.length) rest).map (assemble version)

/-- The table of a chunk whose count or sizes do not fit. -/
def oversized? (row : List Chunk) : Option Table :=
  (row.find? (!·.fits)).bind fun c => match c.tag with
    | .table t => some t
    | .editor => none

def encode (score : Score) : Except FileFault Bytes :=
  match oversized? score.toChunks with
  | some t => .error (.tooLarge t)
  | none => .ok (mark ++ (Record.raw 4).encode score.version ++ score.toChunks.flatMap Chunk.bytes)

theorem chunks_nil (total : Nat) : chunks total [] = .ok [] := by
  rw [chunks]; rfl

theorem chunks_cons {total : Nat} {s : Bytes} (h : s ≠ []) :
    chunks total s = match firstChunk total s with
      | .error fault => .error fault
      | .ok found => (chunks total found.2).map (found.1 :: ·) := by
  rw [chunks, if_neg (by simpa using h)]
  split <;> rename_i hf <;> simp [hf]

end Chunked

end Chiptune
