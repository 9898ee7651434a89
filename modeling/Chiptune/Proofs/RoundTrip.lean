import Mathlib
import Chiptune.File.Basic

/-!
# Saved scores are read back

A chunk says nowhere how long it is, so a saved file is read back only if the payload of each chunk
is taken whole and no more than that.

* `Chunk.read?_payload`: each payload is read back, whatever follows it.
* `Chunked.chunks_flatMap`: so is a row of chunks, up to the end of the input.
* `ModuleFile.encode_reads_back`: **a saved score is read back**, but for its form, its author and
  the parts past the last whole step.
-/

namespace Chiptune

open Layout

/-- A score whose counts and sizes fit their words: the number of records of each table, where parts
are counted in steps, and the bytes of each sample. -/
structure Score.Fits (score : Score) : Prop where
  songs : score.songs.size < 2 ^ 31
  steps : score.stepCount < 2 ^ 31
  notes : score.notes.size < 2 ^ 31
  instruments : score.instruments.size < 2 ^ 31
  samples : score.samples.size < 2 ^ 31
  waves : score.waves.size < 2 ^ 31
  volumeWaves : score.volumeWaves.size < 2 ^ 31
  pitchWaves : score.pitchWaves.size < 2 ^ 31
  data : ∀ x ∈ score.samples, x.data.size < 2 ^ 32

theorem Layout.word32_ofNat {n : ℕ} (h : n < 2 ^ 32) :
    word32.encode (UInt32.ofNat n) = Word.bigBytes 4 n := by
  change Word.bigBytes 4 (UInt32.ofNat n).toNat = _
  rw [UInt32.toNat_ofNat', Nat.mod_eq_of_lt h]

namespace Counted

/-- A counted table is read back. -/
theorem table?_encode {α : Type} {l : Layout α} (hl : l.Exact) {n group : ℕ} {xs : Array α}
    (hn : n < 2 ^ 31) (hx : xs.size = n * group) (rest : Bytes) :
    table? l group (encodeCount n ++ l.encodeAll xs ++ rest) = some (xs, rest) := by
  unfold table?
  rw [List.append_assoc, count?_encodeCount hn, Option.bind_some]
  exact (take?_eq_some_iff hl).2 ⟨hx, rfl⟩

theorem table?_encode_one {α : Type} {l : Layout α} (hl : l.Exact) {xs : Array α}
    (hn : xs.size < 2 ^ 31) (rest : Bytes) :
    table? l 1 (encodeCount xs.size ++ l.encodeAll xs ++ rest) = some (xs, rest) :=
  table?_encode hl hn (Nat.mul_one _).symm rest

/-- Recordings are read back with their sizes. -/
theorem sized?_encodeSized {rs : List (Array UInt8)} (hr : ∀ r ∈ rs, r.size < 2 ^ 32)
    (rest : Bytes) : sized? rs.length (encodeSized rs ++ rest) = some (rs, rest) := by
  set sizes := (rs.map fun r => UInt32.ofNat r.size).toArray with hsizes
  have hback : sizes.toList.map UInt32.toNat = rs.map Array.size := by
    rw [hsizes, List.map_map]
    refine List.map_congr_left fun r h => ?_
    rw [Function.comp_apply, UInt32.toNat_ofNat']
    exact Nat.mod_eq_of_lt (hr r h)
  have hbytes : word32.encodeAll sizes = rs.flatMap fun r => Word.bigBytes 4 r.size := by
    rw [encodeAll, hsizes, List.flatMap_map]
    exact List.flatMap_congr fun r h => word32_ofNat (hr r h)
  have htake : word32.take? rs.length (encodeSized rs ++ rest) =
      some (sizes, rs.flatMap Array.toList ++ rest) := by
    refine (take?_eq_some_iff word32_exact).2 ⟨by simp [hsizes], ?_⟩
    rw [hbytes, encodeSized, List.append_assoc]
  unfold sized?
  simp only [htake, Option.bind_some, hback]
  exact recordings?_flatten rs rest

/-- Samples are read back with their descriptions. -/
theorem samples?_encodeSamples {xs : Array Sample} (hn : xs.size < 2 ^ 31)
    (hd : ∀ x ∈ xs, x.data.size < 2 ^ 32) (rest : Bytes) :
    samples? (encodeSamples xs ++ rest) = some (xs, rest) := by
  have hinfos : Record.sampleInfo.take? xs.size (Record.sampleInfo.encodeAll (xs.map Sample.info) ++
      (encodeSized (xs.toList.map Sample.data) ++ rest)) =
      some (xs.map Sample.info, encodeSized (xs.toList.map Sample.data) ++ rest) :=
    (take?_eq_some_iff Record.sampleInfo_exact).2 ⟨by simp, rfl⟩
  have hdata : sized? xs.size (encodeSized (xs.toList.map Sample.data) ++ rest) =
      some (xs.toList.map Sample.data, rest) := by
    have hlen : xs.size = (xs.toList.map Sample.data).length := by simp
    rw [hlen]
    exact sized?_encodeSized (by simpa using hd) rest
  have hzip : List.zipWith Sample.mk (xs.map Sample.info).toList (xs.toList.map Sample.data) =
      xs.toList := by
    rw [Array.toList_map, List.zipWith_map, List.zipWith_self, List.map_id']
  unfold samples? encodeSamples
  simp only [List.append_assoc, Option.bind_eq_bind, count?_encodeCount hn, Option.bind_some, hinfos,
    hdata, hzip]
  rfl

end Counted

namespace Chunk

/-- The counts and sizes of a chunk fit their words, and parts make up whole steps. -/
def Writable (c : Chunk) : Prop :=
  c.fits ∧ ∀ xs, c = .parts xs → xs.size % Score.partsPerStep = 0

/-- **Each payload is read back**, whatever follows it. -/
theorem read?_payload {c : Chunk} (h : c.Writable) (rest : Bytes) :
    read? c.tag (c.payload ++ rest) = some (c, rest) := by
  obtain ⟨hfits, hwhole⟩ := h
  cases c with
  | songs xs =>
    have hn : xs.size < 2 ^ 31 := of_decide_eq_true hfits
    simp only [tag, payload, count, read?, Counted.table?_encode_one Record.song_exact hn,
      Option.map_some]
  | parts xs =>
    have hn : xs.size / Score.partsPerStep < 2 ^ 31 := of_decide_eq_true hfits
    have hx : xs.size = xs.size / Score.partsPerStep * Score.partsPerStep :=
      (Nat.div_mul_cancel (Nat.dvd_of_mod_eq_zero (hwhole xs rfl))).symm
    simp only [tag, payload, count, read?, Counted.table?_encode Record.part_exact hn hx,
      Option.map_some]
  | notes xs =>
    have hn : xs.size < 2 ^ 31 := of_decide_eq_true hfits
    simp only [tag, payload, count, read?, Counted.table?_encode_one Record.note_exact hn,
      Option.map_some]
  | instruments xs =>
    have hn : xs.size < 2 ^ 31 := of_decide_eq_true hfits
    simp only [tag, payload, count, read?, Counted.table?_encode_one Record.instrument_exact hn,
      Option.map_some]
  | samples xs =>
    simp only [fits, Bool.and_eq_true, decide_eq_true_eq, Array.all_eq_true_iff_forall_mem] at hfits
    simp only [tag, payload, read?, Counted.samples?_encodeSamples hfits.1 hfits.2, Option.map_some]
  | waves xs | volumeWaves xs | pitchWaves xs =>
    have hn : xs.size < 2 ^ 31 := of_decide_eq_true hfits
    simp only [tag, payload, count, read?, Counted.table?_encode_one Record.wave_exact hn,
      Option.map_some]
  | editor state =>
    have := (read?_eq_some_iff (Record.raw_exact 20)).2 (rfl : (Record.raw 20).encode state ++ rest = _)
    simp only [tag, payload, read?, this, Option.map_some]

end Chunk

namespace Chunked

/-- A chunk at the front of the input is read back. -/
theorem firstChunk_bytes {c : Chunk} (h : c.Writable) (total : ℕ) (rest : Bytes) :
    firstChunk total (c.bytes ++ rest) = .ok (c, rest) := by
  have hlen : c.tag.bytes.length = 4 := Tag.length_bytes c.tag
  have htag : (c.bytes ++ rest).take 4 = c.tag.bytes := by
    rw [Chunk.bytes, List.append_assoc, ← hlen, List.take_left]
  have hrest : (c.bytes ++ rest).drop 4 = c.payload ++ rest := by
    rw [Chunk.bytes, List.append_assoc, ← hlen, List.drop_left]
  have hlong : ¬ (c.bytes ++ rest).length < 4 := by
    simp only [Chunk.bytes, List.length_append, hlen]
    omega
  unfold firstChunk
  rw [if_neg hlong, htag, hrest, Tag.ofBytes?_bytes]
  simp only [Chunk.read?_payload h]

/-- **A row of chunks is read back**, up to the end of the input. -/
theorem chunks_flatMap (total : ℕ) {row : List Chunk} (h : ∀ c ∈ row, c.Writable) :
    chunks total (row.flatMap Chunk.bytes) = .ok row := by
  induction row with
  | nil => exact chunks_nil total
  | cons c row ih =>
    have hne : c.bytes ++ row.flatMap Chunk.bytes ≠ [] := by
      have := Tag.length_bytes c.tag
      intro hnil
      simp only [Chunk.bytes, List.append_eq_nil_iff] at hnil
      simp [hnil.1.1] at this
    rw [List.flatMap_cons, chunks_cons hne, firstChunk_bytes (h c (by simp))]
    simp only [ih fun d hd => h d (by simp [hd])]
    rfl

end Chunked

namespace Score

variable {score : Score}

/-- The parts that are written make up whole steps. -/
theorem size_wholeParts :
    (score.parts.take (score.stepCount * partsPerStep)).size = score.stepCount * partsPerStep := by
  have := score.stepCount_mul_le
  simp only [Array.take_eq_extract, Array.size_extract]
  omega

/-- **Every chunk of a score can be written**, if the score fits. -/
theorem writable_of_mem_toChunks (h : score.Fits) : ∀ c ∈ score.toChunks, c.Writable := by
  intro c hc
  simp only [toChunks, List.mem_append, List.mem_cons, List.not_mem_nil, or_false, List.mem_map,
    Option.mem_toList] at hc
  rcases hc with (rfl | rfl | rfl | rfl | rfl | rfl | rfl | rfl) | ⟨state, -, rfl⟩
  · exact ⟨decide_eq_true h.songs, nofun⟩
  · have hsize : (score.parts.take (score.stepCount * partsPerStep)).size / partsPerStep =
        score.stepCount := by
      rw [size_wholeParts, Nat.mul_div_cancel _ (by decide)]
    refine ⟨decide_eq_true ?_, fun xs hx => ?_⟩
    · rw [Chunk.count, hsize]
      exact h.steps
    · obtain rfl := Chunk.parts.inj hx
      rw [size_wholeParts, Nat.mul_mod_left]
  · exact ⟨decide_eq_true h.notes, nofun⟩
  · exact ⟨decide_eq_true h.instruments, nofun⟩
  · refine ⟨?_, nofun⟩
    simp only [Chunk.fits, Bool.and_eq_true, decide_eq_true_eq, Array.all_eq_true_iff_forall_mem]
    exact ⟨h.samples, h.data⟩
  · exact ⟨decide_eq_true h.waves, nofun⟩
  · exact ⟨decide_eq_true h.volumeWaves, nofun⟩
  · exact ⟨decide_eq_true h.pitchWaves, nofun⟩
  · exact ⟨rfl, nofun⟩

/-- Putting the chunks of a score in their places gives the score back, in the form of the file. -/
theorem assemble_toChunks (score : Score) :
    Chunked.assemble score.version score.toChunks =
      { score with
        encoding := .chunked, author := none
        parts := score.parts.take (score.stepCount * partsPerStep) } := by
  obtain ⟨encoding, version, author, songs, parts, notes, instruments, samples, waves, volumeWaves,
    pitchWaves, _ | editor⟩ := score <;> rfl

end Score

namespace ModuleFile

/-- The file of a score that fits. -/
theorem encode_eq {score : Score} (h : score.Fits) :
    encode score = .ok (Chunked.mark ++ (Record.raw 4).encode score.version ++
      score.toChunks.flatMap Chunk.bytes) := by
  have hnone : Chunked.oversized? score.toChunks = none := by
    have hfind : score.toChunks.find? (!·.fits) = none := by
      refine List.find?_eq_none.2 fun c hc => ?_
      simp [(Score.writable_of_mem_toChunks h c hc).1]
    rw [Chunked.oversized?, hfind, Option.bind_none]
  simp only [encode, encodeAs, Chunked.encode, hnone]

/-- What follows the mark is read as chunks. -/
theorem decode_mark_append (s : Bytes) : decode (Chunked.mark ++ s) = Chunked.decode s := by
  have hmark : Chunked.mark.length = 4 := rfl
  have hlong : ¬ (Chunked.mark ++ s).length < 4 := by
    rw [List.length_append, hmark]
    omega
  have hform : encoding? (Chunked.mark ++ s) = .ok .chunked := by
    rw [encoding?, if_neg hlong, if_pos (by rw [← hmark, List.take_left])]
  rw [decode, hform]
  simp only [← hmark, List.drop_left]

/-- A row of chunks behind the mark and a version is read as the score they make up. -/
theorem decode_row (version : Vector UInt8 4) {row : List Chunk} (h : ∀ c ∈ row, c.Writable) :
    decode (Chunked.mark ++ (Record.raw 4).encode version ++ row.flatMap Chunk.bytes) =
      .ok (Chunked.assemble version row) := by
  have hversion : (Record.raw 4).read? ((Record.raw 4).encode version ++ row.flatMap Chunk.bytes) =
      some (version, row.flatMap Chunk.bytes) :=
    (read?_eq_some_iff (Record.raw_exact 4)).2 rfl
  rw [List.append_assoc, decode_mark_append, Chunked.decode, hversion]
  simp only [Chunked.chunks_flatMap _ h]
  rfl

/-- **A saved score is read back**, in the form of the file, without the author and the parts past the
last whole step. All else comes back as it was. -/
theorem encode_reads_back {score : Score} (h : score.Fits) :
    ∃ file, encode score = .ok file ∧
      decode file = .ok { score with
        encoding := .chunked, author := none
        parts := score.parts.take (4 * (score.parts.size / 4)) } := by
  refine ⟨_, encode_eq h, ?_⟩
  rw [decode_row _ (Score.writable_of_mem_toChunks h), Score.assemble_toChunks, Nat.mul_comm 4]
  rfl

/-- A score with something in every table: a part past the last step, a recording of odd length and
one without bytes, an effect past the known ones, and the state of the editor. -/
def motley : Score :=
  { encoding := .offsetTable
    version := #v[0x56, 0x31, 0x2E, 0x33]
    author := some "nobody"
    songs := #[⟨6, 64, 3, 1, 9, 50⟩]
    parts := #[⟨0, 0, 0⟩, ⟨1, -1, 2⟩, ⟨9, 0, 0⟩, ⟨0, 5, -5⟩, ⟨7, 7, 7⟩]
    notes := #[⟨1, 1, 0x6F, 3⟩, ⟨0, 0, 0, 255⟩]
    instruments := #[{ (default : Instrument) with
      reservedA := #v[1, 2, 3, 4, 5, 6, 7, 8]
      vibrato := ⟨300, 1, 2⟩
      reshaping := ⟨.other 999 (by decide), 1, 2, 3, 4⟩ }]
    samples := #[⟨⟨1, 2, Vector.replicate 30 65, #v[9, 8, 7, 6]⟩, #[1, 2, 3]⟩, Sample.bare #[]]
    waves := #[Wave.silent]
    volumeWaves := #[Vector.replicate 128 1, Wave.silent]
    pitchWaves := #[Vector.replicate 128 255]
    editor := some (Vector.replicate 20 77) }

theorem motley_reads_back :
    motley.Fits ∧ ∃ file, encode motley = .ok file ∧
      decode file = .ok { motley with
        encoding := .chunked, author := none
        parts := #[⟨0, 0, 0⟩, ⟨1, -1, 2⟩, ⟨9, 0, 0⟩, ⟨0, 5, -5⟩] } := by
  have hfits : motley.Fits := by constructor <;> decide
  exact ⟨hfits, encode_reads_back hfits⟩

end ModuleFile

end Chiptune
