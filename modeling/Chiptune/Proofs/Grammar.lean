import Mathlib
import Chiptune.Proofs.RoundTrip

/-!
# The grammar of the chunked form

What a chunked file may look like is said here without any reader: a chunk is a tag and a payload,
and `Chunk.Spelled` says which payloads a chunk has. A file is the mark, a version and such chunks
up to its last byte.

* `Chunk.read?_eq_some_iff`, `Chunked.chunks_ok_iff`: the reader takes exactly what is spelled.
* `Piece.append_inj`: no payload is the beginning of another one, so a file can be cut into chunks in
  one way only.
* `Score.chunk?_assemble`: **of the chunks with one tag the last one counts.**
* `ModuleFile.decode_iff_composed`: a file behind the mark is read exactly if it is composed so.
-/

namespace Chiptune

open Layout

/-- Four bytes, most significant first, spell a signed count; a negative one counts nothing. -/
def Counts (n : ℕ) (s : Bytes) : Prop :=
  s.length = 4 ∧ (Word.signed32 (Word.big s)).toNat = n

/-- A table behind its count, each count standing for `group` records. -/
def SpellsTable {α : Type} (l : Layout α) (group : ℕ) (xs : Array α) (s : Bytes) : Prop :=
  ∃ n head, Counts n head ∧ xs.size = n * group ∧ s = head ++ l.encodeAll xs

/-- Samples behind their count: all descriptions, all sizes, all recordings. -/
def SpellsSamples (xs : Array Sample) (s : Bytes) : Prop :=
  ∃ head, Counts xs.size head ∧ (∀ x ∈ xs, x.data.size < 2 ^ 32) ∧
    s = head ++ Record.sampleInfo.encodeAll (xs.map Sample.info) ++
      xs.toList.flatMap (fun x => Word.bigBytes 4 x.data.size) ++
      xs.toList.flatMap fun x => x.data.toList

/-- The payloads of a chunk. -/
def Chunk.Spelled (c : Chunk) (s : Bytes) : Prop :=
  match c with
  | .songs xs => SpellsTable Record.song 1 xs s
  | .parts xs => SpellsTable Record.part 4 xs s
  | .notes xs => SpellsTable Record.note 1 xs s
  | .instruments xs => SpellsTable Record.instrument 1 xs s
  | .samples xs => SpellsSamples xs s
  | .waves xs | .volumeWaves xs | .pitchWaves xs => SpellsTable Record.wave 1 xs s
  | .editor state => s = state.toList

/-- A chunk with a payload of its own. -/
structure Piece where
  chunk : Chunk
  payload : Bytes
  spelled : chunk.Spelled payload

def Piece.bytes (p : Piece) : Bytes :=
  p.chunk.tag.bytes ++ p.payload

theorem Piece.bytes_ne_nil (p : Piece) : p.bytes ≠ [] := by
  intro hnil
  have := Tag.length_bytes p.chunk.tag
  rw [(List.append_eq_nil_iff.1 hnil).1] at this
  cases this

/-! ## The reader takes what is spelled -/

namespace Counted

variable {s rest : Bytes} {n : ℕ}

theorem count?_eq_some_iff :
    count? s = some (n, rest) ↔ ∃ head, Counts n head ∧ s = head ++ rest := by
  have hword (w : UInt32) :
      (if w.toNat < 0x80000000 then w.toNat else 0) = (Word.signed32 w.toNat).toNat := by
    have := w.toNat_lt
    simp only [Word.signed32, Int.bmod]
    split <;> split <;> omega
  have hbig (w : UInt32) : Word.big (word32.encode w) = w.toNat := Word.big_bigBytes w.toNat_lt
  simp only [count?, Option.map_eq_some_iff, Prod.mk.injEq, Prod.exists]
  constructor
  · rintro ⟨w, rest', hr, rfl, rfl⟩
    refine ⟨word32.encode w, ⟨word32_exact.length_encode w, ?_⟩, (read?_eq_some_iff word32_exact).1 hr⟩
    rw [hbig, hword]
  · rintro ⟨head, ⟨hlen, hn⟩, rfl⟩
    have hhead : word32.encode (word32.decode head) = head := by
      rw [word32_exact.encode_decode head hlen.ge]
      exact List.take_of_length_le hlen.le
    refine ⟨word32.decode head, rest, (read?_eq_some_iff word32_exact).2 (by rw [hhead]), ?_, rfl⟩
    rw [hword, ← hbig, hhead, hn]

theorem table?_eq_some_iff {α : Type} {l : Layout α} (hl : l.Exact) {group : ℕ} {xs : Array α} :
    table? l group s = some (xs, rest) ↔ ∃ p, SpellsTable l group xs p ∧ s = p ++ rest := by
  simp only [table?, Option.bind_eq_some_iff, Prod.exists, count?_eq_some_iff, take?_eq_some_iff hl]
  constructor
  · rintro ⟨n, middle, ⟨head, hn, rfl⟩, hx, rfl⟩
    exact ⟨head ++ l.encodeAll xs, ⟨n, head, hn, hx, rfl⟩, (List.append_assoc _ _ _).symm⟩
  · rintro ⟨p, ⟨n, head, hn, hx, rfl⟩, rfl⟩
    exact ⟨n, l.encodeAll xs ++ rest, ⟨head, hn, List.append_assoc _ _ _⟩, hx, rfl⟩

theorem recordings?_eq_some_iff {sizes : List ℕ} {rs : List (Array UInt8)} :
    recordings? sizes s = some (rs, rest) ↔
      rs.map Array.size = sizes ∧ s = rs.flatMap Array.toList ++ rest := by
  constructor
  · intro h
    induction sizes generalizing s rs with
    | nil =>
      obtain ⟨rfl, rfl⟩ := Prod.mk.inj (Option.some.inj h)
      exact ⟨rfl, rfl⟩
    | cons n sizes ih =>
      unfold recordings? at h
      split at h
      · rename_i hle
        obtain ⟨⟨later, last⟩, hr, he⟩ := Option.map_eq_some_iff.1 h
        obtain ⟨rfl, rfl⟩ := Prod.mk.inj he
        obtain ⟨hsizes, hdrop⟩ := ih hr
        refine ⟨?_, ?_⟩
        · rw [List.map_cons, hsizes, List.size_toArray, List.length_take_of_le hle]
        · rw [List.flatMap_cons, List.append_assoc, ← hdrop, List.take_append_drop]
      · cases h
  · rintro ⟨rfl, rfl⟩
    exact recordings?_flatten rs rest

theorem sized?_eq_some_iff {rs : List (Array UInt8)} :
    sized? n s = some (rs, rest) ↔
      rs.length = n ∧ (∀ r ∈ rs, r.size < 2 ^ 32) ∧ s = encodeSized rs ++ rest := by
  constructor
  · intro h
    simp only [sized?, Option.bind_eq_some_iff, Prod.exists, take?_eq_some_iff word32_exact,
      recordings?_eq_some_iff] at h
    obtain ⟨sizes, middle, ⟨hn, rfl⟩, hrs, rfl⟩ := h
    have hbytes : word32.encodeAll sizes = rs.flatMap fun r => Word.bigBytes 4 r.size := by
      rw [← List.flatMap_map Array.size, hrs, List.flatMap_map]
      rfl
    refine ⟨?_, fun r hr => ?_, ?_⟩
    · have := congrArg List.length hrs
      simpa [hn] using this
    · have hmem : r.size ∈ sizes.toList.map UInt32.toNat := hrs ▸ List.mem_map_of_mem hr
      obtain ⟨w, -, hw⟩ := List.mem_map.1 hmem
      rw [← hw]
      exact w.toNat_lt
    · rw [encodeSized, hbytes, List.append_assoc]
  · rintro ⟨rfl, hr, rfl⟩
    exact sized?_encodeSized hr rest

theorem spellsSamples_iff {xs : Array Sample} :
    SpellsSamples xs s ↔ ∃ head, Counts xs.size head ∧ (∀ x ∈ xs, x.data.size < 2 ^ 32) ∧
      s = head ++ (Record.sampleInfo.encodeAll (xs.map Sample.info) ++
        encodeSized (xs.toList.map Sample.data)) := by
  simp only [SpellsSamples, encodeSized, List.flatMap_map, List.append_assoc]

theorem samples?_eq_some_iff {xs : Array Sample} :
    samples? s = some (xs, rest) ↔ ∃ p, SpellsSamples xs p ∧ s = p ++ rest := by
  simp only [samples?, Option.bind_eq_bind, Option.bind_eq_some_iff, Prod.exists, count?_eq_some_iff,
    take?_eq_some_iff Record.sampleInfo_exact, sized?_eq_some_iff, Option.pure_def, Option.some.injEq,
    Prod.mk.injEq, spellsSamples_iff]
  constructor
  · rintro ⟨n, _, ⟨head, hn, rfl⟩, infos, _, ⟨hinfos, rfl⟩, rs, _, ⟨hlen, hr, rfl⟩, rfl, rfl⟩
    have hsame : infos.toList.length = rs.length := by rw [hlen, Array.length_toList, hinfos]
    -- a description and a recording each make up a sample, so there are as many samples
    set xs := List.zipWith Sample.mk infos.toList rs with hxs
    have hzip : xs = (infos.toList.zip rs).map (Function.uncurry Sample.mk) :=
      (List.map_uncurry_zip_eq_zipWith ..).symm
    have hinfo : xs.map Sample.info = infos.toList := by
      rw [hzip, List.map_map]
      exact List.map_fst_zip hsame.le
    have hdata : xs.map Sample.data = rs := by
      rw [hzip, List.map_map]
      exact List.map_snd_zip hsame.ge
    have hsize : xs.length = n := by rw [hxs, List.length_zipWith, hsame, Nat.min_self, hlen]
    refine ⟨_, ⟨head, ?_, fun x hx => ?_, rfl⟩, ?_⟩
    · rwa [List.size_toArray, hsize]
    · exact hr x.data (hdata ▸ List.mem_map_of_mem (List.mem_toArray.1 hx))
    · rw [List.map_toArray, hinfo, hdata]
      simp only [List.append_assoc]
  · rintro ⟨p, ⟨head, hn, hfit, rfl⟩, rfl⟩
    refine ⟨xs.size, _, ⟨head, hn, List.append_assoc _ _ _⟩, xs.map Sample.info, _,
      ⟨Array.size_map, List.append_assoc _ _ _⟩, xs.toList.map Sample.data, rest,
      ⟨by simp, by simpa using hfit, rfl⟩, ?_, rfl⟩
    rw [Array.toList_map, List.zipWith_map, List.zipWith_self, List.map_id']

end Counted

namespace Chunk

/-- **A payload is read exactly if it is spelled so**, whatever follows it. -/
theorem read?_eq_some_iff {t : Tag} {s rest : Bytes} {c : Chunk} :
    read? t s = some (c, rest) ↔ c.tag = t ∧ ∃ p, c.Spelled p ∧ s = p ++ rest := by
  have hmap {α : Type} {found : Option (α × Bytes)} {f : α → Chunk} :
      (found.map fun (xs, rest) => (f xs, rest)) = some (c, rest) ↔
        ∃ xs, f xs = c ∧ found = some (xs, rest) := by
    rw [Option.map_eq_some_iff]
    constructor
    · rintro ⟨⟨xs, rest'⟩, hfound, he⟩
      obtain ⟨rfl, rfl⟩ := Prod.mk.inj he
      exact ⟨xs, rfl, hfound⟩
    · rintro ⟨xs, rfl, hfound⟩
      exact ⟨(xs, rest), hfound, rfl⟩
  have heditor {state : Vector UInt8 20} :
      (Record.raw 20).read? s = some (state, rest) ↔ ∃ p, p = state.toList ∧ s = p ++ rest := by
    have hencode : (Record.raw 20).encode state = state.toList := by
      simp [Record.raw, vector, byte]
    rw [Layout.read?_eq_some_iff (Record.raw_exact 20), hencode, exists_eq_left]
  -- one case for each tag: the reader of its payload, then the chunk that the tag leaves
  rcases t with (_ | _ | _ | _ | _ | _ | _ | _) | _ <;>
    simp only [read?, hmap, heditor, Counted.samples?_eq_some_iff,
      Counted.table?_eq_some_iff Record.song_exact, Counted.table?_eq_some_iff Record.part_exact,
      Counted.table?_eq_some_iff Record.note_exact, Counted.table?_eq_some_iff Record.wave_exact,
      Counted.table?_eq_some_iff Record.instrument_exact]
  all_goals
    constructor
    · rintro ⟨xs, rfl, h⟩
      exact ⟨rfl, h⟩
    · rintro ⟨htag, h⟩
      cases c <;> cases htag
      exact ⟨_, rfl, h⟩

end Chunk

namespace Chunked

variable {total : ℕ} {s rest : Bytes}

theorem firstChunk_ok_iff {c : Chunk} :
    firstChunk total s = .ok (c, rest) ↔ ∃ p : Piece, p.chunk = c ∧ s = p.bytes ++ rest := by
  constructor
  · intro h
    unfold firstChunk at h
    split at h
    · cases h
    · split at h
      · cases h
      · rename_i t htag
        split at h
        · cases h
        · rename_i hread
          cases h
          obtain ⟨rfl, payload, hspelled, hdrop⟩ := Chunk.read?_eq_some_iff.1 hread
          refine ⟨⟨c, payload, hspelled⟩, rfl, ?_⟩
          rw [Piece.bytes, List.append_assoc, ← hdrop, Tag.bytes_of_ofBytes? htag,
            List.take_append_drop]
  · rintro ⟨⟨c, payload, hspelled⟩, rfl, rfl⟩
    have hlen : c.tag.bytes.length = 4 := Tag.length_bytes c.tag
    have hlong : ¬ (c.tag.bytes ++ (payload ++ rest)).length < 4 := by
      rw [List.length_append, hlen]
      omega
    have hread : Chunk.read? c.tag (payload ++ rest) = some (c, rest) :=
      Chunk.read?_eq_some_iff.2 ⟨rfl, payload, hspelled, rfl⟩
    rw [Piece.bytes, List.append_assoc, firstChunk, if_neg hlong, List.take_left' hlen,
      List.drop_left' hlen, Tag.ofBytes?_bytes]
    simp only [hread]

/-- **A row of chunks is read exactly if it is spelled so**, up to the last byte. -/
theorem chunks_ok_iff {row : List Chunk} :
    chunks total s = .ok row ↔
      ∃ ps : List Piece, ps.map Piece.chunk = row ∧ s = ps.flatMap Piece.bytes := by
  constructor
  · intro h
    fun_induction chunks total s generalizing row with
    | case1 s hnil =>
      cases h
      exact ⟨[], rfl, by simpa using hnil⟩
    | case2 => cases h
    | case3 s hnil found hfirst ih =>
      obtain ⟨later, hlater, rfl⟩ : ∃ later, chunks total found.2 = .ok later ∧
          found.1 :: later = row := by
        cases hr : chunks total found.2 with
        | error => rw [hr] at h; cases h
        | ok later => rw [hr] at h; cases h; exact ⟨later, rfl, rfl⟩
      obtain ⟨p, hchunk, rfl⟩ := firstChunk_ok_iff.1 hfirst
      obtain ⟨ps, rfl, hrest⟩ := ih hlater
      exact ⟨p :: ps, by rw [List.map_cons, hchunk], by rw [List.flatMap_cons, ← hrest]⟩
  · rintro ⟨ps, rfl, rfl⟩
    induction ps with
    | nil => exact chunks_nil total
    | cons p ps ih =>
      have hne : p.bytes ++ ps.flatMap Piece.bytes ≠ [] := by
        intro hnil
        exact p.bytes_ne_nil (List.append_eq_nil_iff.1 hnil).1
      rw [List.flatMap_cons, chunks_cons hne, firstChunk_ok_iff.2 ⟨p, rfl, rfl⟩]
      simp only [ih]
      rfl

end Chunked

namespace Piece

/-- **No piece is the beginning of another one.** -/
theorem append_inj {p q : Piece} {s t : Bytes} (h : p.bytes ++ s = q.bytes ++ t) : p = q ∧ s = t := by
  have hp : Chunked.firstChunk 0 (p.bytes ++ s) = .ok (p.chunk, s) :=
    Chunked.firstChunk_ok_iff.2 ⟨p, rfl, rfl⟩
  have hq : Chunked.firstChunk 0 (p.bytes ++ s) = .ok (q.chunk, t) :=
    Chunked.firstChunk_ok_iff.2 ⟨q, rfl, h⟩
  -- the reader finds one chunk only, and one rest
  obtain ⟨hchunk, rfl⟩ := Prod.mk.inj (Except.ok.inj (hp.symm.trans hq))
  obtain ⟨c, payload, hspelled⟩ := p
  obtain ⟨d, payload', hspelled'⟩ := q
  obtain rfl : c = d := hchunk
  obtain rfl : payload = payload' := List.append_cancel_left (List.append_cancel_right h)
  exact ⟨rfl, rfl⟩

/-- **A byte string is cut into pieces in one way only.** -/
theorem flatMap_bytes_inj {ps qs : List Piece} (h : ps.flatMap bytes = qs.flatMap bytes) :
    ps = qs := by
  induction ps generalizing qs with
  | nil =>
    cases qs with
    | nil => rfl
    | cons q qs => exact absurd (List.append_eq_nil_iff.1 h.symm).1 q.bytes_ne_nil
  | cons p ps ih =>
    cases qs with
    | nil => exact absurd (List.append_eq_nil_iff.1 h).1 p.bytes_ne_nil
    | cons q qs =>
      obtain ⟨rfl, hrest⟩ := append_inj h
      rw [ih hrest]

end Piece

/-! ## What the chunks of a file make up -/

namespace Score

variable {score other : Score}

/-- What a score holds under a tag, as the chunk that puts it there. -/
def chunk? (score : Score) : Tag → Option Chunk
  | .table .songs => some (.songs score.songs)
  | .table .parts => some (.parts score.parts)
  | .table .notes => some (.notes score.notes)
  | .table .instruments => some (.instruments score.instruments)
  | .table .samples => some (.samples score.samples)
  | .table .waves => some (.waves score.waves)
  | .table .volumeWaves => some (.volumeWaves score.volumeWaves)
  | .table .pitchWaves => some (.pitchWaves score.pitchWaves)
  | .editor => score.editor.map .editor

theorem chunk?_put (score : Score) (c : Chunk) (t : Tag) :
    (score.put c).chunk? t = if c.tag = t then some c else score.chunk? t := by
  cases c <;> rcases t with (_ | _ | _ | _ | _ | _ | _ | _) | _ <;> rfl

/-- A score is what it holds under its tags, but for its form, its version and its author. -/
theorem eq_of_chunk? (hform : score.encoding = other.encoding)
    (hversion : score.version = other.version) (hauthor : score.author = other.author)
    (h : ∀ t, score.chunk? t = other.chunk? t) : score = other := by
  have heditor : score.editor = other.editor :=
    Option.map_injective (fun _ _ => Chunk.editor.inj) (h .editor)
  obtain ⟨_, _, _, _, _, _, _, _, _, _, _, _⟩ := score
  obtain ⟨_, _, _, _, _, _, _, _, _, _, _, _⟩ := other
  cases hform
  cases hversion
  cases hauthor
  cases heditor
  cases h (.table .songs)
  cases h (.table .parts)
  cases h (.table .notes)
  cases h (.table .instruments)
  cases h (.table .samples)
  cases h (.table .waves)
  cases h (.table .volumeWaves)
  cases h (.table .pitchWaves)
  rfl

@[simp]
theorem encoding_put (score : Score) (c : Chunk) : (score.put c).encoding = score.encoding := by
  cases c <;> rfl

@[simp]
theorem version_put (score : Score) (c : Chunk) : (score.put c).version = score.version := by
  cases c <;> rfl

@[simp]
theorem author_put (score : Score) (c : Chunk) : (score.put c).author = score.author := by
  cases c <;> rfl

/-- Chunks with different tags do not touch each other. -/
theorem put_comm {c d : Chunk} (h : c.tag ≠ d.tag) :
    (score.put c).put d = (score.put d).put c := by
  refine eq_of_chunk? (by simp) (by simp) (by simp) fun t => ?_
  simp only [chunk?_put]
  by_cases hd : d.tag = t
  · rw [if_pos hd, if_neg (fun hc => h (hc.trans hd.symm)), if_pos hd]
  · rw [if_neg hd, if_neg hd]

/-- **Of the chunks with one tag the last one counts**, and without one the score is empty there. -/
theorem chunk?_assemble (version : Vector UInt8 4) (row : List Chunk) (t : Tag) :
    (Chunked.assemble version row).chunk? t =
      (row.reverse.find? (·.tag = t)).or (({} : Score).chunk? t) := by
  induction row using List.reverseRecOn with
  | nil => rcases t with (_ | _ | _ | _ | _ | _ | _ | _) | _ <;> rfl
  | append_singleton row c ih =>
    rw [Chunked.assemble, List.foldl_concat, chunk?_put, ← Chunked.assemble, ih, List.reverse_concat,
      List.find?_cons]
    by_cases hc : c.tag = t <;> simp [hc]

/-- The chunks leave the form, the version and the author as they are. -/
theorem assemble_spec (version : Vector UInt8 4) (row : List Chunk) :
    (Chunked.assemble version row).encoding = .chunked ∧
      (Chunked.assemble version row).version = version ∧
      (Chunked.assemble version row).author = none := by
  induction row using List.reverseRecOn with
  | nil => exact ⟨rfl, rfl, rfl⟩
  | append_singleton row c ih =>
    rw [Chunked.assemble, List.foldl_concat, encoding_put, version_put, author_put]
    exact ih

/-- Chunks with different tags can be put in any order. -/
theorem assemble_perm (version : Vector UInt8 4) {row row' : List Chunk} (h : row.Perm row')
    (hdistinct : (row.map Chunk.tag).Nodup) :
    Chunked.assemble version row' = Chunked.assemble version row := by
  refine (h.foldl_eq' (fun c hc d hd score => ?_) _).symm
  by_cases htag : c.tag = d.tag
  · rw [List.inj_on_of_nodup_map hdistinct hc hd htag]
  · exact put_comm htag

end Score

namespace ModuleFile

/-- The file that a version and some pieces make up. -/
def composed (version : Vector UInt8 4) (ps : List Piece) : Bytes :=
  Chunked.mark ++ version.toList ++ ps.flatMap Piece.bytes

theorem decode_composed_iff {s : Bytes} {score : Score} :
    decode (Chunked.mark ++ s) = .ok score ↔ ∃ version ps,
      Chunked.mark ++ s = composed version ps ∧
        score = Chunked.assemble version (ps.map Piece.chunk) := by
  have hencode (version : Vector UInt8 4) : (Record.raw 4).encode version = version.toList := by
    simp [Record.raw, vector, byte]
  rw [decode_mark_append, Chunked.decode]
  constructor
  · intro h
    split at h
    · cases h
    · rename_i version rest hversion
      cases hrow : Chunked.chunks (s.length + Chunked.mark.length) rest with
      | error => rw [hrow] at h; cases h
      | ok row =>
        rw [hrow] at h
        cases h
        obtain ⟨ps, rfl, rfl⟩ := Chunked.chunks_ok_iff.1 hrow
        have hs := (read?_eq_some_iff (Record.raw_exact 4)).1 hversion
        refine ⟨version, ps, ?_, rfl⟩
        rw [composed, List.append_assoc, hs, hencode]
  · rintro ⟨version, ps, hfile, rfl⟩
    rw [composed, List.append_assoc] at hfile
    obtain rfl := List.append_cancel_left hfile
    have hversion : (Record.raw 4).read? (version.toList ++ ps.flatMap Piece.bytes) =
        some (version, ps.flatMap Piece.bytes) :=
      (read?_eq_some_iff (Record.raw_exact 4)).2 (by rw [hencode])
    simp only [hversion]
    rw [Chunked.chunks_ok_iff.2 ⟨ps, rfl, rfl⟩]
    rfl

theorem composed_inj {version version' : Vector UInt8 4} {ps qs : List Piece}
    (h : composed version ps = composed version' qs) : version = version' ∧ ps = qs := by
  simp only [composed, List.append_assoc] at h
  obtain ⟨hversion, hps⟩ := List.append_inj (List.append_cancel_left h) (by simp)
  exact ⟨Vector.toList_inj.1 hversion, Piece.flatMap_bytes_inj hps⟩

/-- **The grammar of the chunked form.** A file behind the mark is read exactly if it is a version and
a row of chunks as they are spelled, to the last byte. There is one such row at most. What is read
holds under each tag what the last chunk with that tag holds, or nothing, so the order of chunks with
different tags does not matter. -/
theorem decode_iff_composed {file : Bytes} (hmark : Chunked.mark <+: file) :
    ((∃ score, decode file = .ok score) ↔ ∃ version ps, file = composed version ps) ∧
      ∀ version ps, file = composed version ps →
        (∀ version' ps', file = composed version' ps' → version' = version ∧ ps' = ps) ∧
        ∃ score, decode file = .ok score ∧
          score = (ps.map Piece.chunk).foldl Score.put { version := version } ∧
          score.encoding = .chunked ∧ score.version = version ∧ score.author = none ∧
          (∀ tag, score.chunk? tag =
            ((ps.map Piece.chunk).reverse.find? (·.tag = tag)).or (({} : Score).chunk? tag)) ∧
          ∀ ps', ps.Perm ps' → (ps.map (·.chunk.tag)).Nodup →
            decode (composed version ps') = .ok score := by
  obtain ⟨s, rfl⟩ := hmark
  have hok {version : Vector UInt8 4} {ps : List Piece} (h : Chunked.mark ++ s = composed version ps) :
      decode (Chunked.mark ++ s) = .ok (Chunked.assemble version (ps.map Piece.chunk)) :=
    decode_composed_iff.2 ⟨version, ps, h, rfl⟩
  refine ⟨⟨?_, ?_⟩, fun version ps h => ⟨fun version' ps' h' => composed_inj (h'.symm.trans h), ?_⟩⟩
  · rintro ⟨score, hscore⟩
    obtain ⟨version, ps, hfile, -⟩ := decode_composed_iff.1 hscore
    exact ⟨version, ps, hfile⟩
  · rintro ⟨version, ps, h⟩
    exact ⟨_, hok h⟩
  · obtain ⟨hform, hversion, hauthor⟩ := Score.assemble_spec version (ps.map Piece.chunk)
    refine ⟨_, hok h, rfl, hform, hversion, hauthor, Score.chunk?_assemble version _, ?_⟩
    intro ps' hperm hdistinct
    have hassemble := Score.assemble_perm version (hperm.map Piece.chunk) (by rwa [List.map_map])
    rw [← hassemble, composed, List.append_assoc]
    exact decode_composed_iff.2 ⟨version, ps', by rw [composed, List.append_assoc], rfl⟩

/-- A row with two tables of notes, a table of waves with a negative count, and a sample. -/
def revised : List Piece :=
  [⟨.notes #[⟨1, 1, 0, 0⟩], [0, 0, 0, 1, 1, 1, 0, 0],
      1, [0, 0, 0, 1], ⟨rfl, by decide⟩, rfl, by decide⟩,
    ⟨.waves #[], [0xFF, 0xFF, 0xFF, 0xFE], 0, [0xFF, 0xFF, 0xFF, 0xFE], ⟨rfl, by decide⟩, rfl, rfl⟩,
    ⟨.samples #[Sample.bare #[5, 6, 7]],
      [0, 0, 0, 1] ++ Record.sampleInfo.encode (Sample.bareInfo #[5, 6, 7]) ++ [0, 0, 0, 3, 5, 6, 7],
      [0, 0, 0, 1], ⟨rfl, by decide⟩, by decide, by decide +kernel⟩,
    ⟨.notes #[⟨2, 0, 0x8F, 3⟩, .blank], [0, 0, 0, 2, 2, 0, 0x8F, 3, 0, 0, 0, 0],
      2, [0, 0, 0, 2], ⟨rfl, by decide⟩, rfl, by decide⟩]

theorem revised_read :
    Chunked.mark <+: composed standardVersion revised ∧
      ∃ score, decode (composed standardVersion revised) = .ok score ∧
        score.notes = #[⟨2, 0, 0x8F, 3⟩, .blank] ∧ score.waves = #[] ∧
        score.samples = #[Sample.bare #[5, 6, 7]] ∧ score.songs = #[] ∧ score.editor = none := by
  have hmark : Chunked.mark <+: composed standardVersion revised := by decide
  obtain ⟨-, score, hscore, -, -, -, -, hchunk, -⟩ :=
    (decode_iff_composed hmark).2 standardVersion revised rfl
  refine ⟨hmark, score, hscore, ?_, ?_, ?_, ?_, ?_⟩
  · exact Chunk.notes.inj (Option.some.inj (hchunk (.table .notes)))
  · exact Chunk.waves.inj (Option.some.inj (hchunk (.table .waves)))
  · exact Chunk.samples.inj (Option.some.inj (hchunk (.table .samples)))
  · exact Chunk.songs.inj (Option.some.inj (hchunk (.table .songs)))
  · exact Option.map_eq_none_iff.1 (hchunk .editor)

end ModuleFile

end Chiptune
