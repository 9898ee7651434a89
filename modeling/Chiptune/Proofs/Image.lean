import Mathlib
import Chiptune.Proofs.RoundTrip

/-!
# Images of player programs

An image is built here from what a player program carries, with no regard to how it is read: some
program, eight offsets and three words, seven tables each filled up by less than a record, the
recordings, a closing mark and the author's name. Reading gives the parts back.

* `structure?_append`: the sign of a structure is not met before the structure begins.
* `image_section?`: each table lies where its offset says, and the filler makes up no record.
* `ModuleFile.decode_image`: **an image is read as the tables it was built from.**
-/

namespace Chiptune.OffsetTable

open Layout

/-- A table and the bytes that fill up the room behind it. -/
structure Padded (α : Type) where
  records : Array α
  filler : Bytes

namespace Padded

variable {α : Type}

def bytes (l : Layout α) (t : Padded α) : Bytes :=
  l.encodeAll t.records ++ t.filler

/-- The filler is shorter than a record. -/
def Short (l : Layout α) (t : Padded α) : Prop :=
  t.filler.length < l.size

instance (l : Layout α) (t : Padded α) : Decidable (t.Short l) :=
  inferInstanceAs (Decidable (t.filler.length < l.size))

theorem length_bytes {l : Layout α} (hl : l.Exact) (t : Padded α) :
    (t.bytes l).length = t.records.size * l.size + t.filler.length := by
  rw [bytes, List.length_append, length_encodeAll hl]

end Padded

/-- What a player program carries. -/
structure Image where
  /-- The program before the structure. -/
  before : Bytes
  freeWord : UInt16
  reserved : UInt32
  songs : Padded Song
  parts : Padded Part
  notes : Padded Note
  instruments : Padded Instrument
  waves : Padded Wave
  volumeWaves : Padded Wave
  pitchWaves : Padded Wave
  recordings : List (Array UInt8)
  author : String
  /-- The program after the structure. -/
  after : Bytes

namespace Image

/-- The filled-up tables, one after the other. -/
def sections (im : Image) : List Bytes :=
  [im.songs.bytes Record.song, im.parts.bytes Record.part, im.notes.bytes Record.note,
    im.instruments.bytes Record.instrument, im.waves.bytes Record.wave,
    im.volumeWaves.bytes Record.wave, im.pitchWaves.bytes Record.wave]

/-- Where a table starts, behind forty bytes of offsets and words. -/
def offset (im : Image) (i : ℕ) : ℕ :=
  0x28 + (im.sections.take i).flatten.length

def header (im : Image) : Bytes :=
  (List.range 8).flatMap (fun i => Word.bigBytes 4 (im.offset i)) ++
    Word.bigBytes 2 im.freeWord.toNat ++ [0xFF, 0xFF] ++ Word.bigBytes 4 im.reserved.toNat

/-- The recordings without descriptions: their count, all sizes, all bytes. -/
def recorded (im : Image) : Bytes :=
  Word.bigBytes 4 im.recordings.length ++
    im.recordings.flatMap (fun r => Word.bigBytes 4 r.size) ++ im.recordings.flatMap Array.toList

/-- The author's name with every bit inverted, and the zero byte that closes it. -/
def signature (im : Image) : Bytes :=
  im.author.toList.map (fun c => ~~~UInt8.ofNat c.toNat) ++ [0]

def body (im : Image) : Bytes :=
  im.header ++ im.sections.flatten ++ im.recorded ++
    (Tag.letters 'd' 'e' 'a' 'd' ++ Tag.letters 'b' 'e' 'e' 'f') ++ [0, 0, 0, 0] ++
    im.signature ++ im.after

def bytes (im : Image) : Bytes :=
  im.before ++ im.body

/-- The sign of a structure does not stand in the program before it, words hold what they have to, no
filler makes up a record, and the name is in seven-bit characters. -/
structure Fits (im : Image) : Prop where
  before : ¬ [0, 0, 0, 0x28] <:+: im.before
  offset : im.offset 7 < 2 ^ 32
  count : im.recordings.length < 2 ^ 31
  sizes : ∀ r ∈ im.recordings, r.size < 2 ^ 32
  songs : im.songs.Short Record.song
  parts : im.parts.Short Record.part
  notes : im.notes.Short Record.note
  instruments : im.instruments.Short Record.instrument
  waves : im.waves.Short Record.wave
  volumeWaves : im.volumeWaves.Short Record.wave
  pitchWaves : im.pitchWaves.Short Record.wave
  author : ∀ c ∈ im.author.toList, c.toNat < 128

end Image

/-! ## Where the structure begins -/

/-- **The sign is not met too early**, not even across the beginning of the structure. -/
theorem structure?_append {before rest : Bytes} (h : ¬ sign <:+: before) :
    structure? (before ++ (sign ++ rest)) = some (sign ++ rest) := by
  have hsign : sign = [0, 0, 0, 0x28] := rfl
  induction before with
  | nil => simp [hsign, structure?]
  | cons b before ih =>
    have hne : ((b :: before) ++ (sign ++ rest)).take 4 ≠ sign := by
      intro htake
      -- three bytes or fewer are followed by a zero that the sign would have to end in
      rcases before with _ | ⟨c, _ | ⟨d, _ | ⟨e, later⟩⟩⟩
      · simp [hsign] at htake
      · simp [hsign] at htake
      · simp [hsign] at htake
      · have hfront : sign <+: b :: c :: d :: e :: later := ⟨later, by rw [← htake]; rfl⟩
        exact h hfront.isInfix
    exact (structure?_cons_of_ne hne).trans (ih fun hin => h (List.infix_cons hin))

/-! ## The head -/

variable {im : Image}

theorem offset_succ {i : ℕ} {t : Bytes} (h : im.sections[i]? = some t) :
    im.offset (i + 1) = im.offset i + t.length := by
  rw [Image.offset, List.take_add_one, h, List.flatten_append, List.length_append, Image.offset,
    Nat.add_assoc]
  simp

theorem offset_le_succ (im : Image) (i : ℕ) : im.offset i ≤ im.offset (i + 1) := by
  cases h : im.sections[i]? with
  | none =>
    rw [Image.offset, Image.offset, List.take_add_one, h, Option.toList_none, List.append_nil]
  | some t =>
    rw [offset_succ h]
    exact Nat.le_add_right _ _

theorem length_header (im : Image) : im.header.length = 0x28 := by
  simp [Image.header, List.range_succ]

/-- The offsets behind the sign are read as they were written. -/
theorem offsets?_bytes {a b c d e f g : ℕ} (ha : a < 2 ^ 32) (hb : b < 2 ^ 32) (hc : c < 2 ^ 32)
    (hd : d < 2 ^ 32) (he : e < 2 ^ 32) (hf : f < 2 ^ 32) (hg : g < 2 ^ 32) (rest : Bytes) :
    offsets? ([a, b, c, d, e, f, g].flatMap (Word.bigBytes 4) ++ rest) =
      some (⟨a, b, c, d, e, f, g⟩, rest) := by
  have hexact : (pair word32 <| pair word32 <| pair word32 <| pair word32 <| pair word32 <|
      pair word32 word32).Exact :=
    pair_exact word32_exact <| pair_exact word32_exact <| pair_exact word32_exact <|
      pair_exact word32_exact <| pair_exact word32_exact <| pair_exact word32_exact word32_exact
  have hbytes : [a, b, c, d, e, f, g].flatMap (Word.bigBytes 4) ++ rest =
      (pair word32 <| pair word32 <| pair word32 <| pair word32 <| pair word32 <|
        pair word32 word32).encode (.ofNat a, .ofNat b, .ofNat c, .ofNat d, .ofNat e, .ofNat f,
        .ofNat g) ++ rest := by
    simp [pair, word32_ofNat ha, word32_ofNat hb, word32_ofNat hc, word32_ofNat hd,
      word32_ofNat he, word32_ofNat hf, word32_ofNat hg]
  have hread := (read?_eq_some_iff hexact).2 hbytes
  have hback {n : ℕ} (h : n < 2 ^ 32) : (UInt32.ofNat n).toNat = n := by
    rw [UInt32.toNat_ofNat', Nat.mod_eq_of_lt h]
  rw [offsets?, hread, Option.map_some]
  simp only [hback ha, hback hb, hback hc, hback hd, hback he, hback hf, hback hg]

/-- The offsets after the first one. -/
def Image.offsets (im : Image) : Offsets :=
  ⟨im.offset 1, im.offset 2, im.offset 3, im.offset 4, im.offset 5, im.offset 6, im.offset 7⟩

theorem decreasing?_offsets (im : Image) : im.offsets.decreasing? = none := by
  have hle : firstOffset ≤ im.offset 1 := offset_le_succ im 0
  simp [Offsets.decreasing?, Offsets.starts, Image.offsets, hle, offset_le_succ im]

/-- **The head of a structure is read as it was built.** -/
theorem head_header (h : im.offset 7 < 2 ^ 32) (rest : Bytes) :
    head (im.header ++ rest) = .ok im.offsets := by
  have hle (i : ℕ) (hi : i ≤ 7) : im.offset i < 2 ^ 32 :=
    (monotone_nat_of_le_succ (offset_le_succ im) hi).trans_lt h
  set words := Word.bigBytes 2 im.freeWord.toNat ++
    ([0xFF, 0xFF] ++ (Word.bigBytes 4 im.reserved.toNat ++ rest)) with hwords
  have hdrop : (im.header ++ rest).drop 4 =
      [im.offset 1, im.offset 2, im.offset 3, im.offset 4, im.offset 5, im.offset 6,
        im.offset 7].flatMap (Word.bigBytes 4) ++ words := by
    simp [hwords, Image.header, List.range_succ]
  have hoffsets : offsets? ((im.header ++ rest).drop 4) = some (im.offsets, words) := by
    rw [hdrop]
    exact offsets?_bytes (hle 1 (by omega)) (hle 2 (by omega)) (hle 3 (by omega))
      (hle 4 (by omega)) (hle 5 (by omega)) (hle 6 (by omega)) h words
  have hfree : word16.read? words =
      some (im.freeWord, [0xFF, 0xFF] ++ (Word.bigBytes 4 im.reserved.toNat ++ rest)) :=
    (read?_eq_some_iff word16_exact).2 rfl
  have hmark (rest : Bytes) : word16.read? ([0xFF, 0xFF] ++ rest) = some (0xFFFF, rest) :=
    (read?_eq_some_iff word16_exact).2 rfl
  have hreserved : word32.read? (Word.bigBytes 4 im.reserved.toNat ++ rest) =
      some (im.reserved, rest) := (read?_eq_some_iff word32_exact).2 rfl
  rw [head, hoffsets]
  simp only [within, bind, Except.bind, hfree, hmark, hreserved, decreasing?_offsets]
  rw [if_neg (fun hne => hne rfl)]

/-! ## The tables -/

theorem from?_append {front rest : Bytes} {n : ℕ} (h : front.length = n) :
    from? (front ++ rest) n = some rest := by
  have hle : n ≤ (front ++ rest).length := by
    rw [List.length_append, h]
    exact Nat.le_add_right _ _
  rw [from?, if_pos hle, List.drop_left' h]

/-- **Each table lies where its offset says**, and its filler makes up no record. -/
theorem image_section? {α : Type} {l : Layout α} (hl : l.Exact) {t : Padded α} (ht : t.Short l)
    {i : ℕ} (hi : im.sections[i]? = some (t.bytes l)) (rest : Bytes) :
    OffsetTable.section? l (im.header ++ im.sections.flatten ++ rest) (im.offset i)
      (im.offset (i + 1)) = some t.records := by
  obtain ⟨hlt, hget⟩ := List.getElem?_eq_some_iff.1 hi
  set front := im.header ++ (im.sections.take i).flatten with hfront
  set later := (im.sections.drop (i + 1)).flatten ++ rest with hlater
  have hcut : im.header ++ im.sections.flatten ++ rest =
      front ++ (l.encodeAll t.records ++ (t.filler ++ later)) := by
    conv_lhs => rw [← List.take_append_drop i im.sections, List.drop_eq_getElem_cons hlt, hget]
    simp only [hfront, hlater, Padded.bytes, List.flatten_append, List.flatten_cons, List.append_assoc]
  have hoffset : front.length = im.offset i := by
    rw [hfront, List.length_append, length_header, Image.offset]
  -- the room up to the next offset has space for the records of the table and for no other one
  have hcount : (im.offset (i + 1) - im.offset i) / l.size = t.records.size := by
    have hpos : 0 < l.size := Nat.zero_lt_of_lt ht
    rw [offset_succ hi, Nat.add_sub_cancel_left, t.length_bytes hl, Nat.mul_comm,
      Nat.mul_add_div hpos, Nat.div_eq_of_lt ht, Nat.add_zero]
  have htake : l.take? t.records.size (l.encodeAll t.records ++ (t.filler ++ later)) =
      some (t.records, t.filler ++ later) := (take?_eq_some_iff hl).2 ⟨rfl, rfl⟩
  rw [section?, hcut, from?_append hoffset, hcount]
  simp only [Option.bind_eq_bind, Option.bind_some, htake]
  rfl

theorem bareSamples?_recorded (hcount : im.recordings.length < 2 ^ 31)
    (hsizes : ∀ r ∈ im.recordings, r.size < 2 ^ 32) (rest : Bytes) :
    Counted.bareSamples? (im.recorded ++ rest) =
      some ((im.recordings.map Sample.bare).toArray, rest) := by
  have hn := Counted.count?_encodeCount hcount (Counted.encodeSized im.recordings ++ rest)
  have hrecorded : im.recorded ++ rest =
      Counted.encodeCount im.recordings.length ++ (Counted.encodeSized im.recordings ++ rest) := by
    simp only [Image.recorded, Counted.encodeCount, Counted.encodeSized, List.append_assoc]
  rw [hrecorded, Counted.bareSamples?]
  simp only [Option.bind_eq_bind, hn, Option.bind_some, Counted.sized?_encodeSized hsizes]
  rfl

/-- **All tables are read as they were built.** -/
theorem tables?_image (h : im.Fits) (rest : Bytes) :
    tables? (im.header ++ im.sections.flatten ++ (im.recorded ++ rest)) im.offsets =
      some ({ encoding := .offsetTable, songs := im.songs.records, parts := im.parts.records
              notes := im.notes.records, instruments := im.instruments.records
              samples := (im.recordings.map Sample.bare).toArray, waves := im.waves.records
              volumeWaves := im.volumeWaves.records, pitchWaves := im.pitchWaves.records }, rest) := by
  have hfirst : firstOffset = im.offset 0 := rfl
  have hlen : (im.header ++ im.sections.flatten).length = im.offset 7 := by
    rw [List.length_append, length_header]
    rfl
  rw [tables?]
  simp only [Image.offsets, hfirst, Option.bind_eq_bind, Option.bind_some,
    image_section? Record.song_exact h.songs (i := 0) rfl,
    image_section? Record.part_exact h.parts (i := 1) rfl,
    image_section? Record.note_exact h.notes (i := 2) rfl,
    image_section? Record.instrument_exact h.instruments (i := 3) rfl,
    image_section? Record.wave_exact h.waves (i := 4) rfl,
    image_section? Record.wave_exact h.volumeWaves (i := 5) rfl,
    image_section? Record.wave_exact h.pitchWaves (i := 6) rfl,
    from?_append hlen, bareSamples?_recorded h.count h.sizes]
  rfl

/-! ## The author and the whole image -/

theorem author?_signature (h : ∀ c ∈ im.author.toList, c.toNat < 128) (rest : Bytes) :
    author? (im.signature ++ rest) = some im.author := by
  have hnonzero : ∀ b ∈ im.author.toList.map (fun c => ~~~UInt8.ofNat c.toNat), b ≠ 0 := by
    intro b hb
    obtain ⟨c, hc, rfl⟩ := List.mem_map.1 hb
    intro hzero
    have hlt := h c hc
    have := congrArg UInt8.toNat hzero
    simp [UInt8.toNat_not] at this
    omega
  have hname : (im.signature ++ rest).takeWhile (· ≠ 0) =
      im.author.toList.map fun c => ~~~UInt8.ofNat c.toNat := by
    rw [Image.signature, List.append_assoc, List.takeWhile_append_of_pos (by simpa using hnonzero)]
    simp
  have hzero : (0 : UInt8) ∈ im.signature ++ rest := by simp [Image.signature]
  rw [author?, if_pos hzero, hname, authorChars_map_complement _ h, String.ofList_toList]

/-- **A structure is read as it was built**, whatever program it stands in. -/
theorem decode_bytes (h : im.Fits) :
    decode im.bytes = .ok
      { encoding := .offsetTable, author := some im.author, songs := im.songs.records
        parts := im.parts.records, notes := im.notes.records
        instruments := im.instruments.records
        samples := (im.recordings.map Sample.bare).toArray, waves := im.waves.records
        volumeWaves := im.volumeWaves.records, pitchWaves := im.pitchWaves.records } := by
  have hbody : im.body = im.header ++ im.sections.flatten ++
      (im.recorded ++ (sentinel ++ (im.signature ++ im.after))) := by
    simp only [Image.body, sentinel, List.append_assoc]
  have hsign : ∃ rest, im.body = sign ++ rest := by
    simp only [Image.body, Image.header, List.range_succ_eq_map, List.flatMap_cons, List.append_assoc]
    exact ⟨_, rfl⟩
  have hstructure : structure? im.bytes = some im.body := by
    obtain ⟨rest, hrest⟩ := hsign
    rw [Image.bytes, hrest]
    exact structure?_append h.before
  have hhead : head im.body = .ok im.offsets := by
    rw [hbody, List.append_assoc]
    exact head_header h.offset _
  have htables := tables?_image h (sentinel ++ (im.signature ++ im.after))
  rw [← hbody] at htables
  have hauthor := author?_signature h.author im.after
  rw [decode, hstructure]
  simp only [bind, Except.bind, hhead, htables, within, List.take_left, List.drop_left, hauthor]
  rw [if_neg (fun hne => hne rfl)]
  rfl

end Chiptune.OffsetTable

namespace Chiptune.ModuleFile

open OffsetTable

/-- **An image is read as the tables it was built from**: the recordings as bare samples, the author
by name, the standard version, and no state of the editor. -/
theorem decode_image {im : Image} (h : im.Fits) (hmark : ¬ Chunked.mark <+: im.bytes) :
    decode im.bytes = .ok
      { encoding := .offsetTable, version := standardVersion, author := some im.author
        songs := im.songs.records, parts := im.parts.records, notes := im.notes.records
        instruments := im.instruments.records
        samples := (im.recordings.map Sample.bare).toArray, waves := im.waves.records
        volumeWaves := im.volumeWaves.records, pitchWaves := im.pitchWaves.records
        editor := none } := by
  have hlong : ¬ im.bytes.length < 4 := by
    have := length_header im
    simp only [Image.bytes, Image.body, List.length_append]
    omega
  have htake : im.bytes.take 4 ≠ Chunked.mark := by
    intro htake
    exact hmark (htake ▸ List.take_prefix 4 im.bytes)
  have hform : encoding? im.bytes = .ok .offsetTable := by
    rw [encoding?, if_neg hlong, if_neg htake]
  rw [decode, hform]
  exact decode_bytes h

/-- A program that ends in two zeros, so that the sign after it is met late, and tables with fillers
just shorter than a record. -/
def ripped : Image :=
  { before := [0x53, 0x4F, 0x41, 0x00, 0x00]
    freeWord := 7
    reserved := 9
    songs := ⟨#[⟨6, 64, 3, 1, 9, 50⟩], List.replicate 11 0⟩
    parts := ⟨#[⟨0, 0, 0⟩, ⟨1, -1, 2⟩], [0, 0, 0x28]⟩
    notes := ⟨#[], [1]⟩
    instruments := ⟨#[{ (default : Instrument) with volume := 64 }], List.replicate 151 0xFF⟩
    waves := ⟨#[], []⟩
    volumeWaves := ⟨#[Wave.silent], [1, 2, 3]⟩
    pitchWaves := ⟨#[], List.replicate 127 5⟩
    recordings := [#[1, 2, 3], #[]]
    author := "no body"
    after := [0, 0, 0, 0x28] }

theorem ripped_read :
    ripped.Fits ∧ ¬ Chunked.mark <+: ripped.bytes ∧
      decode ripped.bytes = .ok
        { encoding := .offsetTable, version := standardVersion, author := some "no body"
          songs := #[⟨6, 64, 3, 1, 9, 50⟩], parts := #[⟨0, 0, 0⟩, ⟨1, -1, 2⟩], notes := #[]
          instruments := #[{ (default : Instrument) with volume := 64 }]
          samples := #[Sample.bare #[1, 2, 3], Sample.bare #[]], waves := #[]
          volumeWaves := #[Wave.silent], pitchWaves := #[], editor := none } := by
  have hfits : ripped.Fits :=
    { before := by decide, offset := by decide +kernel, count := by decide
      sizes := by decide +kernel, songs := by decide, parts := by decide, notes := by decide
      instruments := by decide +kernel, waves := by decide, volumeWaves := by decide +kernel
      pitchWaves := by decide +kernel, author := by simp [ripped] }
  have hmark : ¬ Chunked.mark <+: ripped.bytes := by decide +kernel
  exact ⟨hfits, hmark, decode_image hfits hmark⟩

end Chiptune.ModuleFile
