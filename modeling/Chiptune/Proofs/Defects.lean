import Mathlib
import Chiptune.Proofs.Grammar

/-!
# Why a chunked file is refused

A file behind the mark is refused for one of two reasons: it ends too early, or a tag is unknown. Which
one it is depends on the first place where the grammar is left. How many bytes a payload needs is
computed here from its own counts and sizes, without a reader.

* `Tag.demand`: how long a payload is, as its first bytes say.
* `Chunk.read?_eq_none_iff`: **a payload is refused exactly if the input is shorter than that**.
* `Chunked.chunks_error_iff`: the first chunk that is no piece decides.
* `ModuleFile.decode_chunked_fault`: **the two reasons, and where they lie**.
-/

namespace Chiptune

open Layout

/-- The signed number in the first four bytes, a negative one counting nothing. -/
def countOf (s : Bytes) : ℕ :=
  (Word.signed32 (Word.big (s.take 4))).toNat

/-- The numbers in the first `n` words of four bytes. -/
def sizesOf (n : ℕ) (s : Bytes) : List ℕ :=
  (List.range n).map fun i => Word.big ((s.drop (4 * i)).take 4)

/-- The length that a payload has, as the bytes at its front say. Where these are cut short
themselves, it is more than there are. -/
def Tag.demand (t : Tag) (s : Bytes) : ℕ :=
  match t with
  | .table .songs => 4 + countOf s * 12
  | .table .parts => 4 + countOf s * 16
  | .table .notes => 4 + countOf s * 4
  | .table .instruments => 4 + countOf s * 152
  | .table .samples =>
    4 + countOf s * 42 + (sizesOf (countOf s) (s.drop (4 + countOf s * 38))).sum
  | .table .waves | .table .volumeWaves | .table .pitchWaves => 4 + countOf s * 128
  | .editor => 20

namespace Counted

variable {s : Bytes} {n : ℕ}

theorem counts_countOf (h : 4 ≤ s.length) : Counts (countOf s) (s.take 4) := by
  refine ⟨?_, ?_⟩
  · rw [List.length_take, Nat.min_eq_left h]
  · unfold countOf
    rfl

theorem count?_of_length (h : 4 ≤ s.length) : count? s = some (countOf s, s.drop 4) :=
  count?_eq_some_iff.2 ⟨s.take 4, counts_countOf h, (List.take_append_drop 4 s).symm⟩

theorem count?_of_short (h : s.length < 4) : count? s = none := by
  have hsize : word32.size = 4 := rfl
  rw [count?, read?, if_neg (by omega)]
  rfl

/-- **A table is refused exactly if its records do not fit.** -/
theorem table?_eq_none_iff {α : Type} {l : Layout α} {group : ℕ} :
    table? l group s = none ↔ s.length < 4 + countOf s * (group * l.size) := by
  rcases Nat.lt_or_ge s.length 4 with h | h
  · rw [table?, count?_of_short h, Option.bind_none]
    generalize countOf s = n
    simp only [true_iff]
    omega
  · rw [table?, count?_of_length h, Option.bind_some]
    generalize countOf s = n
    simp only [take?, List.length_drop, Nat.mul_assoc]
    split
    · simp only [reduceCtorEq, false_iff]
      omega
    · simp only [true_iff]
      omega

/-- A byte string cut at some sizes. -/
def cut : List ℕ → Bytes → List (Array UInt8)
  | [], _ => []
  | n :: sizes, s => (s.take n).toArray :: cut sizes (s.drop n)

theorem recordings?_eq (sizes : List ℕ) (s : Bytes) : recordings? sizes s =
    if sizes.sum ≤ s.length then some (cut sizes s, s.drop sizes.sum) else none := by
  induction sizes generalizing s with
  | nil => rfl
  | cons n sizes ih =>
    rw [recordings?, ih, List.sum_cons, List.length_drop]
    by_cases hin : n ≤ s.length
    · rw [if_pos hin]
      by_cases hfits : n + sizes.sum ≤ s.length
      · rw [if_pos hfits, if_pos (by omega), Option.map_some, List.drop_drop, cut]
      · rw [if_neg hfits, if_neg (by omega)]
        rfl
    · rw [if_neg hin, if_neg (by omega)]

theorem toNat_word32 (s : Bytes) : (word32.decode s).toNat = Word.big (s.take 4) := by
  have hlt : Word.big (s.take 4) < Word.span 4 := by
    have hlen : (s.take 4).length ≤ 4 := by simp
    refine (Word.big_lt _).trans_le ?_
    interval_cases (s.take 4).length <;> decide
  exact Nat.mod_eq_of_lt hlt

theorem map_toNat_many (n : ℕ) (s : Bytes) :
    (word32.many n s).map UInt32.toNat = sizesOf n s := by
  induction n generalizing s with
  | zero => rfl
  | succ n ih =>
    rw [many, List.map_cons, ih, toNat_word32, sizesOf, sizesOf, List.range_succ_eq_map, List.map_cons,
      List.map_map]
    congr 1
    refine List.map_congr_left fun i _ => ?_
    rw [List.drop_drop, Function.comp_apply, Nat.mul_succ, Nat.add_comm]
    rfl

/-- Recordings lie one after the other behind their sizes. -/
theorem sized?_eq (n : ℕ) (s : Bytes) : sized? n s =
    if n * 4 + (sizesOf n s).sum ≤ s.length then
      some (cut (sizesOf n s) (s.drop (n * 4)), s.drop (n * 4 + (sizesOf n s).sum))
    else none := by
  have hsize : word32.size = 4 := rfl
  rw [sized?, take?, hsize]
  by_cases hin : n * 4 ≤ s.length
  · rw [if_pos hin, Option.bind_some]
    simp only [map_toNat_many, recordings?_eq, List.length_drop, List.drop_drop]
    by_cases hfits : n * 4 + (sizesOf n s).sum ≤ s.length
    · rw [if_pos hfits, if_pos (by omega)]
    · rw [if_neg hfits, if_neg (by omega)]
  · rw [if_neg hin, if_neg (by omega), Option.bind_none]

/-- **Recordings behind their sizes are refused exactly if they do not fit.** -/
theorem sized?_eq_none_iff : sized? n s = none ↔ s.length < n * 4 + (sizesOf n s).sum := by
  rw [sized?_eq, ite_eq_right_iff]
  simp only [reduceCtorEq, imp_false, not_le]

/-- Descriptions, sizes and recordings, once it is known how many there are. -/
def described? (n : ℕ) (s : Bytes) : Option (Array Sample × Bytes) :=
  (Record.sampleInfo.take? n s).bind fun (infos, rest) =>
    (sized? n rest).map fun (recordings, rest) =>
      ((List.zipWith Sample.mk infos.toList recordings).toArray, rest)

theorem samples?_eq_bind (s : Bytes) :
    samples? s = (count? s).bind fun (n, rest) => described? n rest := by
  simp only [described?, Option.map_eq_bind]
  rfl

theorem described?_eq_none_iff : described? n s = none ↔
    s.length < n * 42 + (sizesOf n (s.drop (n * 38))).sum := by
  have hsize : Record.sampleInfo.size = 38 := rfl
  simp only [described?, take?, hsize]
  split
  · simp only [Option.bind_some, Option.map_eq_none_iff, sized?_eq_none_iff, List.length_drop]
    omega
  · simp only [Option.bind_none, true_iff]
    omega

/-- **Samples are refused exactly if they do not fit**: their descriptions, their sizes and their
recordings. -/
theorem samples?_eq_none_iff : samples? s = none ↔
    s.length < 4 + countOf s * 42 + (sizesOf (countOf s) (s.drop (4 + countOf s * 38))).sum := by
  rw [samples?_eq_bind]
  rcases Nat.lt_or_ge s.length 4 with h | h
  · rw [count?_of_short h, Option.bind_none]
    generalize countOf s = n
    simp only [true_iff]
    omega
  · rw [count?_of_length h, Option.bind_some, described?_eq_none_iff, List.length_drop,
      List.drop_drop]
    generalize countOf s = n
    omega

end Counted

/-- **A payload is refused exactly if the input is shorter than it says.** -/
theorem Chunk.read?_eq_none_iff {t : Tag} {s : Bytes} :
    Chunk.read? t s = none ↔ s.length < t.demand s := by
  obtain ⟨hsong, hpart, hnote, hinstrument, -, hwave⟩ := Record.sizes
  rcases t with (_ | _ | _ | _ | _ | _ | _ | _) | _ <;>
    simp only [Chunk.read?, Tag.demand, Option.map_eq_none_iff, Counted.table?_eq_none_iff,
      Counted.samples?_eq_none_iff, hsong, hpart, hnote, hinstrument, hwave, Score.partsPerStep,
      Nat.one_mul]
  case editor =>
    have hsize : (Record.raw 20).size = 20 := rfl
    simp only [Layout.read?, hsize]
    split
    · simp only [reduceCtorEq, false_iff]
      omega
    · simp only [true_iff]
      omega

/-- Letters are unknown exactly if no tag has them. -/
theorem Tag.ofBytes?_eq_none_iff {s : Bytes} : Tag.ofBytes? s = none ↔ ∀ t : Tag, t.bytes ≠ s := by
  constructor
  · rintro h t rfl
    rw [Tag.ofBytes?_bytes] at h
    cases h
  · intro h
    cases ht : Tag.ofBytes? s with
    | none => rfl
    | some t => exact absurd (Tag.bytes_of_ofBytes? ht) (h t)

namespace Chunked

variable {total : ℕ} {s : Bytes} {fault : FileFault}

/-- What is wrong with the first chunk, if it is no piece. -/
inductive Defect (total : ℕ) (s : Bytes) : FileFault → Prop
  /-- Less than a tag is left. -/
  | noTag (h : s.length < 4) : Defect total s .endOfData
  /-- No chunk has such a tag. -/
  | unknown (tag rest : Bytes) (hs : s = tag ++ rest) (hlen : tag.length = 4)
      (h : ∀ t : Tag, t.bytes ≠ tag) : Defect total s (.unknownChunk tag (total - s.length))
  /-- The payload is longer than what is left. -/
  | cut (t : Tag) (payload : Bytes) (hs : s = t.bytes ++ payload)
      (h : payload.length < t.demand payload) : Defect total s .endOfData

theorem firstChunk_error_iff : firstChunk total s = .error fault ↔ Defect total s fault := by
  constructor
  · intro h
    unfold firstChunk at h
    split at h
    · rename_i hshort
      cases h
      exact .noTag hshort
    · rename_i hlong
      split at h
      · rename_i htag
        cases h
        refine .unknown (s.take 4) (s.drop 4) (List.take_append_drop 4 s).symm ?_
          (Tag.ofBytes?_eq_none_iff.1 htag)
        rw [List.length_take]
        omega
      · rename_i t htag
        split at h
        · rename_i hread
          cases h
          refine .cut t (s.drop 4) ?_ (Chunk.read?_eq_none_iff.1 hread)
          rw [Tag.bytes_of_ofBytes? htag, List.take_append_drop]
        · cases h
  · intro h
    unfold firstChunk
    cases h with
    | noTag hshort => rw [if_pos hshort]
    | unknown tag rest hs hlen h =>
      have hlong : ¬ s.length < 4 := by
        rw [hs, List.length_append]
        omega
      have htake : s.take 4 = tag := by rw [hs, List.take_left' hlen]
      rw [if_neg hlong, htake, Tag.ofBytes?_eq_none_iff.2 h]
    | cut t payload hs h =>
      have hlen : t.bytes.length = 4 := t.length_bytes
      have hlong : ¬ s.length < 4 := by
        rw [hs, List.length_append]
        omega
      rw [if_neg hlong, hs, List.take_left' hlen, List.drop_left' hlen, Tag.ofBytes?_bytes]
      simp only [Chunk.read?_eq_none_iff.2 h]

/-- **The first chunk that is no piece decides.** -/
theorem chunks_error_iff : chunks total s = .error fault ↔
    ∃ (ps : List Piece) (rest : Bytes), s = ps.flatMap Piece.bytes ++ rest ∧ rest ≠ [] ∧
      Defect total rest fault := by
  constructor
  · intro h
    fun_induction chunks total s with
    | case1 => cases h
    | case2 s hne fault' hfirst =>
      cases h
      exact ⟨[], s, rfl, by simpa using hne, firstChunk_error_iff.1 hfirst⟩
    | case3 s hne found hfirst ih =>
      have hlater : chunks total found.2 = .error fault := by
        cases hr : chunks total found.2 with
        | error fault' => rw [hr] at h; cases h; rfl
        | ok later => rw [hr] at h; cases h
      obtain ⟨p, -, hs⟩ := firstChunk_ok_iff.1 hfirst
      obtain ⟨ps, rest, hrest, hnil, hdefect⟩ := ih hlater
      refine ⟨p :: ps, rest, ?_, hnil, hdefect⟩
      rw [hs, hrest, List.flatMap_cons, List.append_assoc]
  · rintro ⟨ps, rest, rfl, hnil, hdefect⟩
    induction ps with
    | nil =>
      have hfirst := firstChunk_error_iff.2 hdefect
      rw [List.flatMap_nil, List.nil_append, chunks_cons hnil, hfirst]
    | cons p ps ih =>
      have hne : p.bytes ++ (ps.flatMap Piece.bytes ++ rest) ≠ [] := by
        intro hnil
        exact p.bytes_ne_nil (List.append_eq_nil_iff.1 hnil).1
      rw [List.flatMap_cons, List.append_assoc, chunks_cons hne, firstChunk_ok_iff.2 ⟨p, rfl, rfl⟩]
      simp only [ih]
      rfl

end Chunked

namespace ModuleFile

variable {file : Bytes} {fault : FileFault}

theorem length_composed_ge (version : Vector UInt8 4) (ps : List Piece) :
    8 ≤ (composed version ps).length := by
  have hmark : Chunked.mark.length = 4 := rfl
  simp only [composed, List.length_append, hmark, Vector.length_toList]
  omega

/-- What is wrong with a file behind the mark. -/
theorem decode_chunked_error_iff (hmark : Chunked.mark <+: file) : decode file = .error fault ↔
    (file.length < 8 ∧ fault = .endOfData) ∨
      ∃ version ps rest, file = composed version ps ++ rest ∧ rest ≠ [] ∧
        Chunked.Defect file.length rest fault := by
  obtain ⟨s, rfl⟩ := hmark
  have hlen : (Chunked.mark ++ s).length = s.length + Chunked.mark.length := by
    rw [List.length_append, Nat.add_comm]
  have hmark : Chunked.mark.length = 4 := rfl
  have hsize : (Record.raw 4).size = 4 := rfl
  have hencode (version : Vector UInt8 4) : (Record.raw 4).encode version = version.toList := by
    simp [Record.raw, vector, byte]
  rw [decode_mark_append, Chunked.decode]
  cases hversion : (Record.raw 4).read? s with
  | none =>
    have hshort : s.length < 4 := by
      by_contra hlong
      rw [Layout.read?, hsize, if_pos (by omega)] at hversion
      cases hversion
    constructor
    · intro h
      cases h
      exact Or.inl ⟨by omega, rfl⟩
    · rintro (⟨-, rfl⟩ | ⟨version, ps, rest, hfile, -⟩)
      · rfl
      · have hlong := length_composed_ge version ps
        have hsame := congrArg List.length hfile
        rw [hlen, List.length_append] at hsame
        omega
  | some found =>
    obtain ⟨version, body⟩ := found
    have hs := (read?_eq_some_iff (Record.raw_exact 4)).1 hversion
    rw [hencode] at hs
    have hmap : (Except.map (Chunked.assemble version)
        (Chunked.chunks (s.length + Chunked.mark.length) body)) = .error fault ↔
        Chunked.chunks (s.length + Chunked.mark.length) body = .error fault := by
      cases Chunked.chunks (s.length + Chunked.mark.length) body <;> simp [Except.map]
    change Except.map _ _ = _ ↔ _
    rw [hmap, Chunked.chunks_error_iff, ← hlen]
    constructor
    · rintro ⟨ps, rest, hbody, hnil, hdefect⟩
      refine Or.inr ⟨version, ps, rest, ?_, hnil, hdefect⟩
      rw [hs, hbody, composed]
      simp only [List.append_assoc]
    · rintro (⟨hshort, -⟩ | ⟨version', ps, rest, hfile, hnil, hdefect⟩)
      · rw [hs] at hshort
        simp only [List.length_append, hmark, Vector.length_toList] at hshort
        omega
      · rw [hs] at hfile
        simp only [composed, List.append_assoc] at hfile
        have hsame := List.append_inj (List.append_cancel_left hfile) (by simp)
        exact ⟨ps, rest, hsame.2, hnil, hdefect⟩

/-- **Why a file behind the mark is refused.** There are two reasons. A tag is unknown exactly if the
file is the mark, a version and a row of chunks as they are spelled, and then four bytes that are no
tag, whatever follows them; the fault names these bytes and where they lie, which is behind the first
eight bytes. The file ends too early exactly if it has less than eight bytes, or if behind such a row
one to three bytes are left, or a tag and less than its payload says it needs, however much that is
and whatever else is left. -/
theorem decode_chunked_fault (hmark : Chunked.mark <+: file) :
    (∀ fault, decode file = .error fault →
      fault = .endOfData ∨ ∃ tag offset, fault = .unknownChunk tag offset) ∧
    (∀ tag offset, decode file = .error (.unknownChunk tag offset) ↔
      tag.length = 4 ∧ (∀ t : Tag, t.bytes ≠ tag) ∧ 8 ≤ offset ∧ ∃ version ps rest,
        file = composed version ps ++ tag ++ rest ∧ offset = (composed version ps).length) ∧
    (decode file = .error .endOfData ↔ file.length < 8 ∨ ∃ version ps,
      (∃ left, file = composed version ps ++ left ∧ 1 ≤ left.length ∧ left.length ≤ 3) ∨
      ∃ (t : Tag) (payload : Bytes), file = composed version ps ++ t.bytes ++ payload ∧
        payload.length < t.demand payload) ∧
    ∀ tag offset, (FileFault.unknownChunk tag offset).message =
      "unknown chunk '" ++ Utf8.lossy tag ++ "' at offset 0x" ++ hexadecimal offset := by
  refine ⟨?_, ?_, ?_, fun _ _ => rfl⟩
  · intro fault h
    rcases (decode_chunked_error_iff hmark).1 h with ⟨-, rfl⟩ | ⟨version, ps, rest, -, -, hdefect⟩
    · exact Or.inl rfl
    · cases hdefect with
      | noTag | cut => exact Or.inl rfl
      | unknown tag => exact Or.inr ⟨tag, _, rfl⟩
  · intro tag offset
    rw [decode_chunked_error_iff hmark]
    constructor
    · rintro (⟨-, hend⟩ | ⟨version, ps, left, hfile, -, hdefect⟩)
      · cases hend
      · cases hdefect with
        | unknown tag rest hs hlen h =>
          have hoffset : file.length - left.length = (composed version ps).length := by
            rw [hfile, List.length_append, Nat.add_sub_cancel]
          refine ⟨hlen, h, ?_, version, ps, rest, ?_, hoffset⟩
          · rw [hoffset]
            exact length_composed_ge version ps
          · rw [hfile, hs, List.append_assoc]
    · rintro ⟨hlen, h, -, version, ps, rest, hfile, rfl⟩
      rw [List.append_assoc] at hfile
      refine Or.inr ⟨version, ps, tag ++ rest, hfile, ?_, ?_⟩
      · intro hnil
        rw [(List.append_eq_nil_iff.1 hnil).1] at hlen
        cases hlen
      · have hoffset : file.length - (tag ++ rest).length = (composed version ps).length := by
          rw [hfile, List.length_append, Nat.add_sub_cancel]
        rw [← hoffset]
        exact .unknown tag rest rfl hlen h
  · rw [decode_chunked_error_iff hmark]
    constructor
    · rintro (⟨hshort, -⟩ | ⟨version, ps, left, hfile, hnil, hdefect⟩)
      · exact Or.inl hshort
      · refine Or.inr ⟨version, ps, ?_⟩
        cases hdefect with
        | noTag h =>
          have := List.length_pos_iff.2 hnil
          exact Or.inl ⟨left, hfile, by omega, by omega⟩
        | cut t payload hs h =>
          refine Or.inr ⟨t, payload, ?_, h⟩
          rw [hfile, hs, List.append_assoc]
    · rintro (hshort | ⟨version, ps, ⟨left, hfile, hlo, hhi⟩ | ⟨t, payload, hfile, h⟩⟩)
      · exact Or.inl ⟨hshort, rfl⟩
      · exact Or.inr ⟨version, ps, left, hfile, List.length_pos_iff.1 hlo, .noTag (by omega)⟩
      · rw [List.append_assoc] at hfile
        refine Or.inr ⟨version, ps, t.bytes ++ payload, hfile, ?_, .cut t payload rfl h⟩
        intro hnil
        have := t.length_bytes
        rw [(List.append_eq_nil_iff.1 hnil).1] at this
        cases this

/-- Notes, a negative count of waves, and a tag that no chunk has; later a whole chunk follows. -/
def misspelled : Bytes :=
  composed standardVersion (revised.take 2) ++ Tag.letters 'N' 'O' 'T' 'E' ++
    (revised.drop 2).flatMap Piece.bytes

/-- A count of two billion notes, and what would be an unknown tag behind it. -/
def overstated : Bytes :=
  composed standardVersion (revised.take 2) ++ (Tag.table .notes).bytes ++
    ([0x7F, 0xFF, 0xFF, 0xFF] ++ Tag.letters 'N' 'O' 'T' 'E')

theorem misspelled_fault :
    Chunked.mark <+: misspelled ∧
      decode misspelled = .error (.unknownChunk (Tag.letters 'N' 'O' 'T' 'E') 28) ∧
      Chunked.mark <+: overstated ∧ decode overstated = .error .endOfData := by
  have hmark : Chunked.mark <+: misspelled := by decide
  have hmark' : Chunked.mark <+: overstated := by decide
  have hunknown : ∀ t : Tag, t.bytes ≠ Tag.letters 'N' 'O' 'T' 'E' := by
    rintro ((_ | _ | _ | _ | _ | _ | _ | _) | _) <;> decide
  obtain ⟨-, hdecode, -, -⟩ := decode_chunked_fault hmark
  obtain ⟨-, -, hdecode', -⟩ := decode_chunked_fault hmark'
  refine ⟨hmark, (hdecode _ _).2 ⟨rfl, hunknown, by decide, standardVersion, revised.take 2,
    (revised.drop 2).flatMap Piece.bytes, rfl, by decide⟩, hmark', ?_⟩
  exact hdecode'.2 (Or.inr ⟨standardVersion, revised.take 2, Or.inr ⟨.table .notes, _, rfl,
    by decide⟩⟩)

end ModuleFile

end Chiptune
