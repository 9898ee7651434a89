import Mathlib
import Chiptune.Proofs.Defects
import Chiptune.Proofs.Image

/-!
# What becomes of a structure

The bytes of a structure alone decide what is read of a file that has one, and the questions about
them are asked in a fixed order. `verdict` asks them one after the other and looks at lengths, words
and slices only; reading agrees with it on every byte string.

* `offsetAt`, `rangeOf`: the offsets of a structure, and the bytes of a table.
* `head_eq`: the questions about the head; `tables?_eq`: those about the tables, of which one is enough
  where the offsets are in order (`complete_iff`).
* `exists_begins`, `begins_of_absent`: where a structure begins.
* `ModuleFile.decode_offsetTable`: **reading gives the verdict on the first structure**, whatever
  stands before it.
-/

namespace Chiptune.OffsetTable

open Layout

/-! ## The questions -/

/-- The offset of a table in a structure, and at place zero the sign. -/
def offsetAt (s : Bytes) (i : ℕ) : ℕ :=
  Word.big ((s.drop (4 * i)).take 4)

/-- The table at each offset. -/
def tableAt : ℕ → Table
  | 0 => .songs
  | 1 => .parts
  | 2 => .notes
  | 3 => .instruments
  | 4 => .waves
  | 5 => .volumeWaves
  | 6 => .pitchWaves
  | _ => .samples

/-- The first table whose offset is below the one before it. -/
def firstBelow? (s : Bytes) : Option Table :=
  ((List.range 7).find? fun i => offsetAt s (i + 1) < offsetAt s i).map fun i => tableAt (i + 1)

/-- The bytes from the offset of a table up to the next offset. -/
def rangeOf (s : Bytes) (i : ℕ) : Bytes :=
  (s.drop (offsetAt s i)).take (offsetAt s (i + 1) - offsetAt s i)

/-- The record size of a table that has a next offset. -/
def recordSize : ℕ → ℕ
  | 0 => 12
  | 1 | 2 => 4
  | 3 => 152
  | _ => 128

/-- Where the last whole record of a table ends. -/
def tableEnd (s : Bytes) (i : ℕ) : ℕ :=
  offsetAt s i + (offsetAt s (i + 1) - offsetAt s i) / recordSize i * recordSize i

/-- The bytes from the offset of the samples on: a count, sizes and recordings. -/
def sampleBytes (s : Bytes) : Bytes :=
  s.drop (offsetAt s 7)

/-- Where the last recording ends. -/
def samplesEnd (s : Bytes) : ℕ :=
  let t := sampleBytes s
  offsetAt s 7 + 4 + countOf t * 4 + (sizesOf (countOf t) (t.drop 4)).sum

/-- No table and no recording goes past the end. -/
def Complete (s : Bytes) : Prop :=
  (∀ i < 7, tableEnd s i ≤ s.length) ∧ samplesEnd s ≤ s.length

instance (s : Bytes) : Decidable (Complete s) :=
  inferInstanceAs (Decidable ((∀ i < 7, tableEnd s i ≤ s.length) ∧ samplesEnd s ≤ s.length))

/-- All whole records of a byte string. -/
def recordsOf {α : Type} (l : Layout α) (s : Bytes) : Array α :=
  (l.many (s.length / l.size) s).toArray

/-- The tables of a structure, each from its own bytes. -/
def tablesOf (s : Bytes) : Score :=
  let t := sampleBytes s
  { encoding := .offsetTable
    songs := recordsOf Record.song (rangeOf s 0)
    parts := recordsOf Record.part (rangeOf s 1)
    notes := recordsOf Record.note (rangeOf s 2)
    instruments := recordsOf Record.instrument (rangeOf s 3)
    waves := recordsOf Record.wave (rangeOf s 4)
    volumeWaves := recordsOf Record.wave (rangeOf s 5)
    pitchWaves := recordsOf Record.wave (rangeOf s 6)
    samples := ((Counted.cut (sizesOf (countOf t) (t.drop 4)) (t.drop (4 + countOf t * 4))).map
      Sample.bare).toArray }

/-- A score with the author whose name stands in inverted bytes. -/
def signed (score : Score) (name : Bytes) : Score :=
  { score with author := some (String.ofList (authorChars (name.takeWhile (· ≠ 0)))) }

/-- What becomes of a structure: the first question that it fails names the fault. -/
def verdict (s : Bytes) : Except FileFault Score :=
  -- the sign, seven offsets, a free word and a mark; then a reserved word
  if s.length < 36 then .error .endOfData
  else if (s.drop 34).take 2 ≠ [0xFF, 0xFF] then .error .badHeader
  else if s.length < 40 then .error .endOfData
  else match firstBelow? s with
    | some table => .error (.decreasing table)
    | none =>
      if ¬ Complete s then .error .endOfData
      else if (s.drop (samplesEnd s)).take 12 ≠
          Tag.letters 'd' 'e' 'a' 'd' ++ Tag.letters 'b' 'e' 'e' 'f' ++ [0, 0, 0, 0] then
        .error .noSentinel
      else if 0 ∉ s.drop (samplesEnd s + 12) then .error .endOfData
      else .ok (signed (tablesOf s) (s.drop (samplesEnd s + 12)))

/-! ## The head -/

/-- The offsets after the first one. -/
def offsetsOf (s : Bytes) : Offsets :=
  ⟨offsetAt s 1, offsetAt s 2, offsetAt s 3, offsetAt s 4, offsetAt s 5, offsetAt s 6, offsetAt s 7⟩

theorem toNat_word (s : Bytes) (i : ℕ) :
    (word32.decode (s.drop (4 * i))).toNat = offsetAt s i :=
  Counted.toNat_word32 _

theorem offsets?_eq (s : Bytes) : offsets? (s.drop 4) =
    if s.length < 32 then none else some (offsetsOf s, s.drop 32) := by
  have hsize : (pair word32 <| pair word32 <| pair word32 <| pair word32 <| pair word32 <|
      pair word32 word32).size = 28 := rfl
  rw [offsets?, Layout.read?, hsize, List.length_drop]
  by_cases hlong : s.length < 32
  · rw [if_pos hlong, if_neg (by omega)]
    rfl
  · rw [if_neg hlong, if_pos (by omega), Option.map_some, List.drop_drop]
    have hdecode : (pair word32 <| pair word32 <| pair word32 <| pair word32 <| pair word32 <|
        pair word32 word32).decode (s.drop 4) =
        (word32.decode (s.drop (4 * 1)), word32.decode (s.drop (4 * 2)),
          word32.decode (s.drop (4 * 3)), word32.decode (s.drop (4 * 4)),
          word32.decode (s.drop (4 * 5)), word32.decode (s.drop (4 * 6)),
          word32.decode (s.drop (4 * 7))) := by
      simp [pair, word32, List.drop_drop]
    rw [hdecode]
    simp only [toNat_word]
    rfl

theorem mark_eq_iff {s : Bytes} (h : 2 ≤ s.length) :
    word16.decode s = 0xFFFF ↔ s.take 2 = [0xFF, 0xFF] := by
  have hencode := word16_exact.encode_decode s h
  constructor
  · intro hmark
    rw [hmark] at hencode
    exact hencode.symm
  · intro hbytes
    have hs : s = word16.encode 0xFFFF ++ s.drop 2 := by
      rw [show word16.encode 0xFFFF = [0xFF, 0xFF] from rfl, ← hbytes, List.take_append_drop]
    rw [hs]
    exact word16_exact.decode_encode 0xFFFF _

theorem read?_drop {α : Type} {l : Layout α} (hl : 0 < l.size) (s : Bytes) (n : ℕ) :
    l.read? (s.drop n) =
      if s.length < n + l.size then none else some (l.decode (s.drop n), s.drop (n + l.size)) := by
  rw [Layout.read?, List.length_drop, List.drop_drop]
  by_cases h : s.length < n + l.size
  · rw [if_pos h, if_neg (by omega)]
  · rw [if_neg h, if_pos (by omega)]

theorem head_eq (s : Bytes) : head s =
    if s.length < 36 then .error .endOfData
    else if (s.drop 34).take 2 ≠ [0xFF, 0xFF] then .error .badHeader
    else if s.length < 40 then .error .endOfData
    else match (offsetsOf s).decreasing? with
      | some table => .error (.decreasing table)
      | none => .ok (offsetsOf s) := by
  have hfree : word16.read? (s.drop 32) =
      if s.length < 34 then none else some (word16.decode (s.drop 32), s.drop 34) :=
    read?_drop two_pos s 32
  have hmark : word16.read? (s.drop 34) =
      if s.length < 36 then none else some (word16.decode (s.drop 34), s.drop 36) :=
    read?_drop two_pos s 34
  have hreserved : word32.read? (s.drop 36) =
      if s.length < 40 then none else some (word32.decode (s.drop 36), s.drop 40) :=
    read?_drop four_pos s 36
  rw [head, offsets?_eq]
  by_cases h32 : s.length < 32
  · rw [if_pos h32, if_pos (by omega)]
    rfl
  simp only [if_neg h32, within, bind, Except.bind, hfree]
  by_cases h34 : s.length < 34
  · rw [if_pos h34, if_pos (by omega)]
  simp only [if_neg h34, hmark]
  by_cases h36 : s.length < 36
  · simp only [if_pos h36]
  simp only [if_neg h36, hreserved]
  have hword : word16.decode (s.drop 34) = 0xFFFF ↔ (s.drop 34).take 2 = [0xFF, 0xFF] :=
    mark_eq_iff (by rw [List.length_drop]; omega)
  by_cases hbad : (s.drop 34).take 2 = [0xFF, 0xFF]
  · rw [if_neg (not_not.2 (hword.2 hbad)), if_neg (not_not.2 hbad)]
    by_cases h40 : s.length < 40
    · rw [if_pos h40, if_pos h40]
    · cases (offsetsOf s).decreasing? <;> simp only [if_neg h40]
  · rw [if_pos (mt hword.1 hbad), if_pos hbad]

variable {s : Bytes}

theorem offsetAt_zero (h : sign <+: s) : offsetAt s 0 = firstOffset := by
  obtain ⟨rest, rfl⟩ := h
  rfl

/-- The first table that is out of order. -/
theorem decreasing?_eq (h : sign <+: s) : (offsetsOf s).decreasing? = firstBelow? s := by
  have hstarts : (offsetsOf s).starts =
      (List.range 7).map fun i => (tableAt (i + 1), offsetAt s i, offsetAt s (i + 1)) := by
    simp only [Offsets.starts, offsetsOf, ← offsetAt_zero h]
    rfl
  rw [Offsets.decreasing?, hstarts, List.find?_map, Option.map_map]
  rfl

/-- In order, every offset is no more than the next one. -/
theorem offsetAt_le (h : firstBelow? s = none) {i : ℕ} (hi : i < 7) :
    offsetAt s i ≤ offsetAt s (i + 1) := by
  have hnone := List.find?_eq_none.1 (Option.map_eq_none_iff.1 h) i (List.mem_range.2 hi)
  simpa using hnone

theorem offsetAt_mono (h : firstBelow? s = none) {i j : ℕ} (hij : i ≤ j) (hj : j ≤ 7) :
    offsetAt s i ≤ offsetAt s j := by
  induction hij with
  | refl => exact le_rfl
  | step _ ih => exact (ih (by omega)).trans (offsetAt_le h (by omega))

/-! ## The tables -/

/-- Records are read from the bytes that they take, whatever follows these. -/
theorem many_append {α : Type} {l : Layout α} (hl : l.Exact) {n : ℕ} {s : Bytes}
    (h : n * l.size ≤ s.length) (rest : Bytes) : l.many n (s ++ rest) = l.many n s := by
  have hbytes : s = (l.many n s).flatMap l.encode ++ s.drop (n * l.size) := by
    rw [flatMap_many hl n s h, List.take_append_drop]
  have hback := many_flatMap hl (l.many n s) (s.drop (n * l.size) ++ rest)
  rwa [length_many, ← List.append_assoc, ← hbytes] at hback

theorem recordsOf_take {α : Type} {l : Layout α} (hl : l.Exact) {s : Bytes} {n : ℕ}
    (h : n / l.size * l.size ≤ s.length) :
    (l.many (n / l.size) s).toArray = recordsOf l (s.take n) := by
  have hle : n / l.size * l.size ≤ (s.take n).length := by
    rw [List.length_take]
    exact le_min (Nat.div_mul_le_self _ _) h
  -- what is cut off at the end makes up no record
  have hcount : (s.take n).length / l.size = n / l.size := by
    rcases Nat.eq_zero_or_pos l.size with hzero | hpos
    · simp [hzero]
    · apply Nat.le_antisymm
      · exact Nat.div_le_div_right (by simp)
      · exact (Nat.le_div_iff_mul_le hpos).2 hle
  have hmany := many_append hl hle (s.drop n)
  rw [List.take_append_drop] at hmany
  rw [recordsOf, hcount, hmany]

/-- **A table is read from its own bytes**, as far as these make up whole records. -/
theorem section?_eq {α : Type} {l : Layout α} (hl : l.Exact) (s : Bytes) (start stop : ℕ) :
    OffsetTable.section? l s start stop =
      if start + (stop - start) / l.size * l.size ≤ s.length then
        some (recordsOf l ((s.drop start).take (stop - start)))
      else none := by
  rw [section?, from?]
  by_cases hin : start ≤ s.length
  · simp only [if_pos hin, Option.bind_eq_bind, Option.bind_some, take?, List.length_drop]
    by_cases hfits : start + (stop - start) / l.size * l.size ≤ s.length
    · rw [if_pos hfits, if_pos (by omega), Option.bind_some,
        recordsOf_take hl (by rw [List.length_drop]; omega)]
      rfl
    · rw [if_neg hfits, if_neg (by omega)]
      rfl
  · rw [if_neg hin, if_neg (by omega)]
    rfl

theorem bareSamples?_eq_bind (t : Bytes) : Counted.bareSamples? t =
    (Counted.count? t).bind fun (n, rest) => (Counted.sized? n rest).map fun (recordings, rest) =>
      ((recordings.map Sample.bare).toArray, rest) := by
  simp only [Option.map_eq_bind]
  rfl

theorem bareSamples?_eq (t : Bytes) : Counted.bareSamples? t =
    let sizes := sizesOf (countOf t) (t.drop 4)
    if 4 + countOf t * 4 + sizes.sum ≤ t.length then
      some (((Counted.cut sizes (t.drop (4 + countOf t * 4))).map Sample.bare).toArray,
        t.drop (4 + countOf t * 4 + sizes.sum))
    else none := by
  rw [bareSamples?_eq_bind]
  rcases Nat.lt_or_ge t.length 4 with h | h
  · rw [Counted.count?_of_short h, Option.bind_none]
    generalize countOf t = n
    dsimp only
    rw [if_neg (by omega)]
  · rw [Counted.count?_of_length h, Option.bind_some]
    generalize countOf t = n
    simp only [Counted.sized?_eq, List.length_drop, List.drop_drop]
    by_cases hfits : 4 + n * 4 + (sizesOf n (t.drop 4)).sum ≤ t.length
    · rw [if_pos hfits, if_pos (by omega), Nat.add_assoc]
      rfl
    · rw [if_neg hfits, if_neg (by omega)]
      rfl

/-- The samples of a structure. -/
theorem samples_eq (s : Bytes) : (from? s (offsetAt s 7)).bind Counted.bareSamples? =
    if samplesEnd s ≤ s.length then some ((tablesOf s).samples, s.drop (samplesEnd s)) else none := by
  rw [samplesEnd, tablesOf, sampleBytes, from?]
  dsimp only
  by_cases hin : offsetAt s 7 ≤ s.length
  · rw [if_pos hin, Option.bind_some, bareSamples?_eq, List.length_drop]
    generalize countOf (s.drop (offsetAt s 7)) = n
    dsimp only
    generalize sizesOf n ((s.drop (offsetAt s 7)).drop 4) = sizes
    by_cases hfits : offsetAt s 7 + 4 + n * 4 + sizes.sum ≤ s.length
    · rw [if_pos hfits, if_pos (by omega)]
      simp only [List.drop_drop, Nat.add_assoc]
    · rw [if_neg hfits, if_neg (by omega)]
  · generalize countOf (s.drop (offsetAt s 7)) = n
    rw [if_neg hin, if_neg (by omega), Option.bind_none]

/-- The table at an offset, if its records have the size that belongs to it. -/
theorem section?_rangeOf {α : Type} {l : Layout α} (hl : l.Exact) (s : Bytes) {i : ℕ}
    (hsize : l.size = recordSize i) : section? l s (offsetAt s i) (offsetAt s (i + 1)) =
      if tableEnd s i ≤ s.length then some (recordsOf l (rangeOf s i)) else none := by
  rw [section?_eq hl, hsize]
  rfl

/-- **All tables are read from their own bytes**, unless one of them goes past the end. -/
theorem tables?_eq (h : sign <+: s) : tables? s (offsetsOf s) =
    if Complete s then some (tablesOf s, s.drop (samplesEnd s)) else none := by
  obtain ⟨hsong, hpart, hnote, hinstrument, -, hwave⟩ := Record.sizes
  have hsongs := section?_rangeOf Record.song_exact s (i := 0) hsong
  have hparts := section?_rangeOf Record.part_exact s (i := 1) hpart
  have hnotes := section?_rangeOf Record.note_exact s (i := 2) hnote
  have hinstruments := section?_rangeOf Record.instrument_exact s (i := 3) hinstrument
  have hwaves {i : ℕ} := section?_rangeOf Record.wave_exact s (i := i)
  rw [tables?, ← offsetAt_zero h]
  simp only [offsetsOf, Option.bind_eq_bind, hsongs, hparts, hnotes, hinstruments,
    hwaves (i := 4) hwave, hwaves (i := 5) hwave, hwaves (i := 6) hwave, samples_eq]
  by_cases hfits : Complete s
  · obtain ⟨htables, hsamples⟩ := hfits
    simp only [if_pos (htables 0 (by omega)), if_pos (htables 1 (by omega)),
      if_pos (htables 2 (by omega)), if_pos (htables 3 (by omega)), if_pos (htables 4 (by omega)),
      if_pos (htables 5 (by omega)), if_pos (htables 6 (by omega)), if_pos hsamples,
      Option.bind_some]
    rw [if_pos ⟨htables, hsamples⟩]
    rfl
  · rw [if_neg hfits]
    rcases not_and_or.1 hfits with htables | hsamples
    · obtain ⟨i, hi, hlong⟩ : ∃ i < 7, ¬ tableEnd s i ≤ s.length := by
        by_contra hnone
        exact htables fun i hi => not_not.1 fun hlong => hnone ⟨i, hi, hlong⟩
      interval_cases i <;> simp only [if_neg hlong, Option.bind_none, Option.bind_fun_none]
    · simp only [if_neg hsamples, Option.bind_none, Option.bind_fun_none]

/-- In order, nothing goes past the end unless the recordings do. -/
theorem complete_iff (h : firstBelow? s = none) : Complete s ↔ samplesEnd s ≤ s.length := by
  refine ⟨And.right, fun hend => ⟨fun i hi => ?_, hend⟩⟩
  have hlast : offsetAt s 7 ≤ samplesEnd s := by
    unfold samplesEnd
    generalize countOf (sampleBytes s) = n
    dsimp only
    omega
  calc tableEnd s i ≤ offsetAt s i + (offsetAt s (i + 1) - offsetAt s i) := by
        unfold tableEnd
        gcongr
        exact Nat.div_mul_le_self _ _
    _ = offsetAt s (i + 1) := Nat.add_sub_of_le (offsetAt_le h hi)
    _ ≤ offsetAt s 7 := offsetAt_mono h (by omega) le_rfl
    _ ≤ samplesEnd s := hlast
    _ ≤ s.length := hend

/-! ## The verdict -/

section

variable {file rest : Bytes} {o : Offsets} {score : Score} {fault : FileFault}

theorem decode_of_head_error (hs : structure? file = some s) (hhead : head s = .error fault) :
    decode file = .error fault := by
  rw [decode, hs]
  simp only [bind, Except.bind, hhead]

theorem decode_of_tables_none (hs : structure? file = some s) (hhead : head s = .ok o)
    (htables : tables? s o = none) : decode file = .error .endOfData := by
  rw [decode, hs]
  simp only [bind, Except.bind, hhead, htables, within]

/-- The questions about what follows the samples. -/
theorem decode_of_tables (hs : structure? file = some s) (hhead : head s = .ok o)
    (htables : tables? s o = some (score, rest)) : decode file =
      if rest.take 12 ≠ Tag.letters 'd' 'e' 'a' 'd' ++ Tag.letters 'b' 'e' 'e' 'f' ++ [0, 0, 0, 0] then
        .error .noSentinel
      else if 0 ∉ rest.drop 12 then .error .endOfData
      else .ok (signed score (rest.drop 12)) := by
  have hlen : sentinel.length = 12 := rfl
  have hbytes : Tag.letters 'd' 'e' 'a' 'd' ++ Tag.letters 'b' 'e' 'e' 'f' ++ [0, 0, 0, 0] =
    sentinel := rfl
  rw [decode, hs, hbytes]
  simp only [bind, Except.bind, hhead, htables, within, hlen]
  by_cases hsentinel : rest.take 12 = sentinel
  · rw [if_neg (not_not.2 hsentinel), if_neg (not_not.2 hsentinel), author?]
    by_cases hzero : 0 ∈ rest.drop 12
    · rw [if_pos hzero, if_neg (not_not.2 hzero)]
      rfl
    · rw [if_neg hzero, if_pos hzero]
  · rw [if_pos hsentinel, if_pos hsentinel]

/-- **Reading a structure gives its verdict.** -/
theorem decode_eq_verdict (hs : structure? file = some s) (h : sign <+: s) :
    decode file = verdict s := by
  have hhead := head_eq s
  rw [decreasing?_eq h] at hhead
  rw [verdict]
  by_cases h36 : s.length < 36
  · rw [if_pos h36] at hhead ⊢
    exact decode_of_head_error hs hhead
  rw [if_neg h36] at hhead ⊢
  by_cases hmark : (s.drop 34).take 2 = [0xFF, 0xFF]
  swap
  · rw [if_pos hmark] at hhead ⊢
    exact decode_of_head_error hs hhead
  rw [if_neg (not_not.2 hmark)] at hhead ⊢
  by_cases h40 : s.length < 40
  · rw [if_pos h40] at hhead ⊢
    exact decode_of_head_error hs hhead
  rw [if_neg h40] at hhead ⊢
  cases hbelow : firstBelow? s with
  | some table =>
    rw [hbelow] at hhead
    exact decode_of_head_error hs hhead
  | none =>
    rw [hbelow] at hhead
    have htables := tables?_eq h
    by_cases hfits : Complete s
    · rw [if_pos hfits] at htables
      rw [decode_of_tables hs hhead htables, List.drop_drop]
      simp only [if_neg (not_not.2 hfits)]
    · rw [if_neg hfits] at htables
      rw [decode_of_tables_none hs hhead htables]
      simp only [if_pos hfits]

end

theorem verdict_ne_noStructure (s : Bytes) : verdict s ≠ .error .noStructure := by
  unfold verdict
  cases firstBelow? s <;> split_ifs <;> exact nofun

/-! ## Where a structure begins -/

/-- A structure begins behind some bytes, and at none of these. -/
structure Begins (before s : Bytes) : Prop where
  here : sign <+: s
  first : ∀ k < before.length, ¬ sign <+: (before ++ s).drop k

theorem take_eq_sign_iff {s : Bytes} : s.take 4 = sign ↔ sign <+: s := by
  constructor
  · intro htake
    exact htake ▸ List.take_prefix 4 s
  · rintro ⟨rest, rfl⟩
    rfl

theorem structure?_of_sign (h : sign <+: s) : structure? s = some s := by
  obtain ⟨rest, rfl⟩ := h
  rfl

theorem structure?_of_begins {before : Bytes} (h : Begins before s) :
    structure? (before ++ s) = some s := by
  induction before with
  | nil => exact structure?_of_sign h.here
  | cons b before ih =>
    have hne : (b :: (before ++ s)).take 4 ≠ sign := mt take_eq_sign_iff.1 (h.first 0 (by simp))
    rw [List.cons_append, structure?_cons_of_ne hne]
    exact ih ⟨h.here, fun k hk => h.first (k + 1) (by simpa using hk)⟩

theorem structure?_eq_none_iff {file : Bytes} : structure? file = none ↔ ¬ sign <:+: file := by
  induction file with
  | nil => exact iff_of_true rfl (by decide)
  | cons b rest ih =>
    by_cases hsign : sign <+: b :: rest
    · rw [structure?_of_sign hsign]
      exact iff_of_false nofun (not_not.2 hsign.isInfix)
    · rw [structure?_cons_of_ne (mt take_eq_sign_iff.1 hsign), ih, List.infix_cons_iff,
        or_iff_right hsign]

/-- Where there is a sign, there is a first one. -/
theorem exists_begins {file : Bytes} (h : sign <:+: file) :
    ∃ before s, file = before ++ s ∧ Begins before s := by
  induction file with
  | nil => exact absurd h (by decide)
  | cons b rest ih =>
    by_cases hsign : sign <+: b :: rest
    · exact ⟨[], b :: rest, rfl, hsign, nofun⟩
    · obtain ⟨before, s, rfl, hbegins⟩ := ih ((List.infix_cons_iff.1 h).resolve_left hsign)
      refine ⟨b :: before, s, rfl, hbegins.here, fun k hk => ?_⟩
      cases k with
      | zero => exact hsign
      | succ k => exact hbegins.first k (by simpa using hk)

/-- No sign reaches from the bytes before a structure into it. -/
theorem begins_of_absent {before : Bytes} (hbefore : ¬ sign <:+: before) (h : sign <+: s) :
    Begins before s := by
  refine ⟨h, fun k hk hsign => ?_⟩
  obtain ⟨rest, rfl⟩ := h
  rw [List.drop_append_of_le_length hk.le] at hsign
  have hlater : ¬ sign <:+: before.drop k := by
    intro hin
    exact hbefore (hin.trans (List.drop_suffix k before).isInfix)
  have hsame := (structure?_of_sign hsign).symm.trans (structure?_append hlater)
  have hlen := congrArg List.length (Option.some.inj hsame)
  simp only [List.length_append, List.length_drop] at hlen
  omega

end Chiptune.OffsetTable

namespace Chiptune.ModuleFile

open OffsetTable

theorem decode_of_not_mark {file : Bytes} (hlong : 4 ≤ file.length)
    (hmark : ¬ Chunked.mark <+: file) : decode file = OffsetTable.decode file := by
  have htake : file.take 4 ≠ Chunked.mark := by
    intro htake
    exact hmark (htake ▸ List.take_prefix 4 file)
  rw [decode, encoding?, if_neg (by omega), if_neg htake]

/-- **What becomes of a file with a structure.** It is refused for having none exactly if the sign
stands nowhere. Otherwise there is a first place where the sign stands, and the bytes from there on
decide: what is read is their verdict. Whatever else stands before them, reading gives the same, as
long as no structure and no chunked file begins there. -/
theorem decode_offsetTable {file : Bytes} (hlong : 4 ≤ file.length)
    (hmark : ¬ Chunked.mark <+: file) :
    (decode file = .error .noStructure ↔ ¬ sign <:+: file) ∧
    (sign <:+: file → ∃ before s, file = before ++ s ∧ Begins before s) ∧
    ∀ before s, file = before ++ s → Begins before s →
      decode file = verdict s ∧
      ∀ before', ¬ sign <:+: before' → ¬ Chunked.mark <+: before' ++ s →
        decode (before' ++ s) = decode file := by
  have hverdict {before s : Bytes} (hmark : ¬ Chunked.mark <+: before ++ s) (h : Begins before s) :
      decode (before ++ s) = verdict s := by
    have hsign : sign.length ≤ s.length := h.here.length_le
    have hlong : 4 ≤ (before ++ s).length := by
      rw [List.length_append]
      exact hsign.trans (Nat.le_add_left _ _)
    rw [decode_of_not_mark hlong hmark]
    exact decode_eq_verdict (structure?_of_begins h) h.here
  refine ⟨⟨fun hnone hsign => ?_, fun hsign => ?_⟩, exists_begins, ?_⟩
  · obtain ⟨before, s, rfl, h⟩ := exists_begins hsign
    rw [hverdict hmark h] at hnone
    exact verdict_ne_noStructure s hnone
  · rw [decode_of_not_mark hlong hmark, OffsetTable.decode, structure?_eq_none_iff.2 hsign]
  · rintro before s rfl h
    refine ⟨hverdict hmark h, fun before' hbefore' hmark' => ?_⟩
    rw [hverdict hmark h, hverdict hmark' (begins_of_absent hbefore' h.here)]

/-- A structure with several faults: the notes are to start before the parts, the tables after them
lie past the end, and nothing closes it. -/
def disordered : Bytes :=
  sign ++ [0, 0, 0, 0x30] ++ [0, 0, 0, 0x2C] ++ List.replicate 20 0xFF ++ [0, 0] ++ [0xFF, 0xFF] ++
    [0, 0, 0, 0]

theorem disordered_refused :
    let file : Bytes := [0x53, 0, 0] ++ disordered
    4 ≤ file.length ∧ ¬ Chunked.mark <+: file ∧ Begins [0x53, 0, 0] disordered ∧
      ¬ sign <:+: [0x28] ∧ ¬ Chunked.mark <+: [0x28] ++ disordered ∧
      decode file = .error (.decreasing .notes) ∧
      decode ([0x28] ++ disordered) = .error (.decreasing .notes) := by
  have hlong : 4 ≤ ([0x53, 0, 0] ++ disordered).length := by decide
  have hmark : ¬ Chunked.mark <+: [0x53, 0, 0] ++ disordered := by decide
  have hbegins : Begins [0x53, 0, 0] disordered := ⟨by decide, by decide⟩
  have hbefore : ¬ sign <:+: [0x28] := by decide
  have hmark' : ¬ Chunked.mark <+: [0x28] ++ disordered := by decide
  have hverdict : verdict disordered = .error (.decreasing .notes) := rfl
  obtain ⟨hread, hsame⟩ := (decode_offsetTable hlong hmark).2.2 _ _ rfl hbegins
  rw [hverdict] at hread
  exact ⟨hlong, hmark, hbegins, hbefore, hmark', hread, (hsame _ hbefore hmark').trans hread⟩

end Chiptune.ModuleFile
