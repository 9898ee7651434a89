import Mathlib
import Chiptune.Proofs.Grammar
import Chiptune.Proofs.Image
import Chiptune.Shell.Job

/-!
# Saved files in normal form

Files of both forms, with their tables in any order or written twice, are read as scores; of all the
files that are read as the same music, saving picks one. Whatever can be read can be saved, since
counts and sizes that were read from words fit their words again.

* `Score.fits_of_chunk?`, `OffsetTable.fits_of_decode`: what was read fits, in either form.
* `ModuleFile.fits_of_encode`: nothing else is ever saved.
* `Score.encode_normal`: a score is saved as its normal form is.
* `ModuleFile.saved_is_normal`: **saving what was read is saving its normal form**, which stays as it
  is from then on.
-/

namespace Chiptune

open Layout

/-- The score as a saved file gives it back: in the chunked form, without an author, its parts cut to
whole steps. -/
def Score.normal (score : Score) : Score :=
  { score with
    encoding := .chunked, author := none
    parts := score.parts.take (score.stepCount * partsPerStep) }

/-! ## What was read fits its words -/

theorem Counts.lt {n : ℕ} {s : Bytes} (h : Counts n s) : n < 2 ^ 31 := by
  obtain ⟨-, hn⟩ := h
  simp only [Word.signed32, Int.bmod] at hn
  split at hn <;> omega

/-- **What is spelled can be written.** -/
theorem Chunk.Spelled.writable {c : Chunk} {s : Bytes} (h : c.Spelled s) : c.Writable := by
  have hcount {α : Type} {l : Layout α} {xs : Array α} (h : SpellsTable l 1 xs s) :
      xs.size < 2 ^ 31 := by
    obtain ⟨n, head, hn, hsize, -⟩ := h
    rw [hsize, Nat.mul_one]
    exact hn.lt
  cases c with
  | songs xs | notes xs | instruments xs | waves xs | volumeWaves xs | pitchWaves xs =>
    refine ⟨decide_eq_true (hcount h), ?_⟩
    rintro _ ⟨⟩
  | parts xs =>
    obtain ⟨n, head, hn, hsize, -⟩ := h
    refine ⟨decide_eq_true ?_, fun ys hys => ?_⟩
    · rw [Chunk.count, hsize, Score.partsPerStep, Nat.mul_div_cancel n (by decide)]
      exact hn.lt
    · obtain rfl := Chunk.parts.inj hys
      rw [hsize, Score.partsPerStep, Nat.mul_mod_left]
  | samples xs =>
    obtain ⟨head, hn, hdata, -⟩ := h
    refine ⟨?_, ?_⟩
    · simp only [Chunk.fits, Bool.and_eq_true, decide_eq_true_eq, Array.all_eq_true_iff_forall_mem]
      exact ⟨hn.lt, hdata⟩
    · rintro _ ⟨⟩
  | editor state =>
    refine ⟨rfl, ?_⟩
    rintro _ ⟨⟩

namespace Score

variable {score : Score}

/-- A score fits if every chunk that it is written as does. -/
theorem fits_of_toChunks (h : ∀ c ∈ score.toChunks, c.fits) : score.Fits := by
  have hsteps : score.stepCount < 2 ^ 31 := by
    have := of_decide_eq_true (h (.parts (score.parts.take (score.stepCount * partsPerStep)))
      (by simp [toChunks]))
    rwa [Chunk.count, size_wholeParts, Nat.mul_div_cancel _ (by decide)] at this
  have hsamples := h (.samples score.samples) (by simp [toChunks])
  simp only [Chunk.fits, Bool.and_eq_true, decide_eq_true_eq,
    Array.all_eq_true_iff_forall_mem] at hsamples
  exact
    { songs := of_decide_eq_true (h (.songs score.songs) (by simp [toChunks]))
      steps := hsteps
      notes := of_decide_eq_true (h (.notes score.notes) (by simp [toChunks]))
      instruments := of_decide_eq_true (h (.instruments score.instruments) (by simp [toChunks]))
      samples := hsamples.1
      waves := of_decide_eq_true (h (.waves score.waves) (by simp [toChunks]))
      volumeWaves := of_decide_eq_true (h (.volumeWaves score.volumeWaves) (by simp [toChunks]))
      pitchWaves := of_decide_eq_true (h (.pitchWaves score.pitchWaves) (by simp [toChunks]))
      data := hsamples.2 }

theorem take_wholeParts (h : score.parts.size % partsPerStep = 0) :
    score.parts.take (score.stepCount * partsPerStep) = score.parts := by
  rw [stepCount, Nat.div_mul_cancel (Nat.dvd_of_mod_eq_zero h)]
  exact Array.extract_size

/-- A score fits if everything that it holds under its tags can be written. -/
theorem fits_of_chunk? (h : ∀ t c, score.chunk? t = some c → c.Writable) : score.Fits := by
  have hwhole := (h (.table .parts) _ rfl).2 _ rfl
  refine fits_of_toChunks fun c hc => ?_
  rw [toChunks, take_wholeParts hwhole] at hc
  simp only [List.mem_append, List.mem_cons, List.not_mem_nil, or_false, List.mem_map,
    Option.mem_toList] at hc
  rcases hc with (rfl | rfl | rfl | rfl | rfl | rfl | rfl | rfl) | ⟨state, hstate, rfl⟩
  · exact (h (.table .songs) _ rfl).1
  · exact (h (.table .parts) _ rfl).1
  · exact (h (.table .notes) _ rfl).1
  · exact (h (.table .instruments) _ rfl).1
  · exact (h (.table .samples) _ rfl).1
  · exact (h (.table .waves) _ rfl).1
  · exact (h (.table .volumeWaves) _ rfl).1
  · exact (h (.table .pitchWaves) _ rfl).1
  · exact (h .editor _ (by rw [chunk?, hstate, Option.map_some])).1

/-- A score that has the form of a saved one already is its own normal form. -/
theorem normal_eq_self (hform : score.encoding = .chunked) (hauthor : score.author = none)
    (hwhole : score.parts.size % partsPerStep = 0) : score.normal = score := by
  rw [normal, take_wholeParts hwhole, ← hform, ← hauthor]

/-- The chunks of a score are those of its normal form. -/
theorem toChunks_normal (score : Score) : score.normal.toChunks = score.toChunks := by
  have hparts : score.normal.parts.take (score.normal.stepCount * partsPerStep) =
      score.normal.parts := by
    apply take_wholeParts
    rw [normal, size_wholeParts, Nat.mul_mod_left]
  rw [toChunks, hparts]
  rfl

/-- **A score is saved as its normal form is.** -/
theorem encode_normal (score : Score) :
    ModuleFile.encode score.normal = ModuleFile.encode score := by
  simp only [ModuleFile.encode, ModuleFile.encodeAs, Chunked.encode, toChunks_normal]
  rfl

end Score

namespace Chunked

/-- What a chunked file holds can be written, and what it does not hold is empty. -/
theorem writable_of_assemble {version : Vector UInt8 4} {ps : List Piece} {t : Tag} {c : Chunk}
    (h : (assemble version (ps.map Piece.chunk)).chunk? t = some c) : c.Writable := by
  rw [Score.chunk?_assemble, Option.or_eq_some_iff] at h
  rcases h with hfound | ⟨-, hempty⟩
  · obtain ⟨p, -, rfl⟩ := List.mem_map.1 (List.mem_reverse.1 (List.mem_of_find?_eq_some hfound))
    exact p.spelled.writable
  · rcases t with (_ | _ | _ | _ | _ | _ | _ | _) | _ <;> cases hempty
    case inr.table.parts.refl => exact ⟨by decide, fun xs hxs => by cases hxs; rfl⟩
    case inr.table.samples.refl =>
      refine ⟨by simp [Chunk.fits], ?_⟩
      rintro _ ⟨⟩
    all_goals
      refine ⟨by decide, ?_⟩
      rintro _ ⟨⟩

end Chunked

namespace OffsetTable

variable {s : Bytes} {o : Offsets} {score : Score}

theorem exists_ok_of_bind {α β : Type} {x : Except FileFault α} {f : α → Except FileFault β} {b : β}
    (h : x >>= f = .ok b) : ∃ a, x = .ok a ∧ f a = .ok b := by
  cases x with
  | error fault => cases h
  | ok a => exact ⟨a, rfl, h⟩

theorem within_eq_ok_iff {α : Type} {found : Option α} {x : α} :
    within found = .ok x ↔ found = some x := by
  cases found <;> simp [within]

/-- Offsets that fit the words they are read from. -/
structure Offsets.Fit (o : Offsets) : Prop where
  parts : o.parts < 2 ^ 32
  notes : o.notes < 2 ^ 32
  instruments : o.instruments < 2 ^ 32
  waves : o.waves < 2 ^ 32
  volumeWaves : o.volumeWaves < 2 ^ 32
  pitchWaves : o.pitchWaves < 2 ^ 32
  samples : o.samples < 2 ^ 32

theorem fit_of_head (h : head s = .ok o) : o.Fit := by
  obtain ⟨⟨found, rest⟩, hread, h⟩ := exists_ok_of_bind h
  obtain ⟨⟨free, rest⟩, -, h⟩ := exists_ok_of_bind h
  obtain ⟨⟨mark, rest⟩, -, h⟩ := exists_ok_of_bind h
  obtain rfl : found = o := by
    by_cases hmark : mark ≠ 0xFFFF
    · simp only [if_pos hmark] at h
      cases h
    · simp only [if_neg hmark] at h
      obtain ⟨-, -, h⟩ := exists_ok_of_bind h
      cases hdecreasing : found.decreasing? with
      | some table =>
        simp only [hdecreasing] at h
        cases h
      | none =>
        simp only [hdecreasing] at h
        exact Except.ok.inj h
  obtain ⟨⟨⟨a, b, c, d, e, f, g⟩, last⟩, -, he⟩ :=
    Option.map_eq_some_iff.1 (within_eq_ok_iff.1 hread)
  obtain ⟨rfl, -⟩ := Prod.mk.inj he
  exact ⟨a.toNat_lt, b.toNat_lt, c.toNat_lt, d.toNat_lt, e.toNat_lt, f.toNat_lt, g.toNat_lt⟩

/-- A table of records of four bytes or more has less than `2 ^ 31` of them. -/
theorem section?_lt {α : Type} {l : Layout α} (hl : l.Exact) (hsize : 4 ≤ l.size) {start stop : ℕ}
    (hstop : stop < 2 ^ 32) {xs : Array α} (h : section? l s start stop = some xs) :
    xs.size < 2 ^ 31 := by
  simp only [section?, Option.bind_eq_bind, Option.bind_eq_some_iff, Prod.exists, Option.pure_def,
    Option.some.injEq, take?_eq_some_iff hl] at h
  obtain ⟨tail, -, ys, rest, ⟨hroom, -⟩, rfl⟩ := h
  have hle : (stop - start) / l.size ≤ (stop - start) / 4 := Nat.div_le_div_left hsize (by decide)
  omega

theorem bareSamples?_fits {rest : Bytes} {xs : Array Sample}
    (h : Counted.bareSamples? s = some (xs, rest)) :
    xs.size < 2 ^ 31 ∧ ∀ x ∈ xs, x.data.size < 2 ^ 32 := by
  simp only [Counted.bareSamples?, Option.bind_eq_bind, Option.bind_eq_some_iff, Prod.exists,
    Counted.count?_eq_some_iff, Counted.sized?_eq_some_iff] at h
  obtain ⟨n, middle, ⟨first, hn, -⟩, rs, last, ⟨hlen, hdata, -⟩, he⟩ := h
  obtain ⟨rfl, -⟩ := Prod.mk.inj (Option.some.inj he)
  refine ⟨?_, fun x hx => ?_⟩
  · rw [List.size_toArray, List.length_map, hlen]
    exact hn.lt
  · obtain ⟨r, hr, rfl⟩ := List.mem_map.1 (List.mem_toArray.1 hx)
    exact hdata r hr

/-- The tables between such offsets fit. -/
theorem fits_of_tables? {rest : Bytes} (ho : o.Fit) (h : tables? s o = some (score, rest)) :
    score.Fits := by
  obtain ⟨songsize, partsize, notesize, instrumentsize, -, wavesize⟩ := Record.sizes
  simp only [tables?, Option.bind_eq_bind, Option.bind_eq_some_iff, Prod.exists, Option.pure_def,
    Option.some.injEq, Prod.mk.injEq] at h
  obtain ⟨songs, h1, parts, h2, notes, h3, instruments, h4, waves, h5, volumeWaves, h6, pitchWaves, h7,
    samples, last, ⟨tail, -, h8⟩, rfl, -⟩ := h
  obtain ⟨hcount, hdata⟩ := bareSamples?_fits h8
  have hpartsize := section?_lt Record.part_exact (by omega) ho.notes h2
  exact
    { songs := section?_lt Record.song_exact (by omega) ho.parts h1
      steps := (Nat.div_le_self _ _).trans_lt hpartsize
      notes := section?_lt Record.note_exact (by omega) ho.instruments h3
      instruments := section?_lt Record.instrument_exact (by omega) ho.waves h4
      samples := hcount
      waves := section?_lt Record.wave_exact (by omega) ho.volumeWaves h5
      volumeWaves := section?_lt Record.wave_exact (by omega) ho.pitchWaves h6
      pitchWaves := section?_lt Record.wave_exact (by omega) ho.samples h7
      data := hdata }

/-- **A score from a list of offsets fits.** -/
theorem fits_of_decode (h : decode s = .ok score) : score.Fits := by
  rw [decode] at h
  split at h
  · cases h
  · obtain ⟨o, hhead, h⟩ := exists_ok_of_bind h
    obtain ⟨⟨found, rest⟩, htables, h⟩ := exists_ok_of_bind h
    have hfits := fits_of_tables? (fit_of_head hhead) (within_eq_ok_iff.1 htables)
    dsimp only at h
    split at h
    · cases h
    · obtain ⟨author, -, h⟩ := exists_ok_of_bind h
      obtain rfl := Except.ok.inj h
      -- the author is not written
      exact ⟨hfits.songs, hfits.steps, hfits.notes, hfits.instruments, hfits.samples, hfits.waves,
        hfits.volumeWaves, hfits.pitchWaves, hfits.data⟩

end OffsetTable

namespace ModuleFile

variable {file : Bytes} {score : Score}

/-! ## What is read, and what is saved -/

theorem decode_cases (h : decode file = .ok score) :
    (∃ s, file = Chunked.mark ++ s) ∨ OffsetTable.decode file = .ok score := by
  unfold decode encoding? at h
  split at h
  · cases h
  · rename_i hform
    left
    split at hform
    · cases hform
    · split at hform
      · rename_i hmark
        exact ⟨file.drop 4, by rw [← hmark, List.take_append_drop]⟩
      · cases hform
  · exact .inr h

/-- **Whatever was read fits**, from a file of either form. -/
theorem fits_of_decode (h : decode file = .ok score) : score.Fits := by
  rcases decode_cases h with ⟨s, rfl⟩ | htables
  · obtain ⟨version, ps, -, rfl⟩ := decode_composed_iff.1 h
    exact Score.fits_of_chunk? fun t c hc => Chunked.writable_of_assemble hc
  · exact OffsetTable.fits_of_decode htables

/-- **What was read from chunks is in normal form.** -/
theorem normal_of_decode (hmark : Chunked.mark <+: file) (h : decode file = .ok score) :
    score.normal = score := by
  obtain ⟨s, rfl⟩ := hmark
  obtain ⟨version, ps, -, rfl⟩ := decode_composed_iff.1 h
  obtain ⟨hform, -, hauthor⟩ := Score.assemble_spec version (ps.map Piece.chunk)
  have hparts : (Chunk.parts (Chunked.assemble version (ps.map Piece.chunk)).parts).Writable :=
    Chunked.writable_of_assemble (show Score.chunk? _ (.table .parts) = some _ from rfl)
  exact Score.normal_eq_self hform hauthor (hparts.2 _ rfl)

/-- **Only what fits is ever saved.** -/
theorem fits_of_encode (h : encode score = .ok file) : score.Fits := by
  have hnone : Chunked.oversized? score.toChunks = none := by
    cases hover : Chunked.oversized? score.toChunks with
    | none => rfl
    | some t =>
      simp only [encode, encodeAs, Chunked.encode, hover] at h
      cases h
  have hfits : ∀ c ∈ score.toChunks, c.fits := by
    intro c hc
    by_contra hlarge
    obtain ⟨d, hd⟩ : ∃ d, score.toChunks.find? (!·.fits) = some d :=
      Option.isSome_iff_exists.1 (List.find?_isSome.2 ⟨c, hc, by simpa using hlarge⟩)
    have hnot : ¬ d.fits := by simpa using List.find?_some hd
    rw [Chunked.oversized?, hd, Option.bind_some] at hnone
    cases d with
    | editor => exact hnot rfl
    | _ => cases hnone
  exact Score.fits_of_toChunks hfits

/-- A saved file is read as the normal form. -/
theorem decode_of_encode (h : encode score = .ok file) : decode file = .ok score.normal := by
  have hfits := fits_of_encode h
  obtain rfl := Except.ok.inj ((encode_eq hfits).symm.trans h)
  rw [decode_row _ (Score.writable_of_mem_toChunks hfits), Score.assemble_toChunks]
  rfl

end ModuleFile

/-! ## On a disk -/

/-- A path leads to an ordinary file, or to where one can be made: what is written there stays, and it
can be read. -/
def Disk.Ordinary (d : Disk) (path : String) : Prop :=
  ∃ l e, d.target path = .ok l ∧ d.openAt l = .ok e ∧
    e.writing = none ∧ e.keeps = true ∧ e.reading = none

/-- What is to be created at a path stays there. -/
theorem Disk.target_set {d : Disk} {l : Location} {e : Entry} {path : String}
    (hfree : ∀ lock, d.node? l ≠ some (.folder lock)) (h : d.target path = .ok l) :
    (d.set l e).target path = .ok l := by
  have hlocate : (d.set l e).locate path = .ok l := by
    have hbefore := Disk.locate_of_target h
    unfold Disk.locate at hbefore ⊢
    cases horigin : d.origin path with
    | error fault => rw [horigin] at hbefore; cases hbefore
    | ok o =>
      have hset : (d.set l e).origin path = .ok o := horigin
      rw [hset]
      rw [horigin] at hbefore
      exact Disk.walk_set e hfree hbefore
  unfold Disk.target at h ⊢
  split at h
  · split at h
    · cases horigin : d.origin path with
      | error fault => rw [horigin] at h; cases h
      | ok o =>
        simp only [horigin, Except.bind] at h
        split at h <;> cases h
    · rename_i hslash
      simp only [hslash]
      exact hlocate
  · exact hlocate

/-- **What is stored in an ordinary file is read back from it**, and the file stays an ordinary one. -/
theorem Disk.Ordinary.store {d : Disk} {path : String} (h : d.Ordinary path) (content : Bytes) :
    ∃ d', d.store path content = (none, d') ∧ d'.read path = .ok content ∧ d'.Ordinary path := by
  obtain ⟨l, e, htarget, hopen, hwriting, hkeeps, hreading⟩ := h
  have hrefusal : e.refusal? content = none := by
    rw [Entry.refusal?, hwriting, ite_self]
  have hopening : e.opening = none ∧ ∀ lock, d.node? l ≠ some (.folder lock) := by
    unfold Disk.openAt at hopen
    split at hopen
    · cases hopen
    · rename_i hnode
      split at hopen
      · cases hopen
      · rename_i hfree
        obtain rfl := Except.ok.inj hopen
        exact ⟨hfree, fun lock hlock => by simp [hnode] at hlock⟩
    · rename_i hnode
      split at hopen
      · cases hopen
      · obtain rfl := Except.ok.inj hopen
        exact ⟨rfl, fun lock hlock => by simp [hnode] at hlock⟩
  set stored : Entry := { e with content } with hentry
  have htarget' : (d.set l stored).target path = .ok l := Disk.target_set hopening.2 htarget
  have hnode : (d.set l stored).node? l = some (.entry stored) := by simp [Disk.set]
  refine ⟨d.set l stored, ?_, ?_, l, stored, htarget', ?_, hwriting, hkeeps, hreading⟩
  · simp only [Disk.store, htarget, Disk.storeAt, hopen, hrefusal, Entry.holding, hkeeps, if_true,
      hentry]
  · simp only [Disk.read, Disk.locate_of_target htarget', Except.bind, hnode]
    simp only [Entry.read, hentry, hreading]
  · rw [Disk.openAt, hnode]
    simp only [hentry, hopening.1]

/-- **A module that can be read is re-encoded**, and the output holds the saved file. -/
theorem Shell.Job.run_decode {d : Disk} {input output : String} {file saved : Bytes} {score : Score}
    (hinput : d.read input = .ok file) (hdecode : ModuleFile.decode file = .ok score)
    (hencode : ModuleFile.encode score = .ok saved) (houtput : d.Ordinary output) :
    ∃ d₁, (Job.decode input output).run d = (.done "", d₁) ∧ d₁.read output = .ok saved ∧
      d₁.Ordinary output := by
  have hproduce : (Job.decode input output).produce (d.read input) = .ok (.file output saved) := by
    simp only [Job.produce, hinput, Session.loadFile, Session.load, hdecode, Job.produceFrom,
      Session.save, hencode, Except.map]
  obtain ⟨d₁, hstore, hread, hordinary⟩ := houtput.store saved
  refine ⟨d₁, ?_, hread, hordinary⟩
  simp only [Job.run, Job.input, hproduce, hstore]

namespace ModuleFile

/-- **Saving what was read is saving its normal form.** Whatever can be read can be saved; what is
saved is read as the normal form, which is what was read if it came in chunks, and it is saved byte by
byte in the same way again, also by a second run of the program, in place or elsewhere. A file is its
own saved form exactly if it was saved. -/
theorem saved_is_normal (file : Bytes) :
    (∀ score, decode file = .ok score → ∃ saved, encode score = .ok saved ∧
      decode saved = .ok score.normal ∧ encode score.normal = .ok saved ∧
      (Chunked.mark <+: file → score.normal = score) ∧
      ∀ (d : Disk) (input output : String), d.read input = .ok file → d.Ordinary output →
        ∃ d₁, (Shell.Job.decode input output).run d = (.done "", d₁) ∧ d₁.read output = .ok saved ∧
          d₁.Ordinary output ∧ ∀ again, d₁.Ordinary again → ∃ d₂,
            (Shell.Job.decode output again).run d₁ = (.done "", d₂) ∧ d₂.read again = .ok saved) ∧
    ((∃ score, decode file = .ok score ∧ encode score = .ok file) ↔
      ∃ score, encode score = .ok file) := by
  refine ⟨fun score hscore => ?_, ⟨?_, ?_⟩⟩
  · obtain ⟨saved, hsaved⟩ : ∃ saved, encode score = .ok saved := ⟨_, encode_eq (fits_of_decode hscore)⟩
    have hback := decode_of_encode hsaved
    have hagain : encode score.normal = .ok saved := (Score.encode_normal score).trans hsaved
    refine ⟨saved, hsaved, hback, hagain, fun hmark => normal_of_decode hmark hscore, ?_⟩
    intro d input output hinput houtput
    obtain ⟨d₁, hrun, hread, hordinary⟩ := Shell.Job.run_decode hinput hscore hsaved houtput
    refine ⟨d₁, hrun, hread, hordinary, fun again hpath => ?_⟩
    obtain ⟨d₂, hrun', hread', -⟩ := Shell.Job.run_decode hread hback hagain hpath
    exact ⟨d₂, hrun', hread'⟩
  · rintro ⟨score, -, hsaved⟩
    exact ⟨score, hsaved⟩
  · rintro ⟨score, hsaved⟩
    exact ⟨score.normal, decode_of_encode hsaved, (Score.encode_normal score).trans hsaved⟩

/-- A disk with the image of a player program, whose last step has two parts only. -/
def shelf : Disk :=
  Disk.folder [("t", ripped.bytes)]

theorem steps_t : Path.steps "t" = [.down "t"] := by
  have hsplit : "t".splitOn "/" = ["t"] := by
    rw [String.splitOn, if_neg (by decide), String.splitOnAux, if_neg (by decide),
      if_neg (by decide), String.splitOnAux, if_pos (by decide)]
    decide
  rw [Path.steps, hsplit]
  decide

theorem ripped_resaved :
    shelf.read "t" = .ok ripped.bytes ∧ shelf.Ordinary "t" ∧
      ∃ score saved, decode ripped.bytes = .ok score ∧ score.parts.size = 2 ∧
        encode score = .ok saved ∧ decode saved = .ok score.normal ∧ score.normal.parts = #[] ∧
        ∃ d₁, (Shell.Job.decode "t" "t").run shelf = (.done "", d₁) ∧ d₁.read "t" = .ok saved ∧
          ∃ d₂, (Shell.Job.decode "t" "t").run d₁ = (.done "", d₂) ∧ d₂.read "t" = .ok saved := by
  have hread : shelf.read "t" = .ok ripped.bytes := by
    rw [Disk.read, Disk.locate, steps_t]
    rfl
  have htarget : shelf.target "t" = .ok ["t", "work", "tmp"] := by
    rw [Disk.target, steps_t]
    simp only [List.getLast?_singleton]
    rw [if_neg (by decide), Disk.locate, steps_t]
    rfl
  have hordinary : shelf.Ordinary "t" :=
    ⟨["t", "work", "tmp"], .file ripped.bytes, htarget, rfl, rfl, rfl, rfl⟩
  obtain ⟨score, hscore, hsize⟩ : ∃ score, decode ripped.bytes = .ok score ∧ score.parts.size = 2 := by
    have hsizes : (decode ripped.bytes).map (·.parts.size) = .ok 2 := by decide +kernel
    cases hdecode : decode ripped.bytes with
    | error fault => rw [hdecode] at hsizes; cases hsizes
    | ok score => exact ⟨score, rfl, Except.ok.inj (hdecode ▸ hsizes)⟩
  have hparts : score.normal.parts = #[] := by
    rw [Score.normal, Score.stepCount, hsize]
    simp [Score.partsPerStep]
  obtain ⟨saved, hsaved, hback, -, -, hruns⟩ := (saved_is_normal ripped.bytes).1 score hscore
  obtain ⟨d₁, hrun, hfirst, hstill, hagain⟩ := hruns shelf "t" "t" hread hordinary
  exact ⟨hread, hordinary, score, saved, hscore, hsize, hsaved, hback, hparts, d₁, hrun, hfirst,
    hagain "t" hstill⟩

end ModuleFile

end Chiptune
