import Mathlib
import Chiptune.Play.Stream
import Chiptune.Proofs.Frames

/-!
# Reads hand out the frames

A stream makes frames ahead of its reader, so between its song and its reader lie the bytes that were
made and not handed out.

* `Served`: some bytes were handed out while frames were made under some loop flags, and none was
  lost.
* `Steady`: what holds of a stream between its reads.
* `served_reads`: **reads are served one after the other**.
* `read_spec`: how much a read hands out.
-/

namespace Chiptune.Stream

variable {s s' s'' : Stream} {looping : Bool} {flags flags' : List Bool} {data data' : List UInt8}

/-- The bytes that a read hands out, and the stream after it. A read that is refused hands out
nothing. -/
def answer (s : Stream) (ms : ℕ) (looping : Bool) : List UInt8 × Stream :=
  match s.read ms looping with
  | .error _ => ([], s)
  | .ok (data, s') => (data.toList, s')

/-- The bytes that some reads hand out, and the stream after them. -/
def reads : List (ℕ × Bool) → Stream → List UInt8 × Stream
  | [], s => ([], s)
  | (ms, looping) :: rs, s =>
    ((s.answer ms looping).1 ++ (reads rs (s.answer ms looping).2).1,
      (reads rs (s.answer ms looping).2).2)

/-- Frames were made under the flags, and bytes handed out: first those that were there, then those
of the frames. -/
structure Served (flags : List Bool) (s : Stream) (data : List UInt8) (s' : Stream) : Prop where
  made : (s.sequencer.run flags).1.length = flags.length
  sequencer : s'.sequencer = (s.sequencer.run flags).2
  bytes : data ++ s'.pending.toList = s.pending.toList ++ Frame.pcm (s.sequencer.run flags).1
  consumed : s'.consumed = s.consumed + data.length
  songIndex : s'.songIndex = s.songIndex

theorem Served.refl (s : Stream) : Served [] s [] s :=
  ⟨rfl, rfl, (List.append_nil _).symm, rfl, rfl⟩

theorem Served.trans (h : Served flags s data s') (h' : Served flags' s' data' s'') :
    Served (flags ++ flags') s (data ++ data') s'' := by
  have hrun := Sequencer.run_append flags flags' s.sequencer
  rw [← h.sequencer] at hrun
  refine ⟨?_, ?_, ?_, ?_, h'.songIndex.trans h.songIndex⟩
  · rw [hrun, List.length_append, List.length_append, h.made, h'.made]
  · rw [hrun, h'.sequencer]
  · rw [hrun, List.append_assoc, h'.bytes, ← List.append_assoc, h.bytes, List.append_assoc,
      Frame.pcm_append]
  · rw [h'.consumed, h.consumed, List.length_append, Nat.add_assoc]

/-- What is served leaves the start of the stream alone. -/
theorem Served.reset_eq (h : Served flags s data s') : s'.reset = s.reset := by
  have hseq : s'.sequencer.reset = s.sequencer.reset := by
    rw [h.sequencer, Sequencer.reset_run]
  simp only [reset, hseq, h.songIndex]

theorem frameSize_eq_of_reset_eq (h : s'.reset = s.reset) : s'.frameSize = s.frameSize := by
  change s'.reset.frameSize = s.reset.frameSize
  rw [h]

theorem wanted_eq_of_reset_eq (h : s'.reset = s.reset) (ms : ℕ) : s'.wanted ms = s.wanted ms := by
  change s'.reset.wanted ms = s.reset.wanted ms
  rw [h]

theorem capacity_eq_of_reset_eq (h : s'.reset = s.reset) : s'.capacity = s.capacity := by
  change s'.reset.capacity = s.reset.capacity
  rw [h]

theorem frameSize_pos (s : Stream) : 0 < s.frameSize := by
  unfold frameSize Setup.frameSize
  cases s.sequencer.setup.outputs <;> decide

/-! ## What holds between reads -/

/-- The song is steady, the buffer is not overfull, every byte of a frame is either handed out or
buffered, and no frame is cut. -/
structure Steady (s : Stream) : Prop where
  song : s.sequencer.Steady
  fits : s.pending.size ≤ s.capacity
  balance : s.consumed + s.pending.size = s.sequencer.frames * s.frameSize
  whole : s.frameSize ∣ s.consumed

theorem Steady.whole_pending (h : s.Steady) : s.frameSize ∣ s.pending.size :=
  (Nat.dvd_add_right h.whole).1 (h.balance ▸ Nat.dvd_mul_left _ _)

/-- Serving keeps the books of a stream. -/
theorem Served.balance (h : Served flags s data s') (hs : s.Steady) :
    s'.consumed + s'.pending.size = s'.sequencer.frames * s'.frameSize := by
  have hlen := congrArg List.length h.bytes
  simp only [List.length_append, Sequencer.length_pcm_run, Array.length_toList] at hlen
  have hbalance := hs.balance
  rw [frameSize_eq_of_reset_eq h.reset_eq, h.sequencer, Sequencer.frames_run, h.consumed,
    Nat.add_mul]
  unfold frameSize at *
  omega

/-! ## Filling up -/

theorem renderInto_eq (looping : Bool) (n : ℕ) (q : Sequencer) (out : Array UInt8) :
    (renderInto looping n q out).1 = (q.run (List.replicate n looping)).2 ∧
      (renderInto looping n q out).2.toList =
        out.toList ++ Frame.pcm (q.run (List.replicate n looping)).1 := by
  induction n generalizing q out with
  | zero => exact ⟨rfl, (List.append_nil _).symm⟩
  | succ n ih =>
    rw [renderInto, List.replicate_succ]
    cases hr : q.renderFrame looping with
    | none =>
      rw [Sequencer.run_of_finished ((Sequencer.renderFrame_eq_none_iff looping q).1 hr)]
      exact ⟨rfl, (List.append_nil _).symm⟩
    | some r =>
      rw [Sequencer.run_cons_of_some hr]
      refine ⟨(ih _ _).1, (ih _ _).2.trans ?_⟩
      rw [Array.toList_append, List.append_assoc]
      rfl

/-- Filling up makes frames until the buffer is full or the song has ended. -/
theorem fill_spec (h : s.Steady) (looping : Bool) :
    ∃ k, Served (List.replicate k looping) s [] (s.fill looping) ∧
      (s.fill looping).pending.size ≤ s.capacity ∧
      ((s.fill looping).pending.size = s.capacity ∨
        (s.fill looping).sequencer.isFinished = true) := by
  set n := (s.capacity - s.pending.size) / s.frameSize with hn
  obtain ⟨k, hk, hmade, hrun, hend⟩ := Sequencer.run_replicate looping n s.sequencer
  obtain ⟨hseq, hpending⟩ := renderInto_eq looping n s.sequencer s.pending
  rw [hrun] at hseq hpending
  have hserved : Served (List.replicate k looping) s [] (s.fill looping) :=
    ⟨by rw [hmade, List.length_replicate], hseq, hpending, rfl, rfl⟩
  have hsize : (s.fill looping).pending.size = s.pending.size + k * s.frameSize := by
    have := congrArg List.length hpending
    rwa [List.length_append, Sequencer.length_pcm_run, hmade] at this
  -- the room in the buffer is a whole number of frames
  have hroom : n * s.frameSize = s.capacity - s.pending.size :=
    Nat.div_mul_cancel (Nat.dvd_sub ⟨2 * s.sequencer.setup.rate, by
      unfold capacity secondSize; ring⟩ h.whole_pending)
  have hfits := h.fits
  refine ⟨k, hserved, ?_, ?_⟩
  · have := Nat.mul_le_mul_right s.frameSize hk
    omega
  · rcases hend with rfl | hend
    · left
      omega
    · right
      rw [← hseq] at hend
      exact hend

/-! ## A read -/

/-- The stream that a read takes its bytes from. -/
def toppedUp (s : Stream) (looping : Bool) (wanted : ℕ) : Stream :=
  if s.isLow wanted then s.fill looping else s

/-- Topping up provides what is wanted, unless the song has ended. -/
theorem toppedUp_spec (h : s.Steady) (looping : Bool) {wanted : ℕ} (hw : wanted ≤ s.secondSize) :
    ∃ k, Served (List.replicate k looping) s [] (s.toppedUp looping wanted) ∧
      (s.toppedUp looping wanted).pending.size ≤ s.capacity ∧
      (wanted ≤ (s.toppedUp looping wanted).pending.size ∨
        (s.toppedUp looping wanted).sequencer.isFinished = true) := by
  unfold toppedUp
  split
  · obtain ⟨k, hserved, hfits, hend⟩ := fill_spec h looping
    refine ⟨k, hserved, hfits, hend.imp_left fun hfull => ?_⟩
    rw [hfull, capacity]
    omega
  · rename_i hlow
    simp only [isLow, Bool.or_eq_true, decide_eq_true_eq, not_or, not_lt] at hlow
    exact ⟨0, .refl s, h.fits, Or.inl hlow.2⟩

theorem read_of_wanted (hopen : s.atEnd = false) {ms : ℕ} (hms : 0 < ms ∧ ms ≤ longestRead)
    (looping : Bool) :
    s.read ms looping = .ok ((s.toppedUp looping (s.wanted ms)).take (s.wanted ms)) := by
  rw [read, hopen, if_neg Bool.false_ne_true, if_neg (Nat.not_lt.2 hms.2), if_neg hms.1.ne']
  rfl

/-- No read asks for more than a second. -/
theorem wanted_le {ms : ℕ} (hms : ms ≤ longestRead) : s.wanted ms ≤ s.secondSize := by
  refine Nat.mul_le_mul_right _ ?_
  have : s.sequencer.setup.rate * ms ≤ s.sequencer.setup.rate * 1000 := Nat.mul_le_mul_left _ hms
  omega

/-- Every read asks for something. -/
theorem wanted_pos (h : s.Steady) {ms : ℕ} (hms : 0 < ms) : 0 < s.wanted ms := by
  refine Nat.mul_pos ?_ s.frameSize_pos
  have : 1 ≤ s.sequencer.setup.rate * ms :=
    Nat.mul_pos (by have := h.song.rate_ge; omega) hms
  omega

/-- A stream that was served whole frames is steady, if its buffer is not overfull. -/
theorem Steady.served (h : s.Steady) (hserved : Served flags s data s')
    (hfits : s'.pending.size ≤ s.capacity) (hwhole : s.frameSize ∣ data.length) : s'.Steady := by
  refine ⟨?_, ?_, hserved.balance h, ?_⟩
  · rw [hserved.sequencer]
    exact h.song.run flags
  · rwa [capacity_eq_of_reset_eq hserved.reset_eq]
  · rw [frameSize_eq_of_reset_eq hserved.reset_eq, hserved.consumed]
    exact Nat.dvd_add h.whole hwhole

theorem toList_take (s : Stream) (n : ℕ) : (s.take n).1.toList = s.pending.toList.take n := by
  simp [Stream.take]

theorem toList_pending_take (s : Stream) (n : ℕ) :
    (s.take n).2.pending.toList = s.pending.toList.drop n :=
  Array.toList_drop s.pending n

theorem size_take (s : Stream) (n : ℕ) : (s.take n).1.size = min n s.pending.size := by
  simp [Stream.take]

/-- What a read takes was there or has been made. -/
theorem Served.take (h : Served flags s [] s') (n : ℕ) :
    Served flags s (s'.take n).1.toList (s'.take n).2 := by
  refine ⟨h.made, h.sequencer, ?_, ?_, h.songIndex⟩
  · have hbytes := h.bytes
    rw [List.nil_append] at hbytes
    rw [← hbytes, toList_take, toList_pending_take, List.take_append_drop]
  · rw [Array.length_toList, show s.consumed = s'.consumed from h.consumed.symm]
    rfl

/-- **Every read is served**, also one that is refused. -/
theorem served_answer (h : s.Steady) (ms : ℕ) (looping : Bool) :
    ∃ k, Served (List.replicate k looping) s (s.answer ms looping).1 (s.answer ms looping).2 ∧
      (s.answer ms looping).2.Steady := by
  have hnothing : ∃ k, Served (List.replicate k looping) s [] s ∧ s.Steady := ⟨0, .refl s, h⟩
  by_cases hopen : s.atEnd = true
  · rwa [answer, read_of_atEnd hopen]
  rcases Nat.eq_zero_or_pos ms with rfl | hpos
  · rw [answer, read, if_neg hopen]
    exact hnothing
  rcases Nat.lt_or_ge longestRead ms with hlong | hms
  · rwa [answer, read, if_neg hopen, if_pos hlong]
  rw [answer, read_of_wanted (Bool.eq_false_iff.2 hopen) ⟨hpos, hms⟩]
  obtain ⟨k, hserved, hfits, -⟩ := toppedUp_spec h looping (wanted_le hms)
  set t := s.toppedUp looping (s.wanted ms) with ht
  have hsteady : t.Steady := h.served hserved hfits (Nat.dvd_zero _)
  refine ⟨k, hserved.take _, h.served (hserved.take _) ?_ ?_⟩
  · have := congrArg List.length (toList_pending_take t (s.wanted ms))
    rw [List.length_drop, Array.length_toList, Array.length_toList] at this
    exact this.trans_le ((Nat.sub_le _ _).trans hfits)
  · -- what is wanted and what is there are both whole frames
    rw [Array.length_toList, size_take]
    rcases min_choice (s.wanted ms) t.pending.size with hmin | hmin <;> rw [hmin]
    · exact Nat.dvd_mul_left _ _
    · rw [← frameSize_eq_of_reset_eq hserved.reset_eq]
      exact hsteady.whole_pending

/-- **Reads are served one after the other**, each with frames under its own flag. -/
theorem served_reads (h : s.Steady) (rs : List (ℕ × Bool)) :
    ∃ counts : List ℕ, counts.length = rs.length ∧
      Served ((rs.zip counts).flatMap fun (r, k) => List.replicate k r.2) s (s.reads rs).1
        (s.reads rs).2 ∧
      (s.reads rs).2.Steady := by
  induction rs generalizing s with
  | nil => exact ⟨[], rfl, .refl s, h⟩
  | cons r rs ih =>
    obtain ⟨k, hserved, hsteady⟩ := served_answer h r.1 r.2
    obtain ⟨counts, hcounts, hrest, hend⟩ := ih hsteady
    exact ⟨k :: counts, congrArg (· + 1) hcounts, hserved.trans hrest, hend⟩

/-! ## How much a read hands out -/

/-- A song that is over has made all of its bytes. -/
theorem Steady.endBytes_of_finished (h : s.Steady) (hend : s.sequencer.isFinished = true) :
    s.endBytes = some (s.consumed + s.pending.size) := by
  obtain ⟨e, he, hle⟩ : ∃ e, s.sequencer.endFrame = some e ∧ e ≤ s.sequencer.frames := by
    simpa [Sequencer.isFinished, Option.any_eq_true] using hend
  rw [h.balance, endBytes, he, Nat.le_antisymm (h.song.ahead e he) hle]
  rfl

/-- What is handed out and what is buffered lie before the end. -/
theorem Steady.le_endBytes (h : s.Steady) {e : ℕ} (he : s.endBytes = some e) :
    s.consumed + s.pending.size ≤ e := by
  obtain ⟨n, hn, rfl⟩ := Option.map_eq_some_iff.1 he
  rw [h.balance]
  exact Nat.mul_le_mul_right _ (h.song.ahead n hn)

/-- Before the end something is buffered once the song is over. -/
theorem Served.pending_pos (hserved : Served flags s [] s') (h : s.Steady) (h' : s'.Steady)
    (hopen : s.atEnd = false) (hend : s'.sequencer.isFinished = true) : 0 < s'.pending.size := by
  by_contra hzero
  have hconsumed : s'.consumed = s.consumed := hserved.consumed
  have hframes : s'.sequencer.frames = s.sequencer.frames + flags.length := by
    rw [hserved.sequencer, Sequencer.frames_run, hserved.made]
  have hsize := frameSize_eq_of_reset_eq hserved.reset_eq
  -- no frame can have been made, so the stream was at its end before
  have hnone : flags = [] := by
    have hbalance := h'.balance
    rw [hframes, hsize, Nat.add_mul] at hbalance
    have hpos : flags.length ≤ flags.length * s.frameSize :=
      Nat.le_mul_of_pos_right _ s.frameSize_pos
    have := h.balance
    exact List.eq_nil_of_length_eq_zero (by omega)
  have hsame : s.endBytes = s'.endBytes := by
    rw [endBytes, endBytes, hsize, hserved.sequencer, hnone]
    rfl
  have hlast : s.endBytes = some s.consumed := by
    rw [hsame, h'.endBytes_of_finished hend, hconsumed]
    exact congrArg some (by omega)
  rw [atEnd, hlast] at hopen
  simp at hopen

/-- **A read hands out what it asks for**, or what is left up to the end if that is less, but always
something. -/
theorem read_spec (h : s.Steady) (hopen : s.atEnd = false) {ms : ℕ}
    (hms : 0 < ms ∧ ms ≤ longestRead) (looping : Bool) :
    ∃ data s', s.read ms looping = .ok (data, s') ∧ 0 < data.size ∧
      data.size = s'.endBytes.elim (s.wanted ms) fun e => min (s.wanted ms) (e - s.consumed) := by
  obtain ⟨k, hserved, hfits, henough⟩ := toppedUp_spec h looping (wanted_le hms.2)
  have hread := read_of_wanted hopen hms looping
  generalize s.toppedUp looping (s.wanted ms) = t at hserved hfits henough hread
  have hsteady : t.Steady := h.served hserved hfits (Nat.dvd_zero _)
  have hconsumed : t.consumed = s.consumed := hserved.consumed
  have hwanted := wanted_pos h hms.1
  have hend : (t.take (s.wanted ms)).2.endBytes = t.endBytes := rfl
  refine ⟨(t.take (s.wanted ms)).1, (t.take (s.wanted ms)).2, hread, ?_⟩
  rw [hend, size_take]
  rcases Nat.lt_or_ge t.pending.size (s.wanted ms) with hfew | hmany
  · -- the song is over, and the buffer holds all the rest of it
    have hfinished := henough.resolve_left (Nat.not_le.2 hfew)
    have := hserved.pending_pos h hsteady hopen hfinished
    rw [hsteady.endBytes_of_finished hfinished, hconsumed, Option.elim_some, Nat.add_sub_cancel_left]
    exact ⟨by omega, rfl⟩
  · rw [Nat.min_eq_left hmany]
    refine ⟨hwanted, ?_⟩
    cases he : t.endBytes with
    | none => rfl
    | some e =>
      have := hsteady.le_endBytes he
      rw [Option.elim_some, Nat.min_eq_left (by omega)]

end Chiptune.Stream
