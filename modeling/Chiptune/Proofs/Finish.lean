import Mathlib
import Chiptune.Proofs.Frames

/-!
# A song with limited loops ends

The end gets nearer with every frame. Before the last row is played the next row comes nearer,
counted in interrupts, or the next interrupt does, counted in frames; after it the frames of one row
are left.

* `distance_follows`: **every frame brings the end nearer**, under any loop flag.
* `exists_finished`: so the end comes.
* `rows_le`: few rows are played until then.
* `Looped.run`: a song that loops when it may has taken all of its loops at the end.
-/

namespace Chiptune.Sequencer

variable {limit : ℕ} {looping : Bool} {s s' : Sequencer} {f : Frame}

/-- Frames until the next interrupt, at most. -/
def lag (s : Sequencer) : ℕ :=
  4 * (s.interrupts * s.setup.rate) - s.frames

/-- What lies before the end: rows, interrupts until the next row, and frames. -/
def distance (limit : ℕ) (s : Sequencer) : ℕ × ℕ × ℕ :=
  match s.endFrame with
  | some e => (0, 0, e - s.frames)
  | none => (s.progress.rowsLeft s.song limit, s.progress.wait, s.lag)

/-- Whether a row is played with the next frame. -/
def playsRow (s : Sequencer) : Bool :=
  s.isInterrupt && s.endFrame.isNone && s.progress.isDue

theorem playsRow_iff : s.playsRow = true ↔
    s.isInterrupt = true ∧ s.endFrame = none ∧ s.progress.isDue = true := by
  simp [playsRow, and_assoc]

/-- A row turns the song, and may end it. -/
theorem Follows.of_playsRow (hf : Follows looping s f s') (hrow : s.playsRow = true) :
    s'.progress = s.rowProgress.turn s.song looping s.goal? ∧
      s'.endFrame = if s.rowProgress.ends s.song looping s.goal? then
        some (s.frames + { s with progress := s.rowProgress }.rowFrames) else none := by
  have hmove := hf.move
  generalize s'.progress = p at hmove ⊢
  generalize s'.endFrame = o at hmove ⊢
  obtain ⟨hi, he, hd⟩ := playsRow_iff.1 hrow
  cases hmove with
  | stay hstay => simp [hi, he] at hstay
  | count _ _ hd' => simp [hd] at hd'
  | turn _ _ _ hgo => exact ⟨rfl, by rw [hgo, if_neg Bool.false_ne_true]⟩
  | finish _ _ _ hend => exact ⟨rfl, by rw [if_pos hend]⟩

/-- A row after which the end is open has turned the song. -/
theorem Follows.turn_of_playsRow (hf : Follows looping s f s') (hrow : s.playsRow = true)
    (hgo : s'.endFrame = none) :
    s.rowProgress.ends s.song looping s.goal? = false ∧
      s'.progress = s.rowProgress.turn s.song looping s.goal? := by
  obtain ⟨hprogress, hend⟩ := hf.of_playsRow hrow
  refine ⟨?_, hprogress⟩
  by_contra hends
  rw [Bool.not_eq_false] at hends
  rw [hends, if_pos rfl, hgo] at hend
  cases hend

/-- Without a row no more is done than to count an interrupt before the end. -/
theorem Follows.of_not_playsRow (hf : Follows looping s f s') (hrow : s.playsRow = false) :
    s'.progress = (if s.isInterrupt && s.endFrame.isNone then s.progress.counted else s.progress) ∧
      s'.endFrame = s.endFrame := by
  have hmove := hf.move
  generalize s'.progress = p at hmove ⊢
  generalize s'.endFrame = o at hmove ⊢
  cases hmove with
  | stay hstay =>
    refine ⟨?_, rfl⟩
    rcases hstay with hi | he
    · rw [hi]
      rfl
    · rw [Option.isNone_eq_false_iff.2 (Option.isSome_iff_ne_none.2 he), Bool.and_false]
      rfl
  | count hi he => exact ⟨by rw [hi, he]; rfl, he.symm⟩
  | turn hi he hd | finish hi he hd =>
    rw [playsRow_iff.2 ⟨hi, he, hd⟩] at hrow
    cases hrow

/-- Shorter distances, in the order of rows, interrupts and frames. -/
def Nearer : ℕ × ℕ × ℕ → ℕ × ℕ × ℕ → Prop :=
  Prod.Lex (· < ·) (Prod.Lex (· < ·) (· < ·))

theorem wellFounded_nearer : WellFounded Nearer :=
  WellFounded.prod_lex Nat.lt_wfRel.wf (WellFounded.prod_lex Nat.lt_wfRel.wf Nat.lt_wfRel.wf)

/-- Without an interrupt the next one is ahead. -/
theorem lag_pos (h : s.Sound) (hi : s.isInterrupt = false) :
    s.frames < 4 * (s.interrupts * s.setup.rate) := by
  by_contra hle
  have hirq : s.frames ≤ s.frames * s.song.interruptRate.toNat :=
    Nat.le_mul_of_pos_right _ h.irq_pos
  rw [isInterrupt_of_le h (by omega)] at hi
  cases hi

/-- Without an interrupt a frame brings the next one nearer. -/
theorem lag_follows (h : s.Sound) (hf : Follows looping s f s') (hi : s.isInterrupt = false) :
    s'.lag < s.lag := by
  have hlag := lag_pos h hi
  rw [lag, lag, hf.interrupts, hf.frames, setup_eq_of_reset_eq hf.reset, hi]
  simp only [Bool.toNat_false, Nat.add_zero]
  omega

/-- **Every frame brings the end nearer**, and every row that is played counts. -/
theorem distance_follows (h : s.Steady) (hlimit : s.progress.loopLimit = some limit)
    (hf : Follows looping s f s') :
    Nearer (s'.distance limit) (s.distance limit) ∧
      (s'.distance limit).1 + s.playsRow.toNat ≤ (s.distance limit).1 := by
  have hsong := song_eq_of_reset_eq hf.reset
  have hmove := hf.move
  unfold distance playsRow
  generalize s'.progress = p at hmove ⊢
  generalize s'.endFrame = o at hmove ⊢
  rw [hsong, hf.frames]
  cases hmove with
  | stay hstay =>
    cases he : s.endFrame with
    | some e =>
      -- the end is known and not yet reached
      have hopen := hf.unfinished
      simp only [isFinished, he, Option.any_some, decide_eq_false_iff_not, not_le] at hopen
      refine ⟨.right _ (.right _ ?_), ?_⟩
      · omega
      · simp
    | none =>
      -- the end is open, so only a missing interrupt can have kept the song in its place
      have hi := hstay.resolve_right (not_not.2 he)
      refine ⟨.right _ (.right _ (lag_follows h.toSound hf hi)), ?_⟩
      simp [hi]
  | count hi he hd =>
    rw [he]
    have hwait := Progress.wait_of_not_isDue h.speed_pos hd
    refine ⟨.right _ (.left _ _ (by omega)), ?_⟩
    simp [hd]
    rfl
  | turn hi he hd hgo =>
    have htrack := h.onTrack he
    have hless :=
      (Progress.rowsLeft_turn (p := s.rowProgress) ⟨htrack.row, htrack.step⟩ hgo).2 limit hlimit
    rw [he, hi, hd]
    exact ⟨.left _ _ hless, hless⟩
  | finish hi he hd hend =>
    -- rows are no longer counted, and at least one was left
    have hsome : 0 < s.progress.rowsLeft s.song limit :=
      Nat.lt_of_lt_of_le Nat.one_pos ((Nat.le_max_left 1 _).trans (Nat.le_add_left _ _))
    rw [he, hi, hd]
    exact ⟨.left _ _ hsome, (Nat.zero_add _).trans_le hsome⟩

/-- **The end comes.** -/
theorem exists_finished (h : s.Steady) (hlimit : s.progress.loopLimit = some limit)
    (looping : Bool) : ∃ n, (run (List.replicate n looping) s).2.isFinished = true := by
  induction hd : s.distance limit using wellFounded_nearer.induction generalizing s with
  | _ d ih =>
    cases hr : s.renderFrame looping with
    | none => exact ⟨0, (renderFrame_eq_none_iff looping s).1 hr⟩
    | some r =>
      have hf := follows_of_renderFrame hr
      obtain ⟨n, hn⟩ := ih _ (hd ▸ (distance_follows h hlimit hf).1) (h.follows hf)
        ((loopLimit_eq_of_reset_eq hf.reset).trans hlimit) rfl
      refine ⟨n + 1, ?_⟩
      rw [List.replicate_succ, run_cons_of_some hr]
      exact hn

/-- Rows that are played under given loop flags. -/
def rows : List Bool → Sequencer → ℕ
  | [], _ => 0
  | looping :: flags, s =>
    match s.renderFrame looping with
    | none => 0
    | some (_, s') => s.playsRow.toNat + rows flags s'

/-- **Few rows are played.** -/
theorem rows_le (h : s.Steady) (hlimit : s.progress.loopLimit = some limit) (flags : List Bool) :
    rows flags s ≤ (s.distance limit).1 := by
  induction flags generalizing s with
  | nil => exact Nat.zero_le _
  | cons looping flags ih =>
    cases hr : s.renderFrame looping with
    | none =>
      rw [rows, hr]
      exact Nat.zero_le _
    | some r =>
      have hf := follows_of_renderFrame hr
      have hrest := ih (h.follows hf) ((loopLimit_eq_of_reset_eq hf.reset).trans hlimit)
      have hstep := (distance_follows h hlimit hf).2
      rw [rows, hr]
      dsimp only
      omega

/-- A song under a loop limit that has taken no more loops than it may, and all of them once its end
is known. -/
structure Looped (limit : ℕ) (s : Sequencer) : Prop where
  limited : s.progress.loopLimit = some limit
  le : s.progress.loops ≤ limit
  all : s.endFrame ≠ none → s.progress.loops = limit

theorem Move.loops_le (h : s.Looped limit) {p : Progress} {o : Option ℕ}
    (hm : Move looping s p o) : p.loops ≤ limit := by
  cases hm with
  | stay | count => exact h.le
  | turn | finish => exact Progress.loops_turn_le (p := s.rowProgress) h.limited h.le

/-- A song that loops when it may ends only without a loop left. -/
theorem Move.loops_eq (h : s.Looped limit) {p : Progress} {o : Option ℕ} (hm : Move true s p o) :
    o ≠ none → p.loops = limit := by
  intro ho
  cases hm with
  | stay => exact h.all ho
  | count | turn => exact absurd rfl ho
  | finish hi he hd hend =>
    rw [Progress.loops_turn_of_ends hend]
    exact Nat.le_antisymm h.le (Progress.limit_le_of_ends (p := s.rowProgress) h.limited hend)

theorem Looped.follows (h : s.Looped limit) (hf : Follows true s f s') : s'.Looped limit :=
  ⟨(loopLimit_eq_of_reset_eq hf.reset).trans h.limited, hf.move.loops_le h, hf.move.loops_eq h⟩

theorem Looped.run (h : s.Looped limit) (n : ℕ) :
    (run (List.replicate n true) s).2.Looped limit := by
  refine run_replicate_induction ?_ h n
  intro s f s' hr hs
  exact hs.follows (follows_of_renderFrame hr)

/-- A song that makes so many more frames. -/
structure EndsAfter (looping : Bool) (n : ℕ) (s : Sequencer) : Prop where
  all : (run (List.replicate n looping) s).1.length = n
  ended : (run (List.replicate n looping) s).2.isFinished = true

theorem exists_endsAfter (h : s.Steady) (hlimit : s.progress.loopLimit = some limit)
    (looping : Bool) : ∃ n, s.EndsAfter looping n := by
  obtain ⟨m, hm⟩ := exists_finished h hlimit looping
  obtain ⟨n, -, hlen, hrun, -⟩ := run_replicate looping m s
  exact ⟨n, hlen, hrun ▸ hm⟩

/-- A song that has come to its end just now stands at its last frame. -/
theorem EndsAfter.endFrame_eq {n : ℕ} (h : s.Steady) (hn : s.EndsAfter looping n) :
    (run (List.replicate n looping) s).2.endFrame = some (s.frames + n) := by
  have hframes := frames_run (List.replicate n looping) s
  rw [hn.all] at hframes
  have hended := hn.ended
  have hahead := (h.run (List.replicate n looping)).ahead
  unfold isFinished at hended
  generalize (run (List.replicate n looping) s).2.endFrame = o at hended hahead ⊢
  cases o with
  | none => cases hended
  | some e =>
    have hle : e ≤ s.frames + n := by simpa [hframes] using hended
    have hge : s.frames + n ≤ e := hframes ▸ hahead e rfl
    rw [Nat.le_antisymm hle hge]

/-- The frames that are made now are not made later. -/
theorem EndsAfter.split {n j : ℕ} (h : s.EndsAfter looping n)
    (hj : (run (List.replicate j looping) s).1.length = j) :
    ∃ i, n = j + i ∧ (run (List.replicate j looping) s).2.EndsAfter looping i := by
  obtain ⟨i, rfl⟩ : ∃ i, n = j + i := by
    rcases Nat.le_total j n with hle | hle
    · exact Nat.exists_eq_add_of_le hle
    · -- a run past the end makes no more frames
      obtain ⟨i, rfl⟩ := Nat.exists_eq_add_of_le hle
      rw [List.replicate_add, run_append, run_of_finished h.ended, List.append_nil, h.all] at hj
      exact ⟨0, hj⟩
  have hall := h.all
  have hended := h.ended
  rw [List.replicate_add, run_append] at hall hended
  rw [List.length_append, hj, Nat.add_left_cancel_iff] at hall
  exact ⟨i, rfl, hall, hended⟩

/-- **From its start a song ends after so many rows**, with all of its loops taken. -/
theorem whole_song (h : s.Steady) (hopen : s.endFrame = none)
    (hstart : s.progress = { Progress.start s.song with loopLimit := some limit }) :
    ∃ n, s.EndsAfter true n ∧ (run (List.replicate n true) s).2.progress.loops = limit ∧
      s.rows (List.replicate n true) ≤ (limit + 1) * Progress.passRows s.song := by
  have hlimit : s.progress.loopLimit = some limit := by rw [hstart]
  have hlooped : s.Looped limit :=
    ⟨hlimit, by rw [hstart]; exact Nat.zero_le _, fun he => absurd hopen he⟩
  obtain ⟨n, hn⟩ := exists_endsAfter h hlimit true
  refine ⟨n, hn, (hlooped.run n).all ?_, (rows_le h hlimit _).trans ?_⟩
  · intro hnone
    have hended := hn.ended
    simp [isFinished, hnone] at hended
  · rw [distance, hopen, hstart]
    exact Progress.rowsLeft_start_le s.song limit

end Chiptune.Sequencer
