import Mathlib
import Chiptune.Proofs.Beats
import Chiptune.Proofs.Isolation
import Chiptune.Proofs.RowLength
import Chiptune.Proofs.Writes

/-!
# Songs on time

Whether an interrupt comes is decided in binary64 seconds. As long as that comparison agrees with the
one in whole numbers, every interrupt comes with the first frame that has reached its time, so where
a row begins can be said in frames. What a song that is written whole gives is then a matter of the
frames up to its end.

* `OnTime`: no comparison is wrong while the song plays.
* `Prompt.follows`: **no interrupt comes late.**
* `Score.KeepsSpeed`, `Score.GoesOn`: scores without some commands, and what their rows leave alone.
* `Stream.exists_whole`: the bytes of a song that is written whole.
-/

namespace Chiptune

/-! ## Scores without some commands -/

/-- No note sets the speed. -/
def Score.KeepsSpeed (score : Score) : Prop :=
  ∀ note ∈ score.notes, note.command ≠ .setSpeed

/-- No note leads the song elsewhere. -/
def Score.GoesOn (score : Score) : Prop :=
  ∀ note ∈ score.notes, note.command ∉ [.positionJump, .patternBreak]

/-- A row is made of notes of the score and blank ones. -/
theorem Score.row_forall {P : Note → Prop} {score : Score} (h : ∀ note ∈ score.notes, P note)
    (hblank : P .blank) (step channel row : ℕ) : P (score.row step channel row).2 := by
  unfold Score.row
  cases score.part? step channel with
  | none => exact hblank
  | some part =>
    dsimp only
    cases hnote : score.note? part row with
    | none => exact hblank
    | some note =>
      obtain ⟨hlt, rfl⟩ := Array.getElem?_eq_some_iff.1 hnote
      exact h _ (Array.getElem_mem hlt)

theorem Directive.onSpeed_ofNote {note : Note} (h : note.command ≠ .setSpeed) (n : ℕ) :
    (ofNote note).onSpeed n = n := by
  unfold ofNote
  dsimp only
  split <;> first | rfl | exact absurd (by assumption) h

theorem Directive.goal?_ofNote {note : Note} (h : note.command ∉ [.positionJump, .patternBreak])
    (step : ℕ) : (ofNote note).goal? step = none := by
  unfold ofNote
  dsimp only
  split
  case h_4 hc => simp [hc] at h
  case h_5 hc => simp [hc] at h
  all_goals (try split) <;> rfl

namespace Sequencer

variable {looping : Bool} {s s' : Sequencer} {f : Frame}

theorem directives_forall {P : Note → Prop} (h : ∀ note ∈ s.score.notes, P note)
    (hblank : P .blank) : ∀ d ∈ s.directives, ∃ note, P note ∧ d = .ofNote note := by
  intro d hd
  obtain ⟨⟨part, note⟩, hmem, rfl⟩ := List.mem_map.1 hd
  obtain ⟨i, hi, hget⟩ := Vector.mem_iff_getElem.1 (Vector.mem_toList_iff.1 hmem)
  refine ⟨note, ?_, rfl⟩
  have hrow := Score.row_forall h hblank s.progress.place.step i s.progress.place.row
  rw [row, Vector.getElem_ofFn] at hget
  rwa [hget] at hrow

/-- **The speed is kept.** -/
theorem speed_rowProgress_eq (h : s.score.KeepsSpeed) : s.rowProgress.speed = s.progress.speed := by
  have hfold (ds : List Directive) (hds : ∀ d ∈ ds, ∃ note : Note, note.command ≠ .setSpeed ∧
      d = .ofNote note) (n : ℕ) : ds.foldl (fun n d => Directive.onSpeed d n) n = n := by
    induction ds with
    | nil => rfl
    | cons d ds ih =>
      obtain ⟨note, hnote, rfl⟩ := hds d (by simp)
      rw [List.foldl_cons, Directive.onSpeed_ofNote hnote]
      exact ih fun d hd => hds d (by simp [hd])
  exact hfold _ (directives_forall h (by decide)) _

theorem Follows.speed_eq (hf : Follows looping s f s') (h : s.score.KeepsSpeed) :
    s'.progress.speed = s.progress.speed := by
  rcases hf.move.speed with hsame | hrow
  · exact hsame
  · rw [hrow, speed_rowProgress_eq h]

/-- **No row leads anywhere.** -/
theorem goal?_eq_none (h : s.score.GoesOn) : s.goal? = none := by
  have hfold (ds : List Directive) (hds : ∀ d ∈ ds, ∃ note : Note,
      note.command ∉ [.positionJump, .patternBreak] ∧ d = .ofNote note) (step : ℕ) :
      Directive.lastGoal? ds step = none := by
    unfold Directive.lastGoal?
    induction ds with
    | nil => rfl
    | cons d ds ih =>
      obtain ⟨note, hnote, rfl⟩ := hds d (by simp)
      rw [List.foldl_cons, Directive.goal?_ofNote hnote]
      exact ih fun d hd => hds d (by simp [hd])
  exact hfold _ (directives_forall h (by decide)) _

/-! ## Interrupts on time -/

/-- Whether the comparison of times in binary64 agrees with the one in whole numbers. -/
def Punctual (s : Sequencer) : Prop :=
  s.isInterrupt = true ↔ s.interrupts * s.setup.rate ≤ s.frames * s.song.interruptRate.toNat

instance (s : Sequencer) : Decidable s.Punctual :=
  inferInstanceAs (Decidable (_ ↔ _))

/-- A song in which that is so at every frame that it makes when it loops. -/
def OnTime (s : Sequencer) : Prop :=
  ∀ k, (s.after true k).isFinished = false → (s.after true k).Punctual

theorem after_succ_of_some (hr : s.renderFrame looping = some (f, s')) (k : ℕ) :
    s.after looping (k + 1) = s'.after looping k := by
  rw [after, List.replicate_succ, run_cons_of_some hr]
  rfl

theorem OnTime.follows (h : s.OnTime) (hr : s.renderFrame true = some (f, s')) :
    s.Punctual ∧ s'.OnTime := by
  refine ⟨h 0 (follows_of_renderFrame hr).unfinished, fun k hk => ?_⟩
  have := h (k + 1)
  rw [after_succ_of_some hr] at this
  exact this hk

/-- Whether a song is on time in so many frames, and over after them. -/
def keepsTime : ℕ → Sequencer → Bool
  | 0, s => s.isFinished
  | n + 1, s =>
    match s.renderFrame true with
    | none => true
    | some (_, s') => s.Punctual && keepsTime n s'

/-- **A song that keeps time up to its end is on time**, for past the end there is nothing to
compare. -/
theorem onTime_of_keepsTime {n : ℕ} (h : keepsTime n s = true) : s.OnTime := by
  induction n generalizing s with
  | zero =>
    intro k hk
    have hend : s.isFinished = true := h
    rw [after, run_of_finished hend, hend] at hk
    cases hk
  | succ n ih =>
    intro k hk
    cases hr : s.renderFrame true with
    | none =>
      have hend := (renderFrame_eq_none_iff true s).1 hr
      rw [after, run_of_finished hend, hend] at hk
      cases hk
    | some r =>
      rw [keepsTime, hr] at h
      obtain ⟨hnow, hlater⟩ := Bool.and_eq_true_iff.1 h
      cases k with
      | zero => exact of_decide_eq_true hnow
      | succ k =>
        rw [after_succ_of_some hr] at hk ⊢
        exact ih hlater k hk

/-- A song whose next interrupt is due with the next frame at the earliest. -/
def Prompt (s : Sequencer) : Prop :=
  s.frames * s.song.interruptRate.toNat < s.interrupts * s.setup.rate + s.song.interruptRate.toNat

/-- **No interrupt comes late**, for there are more frames than interrupts. -/
theorem Prompt.follows (h : s.Prompt) (hs : s.Sound) (hexact : s.Punctual)
    (hf : Follows looping s f s') : s'.Prompt := by
  have hirq := hs.irq_le
  have hrate := hs.rate_ge
  unfold Prompt at h ⊢
  unfold Punctual at hexact
  rw [hf.frames, hf.interrupts, setup_eq_of_reset_eq hf.reset, song_eq_of_reset_eq hf.reset,
    Nat.add_mul, Nat.add_mul]
  cases hi : s.isInterrupt with
  | true =>
    rw [Bool.toNat_true]
    omega
  | false =>
    have hlt : ¬ s.interrupts * s.setup.rate ≤ s.frames * s.song.interruptRate.toNat := by
      rw [← hexact, hi]
      nofun
    rw [Bool.toNat_false]
    omega

end Sequencer

/-! ## Whole writes -/

namespace Stream

variable {score : Score} {index : ℕ} {setup : Setup} {s₀ : Stream}

/-- A song that was started is prompt, whatever the limit of its loops. -/
theorem prompt_start (h₀ : start score index setup = .ok s₀) (limit : Option ℕ) :
    (s₀.sequencer.setLoopLimit limit).Steady ∧ (s₀.sequencer.setLoopLimit limit).Abreast ∧
      (s₀.sequencer.setLoopLimit limit).Prompt := by
  obtain ⟨hready, song, -, rfl⟩ := start_eq_ok h₀
  have hirq : 0 < song.interruptRate.toNat := hready.fresh.song.irq_pos
  refine ⟨hready.fresh.song.setLoopLimit limit, fun _ => rfl, ?_⟩
  change 0 * song.interruptRate.toNat < 0 * setup.rate + song.interruptRate.toNat
  omega

/-- **The bytes of a song that is written whole** are those of its frames up to the end. -/
theorem exists_whole (h₀ : start score index setup = .ok s₀) (requests : List Request) {loops : ℕ}
    (hloops : loops ≤ 100) (unsigned : Bool) :
    let q := s₀.sequencer.setLoopLimit (some loops)
    ∃ n pcm, q.EndsAfter true n ∧
      ((requests.foldl after s₀).write loops true unsigned .endless).whole = .ok pcm ∧
      pcm.toList = sent unsigned (Frame.pcm (q.run (List.replicate n true)).1) := by
  intro q
  obtain ⟨hready, song, -, hs₀⟩ := start_eq_ok h₀
  have hs : Ready s₀ (requests.foldl after s₀) := hready.foldl_after requests
  have hsteady : (s₀.limited (some loops)).Steady := hready.steady.limited _
  obtain ⟨n, hn⟩ := Sequencer.exists_endsAfter (s := q) hsteady.song rfl true
  obtain ⟨w, hw, hspec⟩ := drain_spec hsteady unsigned .endless hn
  have hdone := hspec rfl
  -- the write begins with the stream of the start, whatever was asked of it before
  have hwrite := write_of_drain (s := requests.foldl after s₀) hloops true
    (by rw [if_pos rfl, hs.reset]; exact hw)
  refine ⟨n, w.pcm, hn, ?_, ?_⟩
  · rw [hwrite, Written.whole, hdone.fault]
    rfl
  · have hempty : (s₀.limited (some loops)).pending = #[] := by rw [hs₀]; rfl
    rw [Written.toList_pcm, hdone.bytes, hempty]
    rfl

end Stream

end Chiptune
