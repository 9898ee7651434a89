import Mathlib
import Chiptune.Proofs.Glides
import Chiptune.Proofs.Registers

/-!
# Slides add up

A row may slide the period or the volume of its track: by the same amount in every tick, except for the
first one of each round of the speed. Every tick cuts what it has reached to the range of the hardware.
As all of a slide goes one way, cutting it once at the end comes to the same.

* `Period.limit_limit_add`: steps of one sign may be cut together.
* `Track.slidTicks_succ`: which ticks slide.
* `Track.Sliding.ticked`: **a tick slides once, or rests**.
* `Track.slides_add_up`: so many ticks of a row in closed form, for every track in use.
-/

namespace Chiptune

open Period (Playable)

/-- **Steps of one sign may be cut together**, as the first cut only takes what the second would. -/
theorem Period.limit_limit_add {lo hi x a b : ℤ} (hx : lo ≤ x ∧ x ≤ hi)
    (hsign : 0 ≤ a ∧ 0 ≤ b ∨ a ≤ 0 ∧ b ≤ 0) :
    limit lo hi (limit lo hi (x + a) + b) = limit lo hi (x + (a + b)) := by
  unfold limit
  omega

theorem Period.Playable.ne_zero {p : ℤ} (h : Playable p) : p ≠ 0 := by
  have hlo := h.1
  unfold lowest at hlo
  omega

namespace Track

variable {score : Score} {tr tr₀ : Track} {s n : ℕ}

/-! ## Which ticks slide -/

/-- Of so many ticks of a row, those that slide: all but the first of each round of the speed. -/
def slidTicks (s n : ℕ) : ℕ :=
  n - n ⌈/⌉ s

/-- A round begins with every multiple of the speed. -/
theorem ceilDiv_succ (hs : 0 < s) (n : ℕ) :
    (n + 1) ⌈/⌉ s = n ⌈/⌉ s + if s ∣ n then 1 else 0 := by
  have hshift : n + 1 + s - 1 = n + s - 1 + 1 := by omega
  have hround : s ∣ n + s - 1 + 1 ↔ s ∣ n := by
    rw [Nat.sub_add_cancel (by omega), Nat.dvd_add_left dvd_rfl]
  simp only [Nat.ceilDiv_eq_add_pred_div, hshift, Nat.succ_div, hround]

theorem slidTicks_succ (hs : 0 < s) (n : ℕ) :
    slidTicks s (n + 1) = if s ∣ n then slidTicks s n else slidTicks s n + 1 := by
  have hrounds : n ⌈/⌉ s ≤ n := by
    rw [ceilDiv_le_iff_le_mul hs]
    exact Nat.le_mul_of_pos_left n hs
  unfold slidTicks
  rw [ceilDiv_succ hs]
  split <;> omega

/-! ## Ticks -/

/-- An effect on the waveform leaves the rest of the track alone. -/
theorem reshaped_eq (score : Score) (tr : Track) : tr.reshaped score =
    { tr with source := (tr.reshaped score).source, epoch := (tr.reshaped score).epoch } := by
  unfold reshaped
  split <;> rfl

/-- A tick of a track that glides nowhere only slides it. -/
theorem due_of_target_none (score : Score) (speed : ℕ) (h : tr.target = none) :
    tr.due score speed = (tr.counted.reshaped score).slid (tr.isFirstTick speed) := by
  have htarget : ((tr.counted.reshaped score).slid (tr.isFirstTick speed)).target = none :=
    (steering_slid tr score _).1.trans h
  rw [due, glide, htarget]

/-- A track `n` ticks into its row, all at one speed: what its slides have come to since the row
began. -/
structure Sliding (tr₀ : Track) (s n : ℕ) (tr : Track) : Prop where
  period : tr.period =
    Period.limit Period.lowest Period.highest (tr₀.period - tr₀.slide * slidTicks s n)
  volume : tr.volume = Period.limit 0 64 (tr₀.volume + tr₀.volumeSlide * slidTicks s n)
  target : tr.target = none
  slide : tr.slide = tr₀.slide
  volumeSlide : tr.volumeSlide = tr₀.volumeSlide
  rowTick : tr.rowTick = n % 0x10000

/-- A row begins with no slide made. -/
theorem sliding_of_row (hrange : tr₀.InRange) (hplays : tr₀.period ≠ 0)
    (htarget : tr₀.target = none) (hrow : tr₀.rowTick = 0) : tr₀.Sliding s 0 tr₀ := by
  have hnone : slidTicks s 0 = 0 := Nat.zero_sub _
  refine ⟨?_, ?_, htarget, rfl, rfl, hrow⟩
  · rw [hnone, Nat.cast_zero, mul_zero, sub_zero]
    exact (Period.limit_of_mem (hrange.period.resolve_left hplays)).symm
  · rw [hnone, Nat.cast_zero, mul_zero, add_zero]
    exact (Period.limit_of_mem hrange.volume).symm

/-- Before the counter of its ticks goes round, a row tells its first ticks by their numbers. -/
theorem Sliding.isFirstTick_iff (h : tr₀.Sliding s n tr) (hs : 0 < s) (hn : n < 0x10000) :
    tr.isFirstTick s = true ↔ s ∣ n := by
  unfold isFirstTick
  rw [h.rowTick, Nat.mod_eq_of_lt hn, max_eq_left hs, decide_eq_true_iff, Nat.dvd_iff_mod_eq_zero]

/-- **A tick slides once, or rests** if it is the first of a round. -/
theorem Sliding.moves (h : tr₀.Sliding s n tr) (hplays : tr.period ≠ 0) (hs : 0 < s) (hn : n < 0x10000)
    (score : Score) (ch : Channel) :
    let tr' := (tr.tick score s ch).1
    (tr'.period = if s ∣ n then tr.period
      else Period.limit Period.lowest Period.highest (tr.period - tr.slide)) ∧
    (tr'.volume = if s ∣ n then tr.volume else Period.limit 0 64 (tr.volume + tr.volumeSlide)) ∧
    tr'.target = none ∧ tr'.slide = tr.slide ∧ tr'.volumeSlide = tr.volumeSlide ∧
    tr'.rowTick = (tr.rowTick + 1) % 0x10000 := by
  have hfirst : tr.isFirstTick s = decide (s ∣ n) := by
    rw [Bool.eq_iff_iff, h.isFirstTick_iff hs hn, decide_eq_true_iff]
  rw [tick_of_playing s ch hplays, due_of_target_none score s h.target, reshaped_eq, hfirst]
  unfold slid
  by_cases hround : s ∣ n
  · simp only [hround, decide_true, if_true]
    exact ⟨rfl, rfl, h.target, rfl, rfl, rfl⟩
  · simp only [hround, decide_false, Bool.false_eq_true, if_false]
    exact ⟨rfl, rfl, h.target, rfl, rfl, rfl⟩

theorem Sliding.playable (h : tr₀.Sliding s n tr) : Playable tr.period := by
  rw [h.period]
  exact Period.playable_limit _

theorem Sliding.ticked (h : tr₀.Sliding s n tr) (hrange : tr₀.InRange) (hplays : tr₀.period ≠ 0)
    (hslide : 0 ≤ tr₀.slide) (hs : 0 < s) (hn : n < 0x10000) (score : Score) (ch : Channel) :
    tr₀.Sliding s (n + 1) (tr.tick score s ch).1 := by
  obtain ⟨hperiod, hvolume, htarget, hkept, hkept', hcount⟩ :=
    h.moves h.playable.ne_zero hs hn score ch
  have hmade : (0 : ℤ) ≤ slidTicks s n := Int.natCast_nonneg _
  refine ⟨?_, ?_, htarget, hkept.trans h.slide, hkept'.trans h.volumeSlide, ?_⟩
  · rw [hperiod, slidTicks_succ hs]
    by_cases hround : s ∣ n
    · rw [if_pos hround, if_pos hround, h.period]
    · -- a slide of the period goes down
      have hdown : -(tr₀.slide * slidTicks s n) ≤ 0 ∧ -tr₀.slide ≤ 0 := by
        have := Int.mul_nonneg hslide hmade
        omega
      rw [if_neg hround, if_neg hround, h.period, h.slide, sub_eq_add_neg,
        sub_eq_add_neg tr₀.period, Period.limit_limit_add (hrange.period.resolve_left hplays)
        (Or.inr hdown), Nat.cast_add, Nat.cast_one, mul_add, mul_one, ← neg_add, ← sub_eq_add_neg]
  · rw [hvolume, slidTicks_succ hs]
    by_cases hround : s ∣ n
    · rw [if_pos hround, if_pos hround, h.volume]
    · have hsign : 0 ≤ tr₀.volumeSlide * slidTicks s n ∧ 0 ≤ tr₀.volumeSlide ∨
          tr₀.volumeSlide * slidTicks s n ≤ 0 ∧ tr₀.volumeSlide ≤ 0 := by
        rcases le_total 0 tr₀.volumeSlide with hup | hdown
        · exact Or.inl ⟨Int.mul_nonneg hup hmade, hup⟩
        · exact Or.inr ⟨Int.mul_nonpos_of_nonpos_of_nonneg hdown hmade, hdown⟩
      rw [if_neg hround, if_neg hround, h.volume, h.volumeSlide,
        Period.limit_limit_add hrange.volume hsign, Nat.cast_add, Nat.cast_one, mul_add, mul_one]
  · rw [hcount, h.rowTick, Nat.mod_add_mod]

/-- **So many ticks of a row in closed form**, as long as the counter of its ticks does not go round. -/
theorem sliding_ticks (hrange : tr₀.InRange) (hplays : tr₀.period ≠ 0) (htarget : tr₀.target = none)
    (hslide : 0 ≤ tr₀.slide) (hrow : tr₀.rowTick = 0) (hs : 0 < s) (score : Score)
    (channels : List Channel) (hn : channels.length ≤ 0x10000) :
    tr₀.Sliding s channels.length (tr₀.ticks score (channels.map fun ch => (s, ch))) := by
  induction channels using List.reverseRecOn with
  | nil => exact sliding_of_row hrange hplays htarget hrow
  | append_singleton channels ch ih =>
    rw [List.length_append, List.length_singleton] at hn ⊢
    have hbefore := ih (by omega)
    have hlast : tr₀.ticks score ((channels ++ [ch]).map fun ch => (s, ch)) =
        ((tr₀.ticks score (channels.map fun ch => (s, ch))).tick score s ch).1 := by
      rw [List.map_append]
      exact List.foldl_concat _ _ _ _
    rw [hlast]
    exact hbefore.ticked hrange hplays hslide hs (by omega) score ch

/-! ## Rows -/

/-- A row begins without slides, and its ticks are counted anew. -/
theorem play_slides (score : Score) (tr : Track) (part : Part) (note : Note) (t : Float)
    (ch : Channel) :
    (tr.play score part note t ch).1.slide = 0 ∧ (tr.play score part note t ch).1.volumeSlide = 0 ∧
      (tr.play score part note t ch).1.rowTick = 0 := by
  unfold play playBy
  dsimp only
  split
  · exact ⟨rfl, rfl, rfl⟩
  split
  · exact ⟨rfl, rfl, rfl⟩
  rename_i inst _
  have htuned (tr : Track) : (tr.tuned inst part note).slide = tr.slide ∧
      (tr.tuned inst part note).volumeSlide = tr.volumeSlide ∧
      (tr.tuned inst part note).rowTick = tr.rowTick := by
    unfold tuned headFor
    dsimp only
    split <;> exact ⟨rfl, rfl, rfl⟩
  unfold triggerBy
  dsimp only
  split
  · exact htuned _
  split <;> exact htuned _

/-- Each slide is set by a command of its own, and no command counts a tick. -/
theorem command_slides (tr : Track) (row : Note) :
    ((tr.command row).slide = if row.command = .slideUp then (row.info.toNat : ℤ) else tr.slide) ∧
      ((tr.command row).volumeSlide =
        if row.command = .volumeSlide then row.info.toInt8.toInt else tr.volumeSlide) ∧
      (tr.command row).rowTick = tr.rowTick := by
  unfold command
  dsimp only
  cases row.command <;> exact ⟨rfl, rfl, rfl⟩

/-! ## Tracks in use -/

theorem Bounded.cued (h : tr.Bounded) (score : Score) (c : Cue) : (tr.cued score c).Bounded := by
  cases c with
  | play part note t ch => exact h.played score part note t ch
  | command note => exact h.commanded note
  | tick speed ch => exact h.ticked score speed ch

theorem bounded_foldl_cued (score : Score) (index : ℕ) (cues : List Cue) :
    (cues.foldl (cued score) (idle index)).Bounded := by
  refine List.foldlRecOn cues (cued score) (bounded_idle index) ?_
  intro tr h c _
  exact h.cued score c

/-- Commands are something that a track is told. -/
theorem foldl_command_eq (score : Score) (tr : Track) (commands : List Note) :
    commands.foldl command tr = (commands.map Cue.command).foldl (cued score) tr := by
  rw [List.foldl_map]
  rfl

/-- Commands count no ticks. -/
theorem rowTick_foldl_command (tr : Track) (commands : List Note) :
    (commands.foldl command tr).rowTick = tr.rowTick := by
  induction commands generalizing tr with
  | nil => rfl
  | cons row commands ih => exact (ih _).trans (tr.command_slides row).2.2

/-- **Slides add up.** Take any track, told anything before, and let a row begin on it, with a note or
without. Its command may slide the period or the volume, by an amount from 0 to 255 down, or from -128 to
127 up; no other sets a slide. Let any commands follow, and let the track then have a period and glide
nowhere.

Then let it make `n` ticks at one speed `s`, as many as a 16-bit counter can tell apart. Of these, all
slide but the first of every `s`, that is `c` of them. The period is what one slide by all of their
amounts would have made of it, cut once at the end, and so is the volume. The next tick leaves both as
they are if it is the first of a round, and else slides both. -/
theorem slides_add_up (score : Score) (index : ℕ) (cues : List Cue) (part : Part) (note : Note)
    (t : Float) (ch : Channel) :
    let row := ((cues.foldl (cued score) (idle index)).play score part note t ch).1
    (∀ first : Note, let tr := row.command first
      (tr.slide = if first.command = .slideUp then (first.info.toNat : ℤ) else 0) ∧
      (tr.volumeSlide = if first.command = .volumeSlide then first.info.toInt8.toInt else 0)) ∧
    ∀ commands : List Note, let tr := commands.foldl command row
      0 < tr.period → tr.target = none →
      (0 ≤ tr.slide ∧ tr.slide ≤ 255) ∧ (-128 ≤ tr.volumeSlide ∧ tr.volumeSlide ≤ 127) ∧
      ∀ s, 0 < s → ∀ channels : List Channel,
        let n := channels.length
        let c := n - n ⌈/⌉ s
        let tr' := tr.ticks score (channels.map fun ch => (s, ch))
        n ≤ 65536 →
        tr'.period = max 28 (tr.period - tr.slide * c) ∧
        tr'.volume = max 0 (min 64 (tr.volume + tr.volumeSlide * c)) ∧
        (n < 65536 → ∀ ch, let next := (tr'.tick score s ch).1
          (next.period = if s ∣ n then tr'.period else max 28 (tr'.period - tr.slide)) ∧
          (next.volume = if s ∣ n then tr'.volume
            else max 0 (min 64 (tr'.volume + tr.volumeSlide)))) := by
  intro row
  obtain ⟨hslide₀, hvolume₀, hcount₀⟩ :=
    (cues.foldl (cued score) (idle index)).play_slides score part note t ch
  refine ⟨?_, ?_⟩
  · intro first tr
    obtain ⟨hslide, hvolume, -⟩ := row.command_slides first
    exact ⟨hslide.trans (by rw [hslide₀]), hvolume.trans (by rw [hvolume₀])⟩
  intro commands tr hpos htarget
  have hcues : tr =
      (cues ++ .play part note t ch :: commands.map Cue.command).foldl (cued score) (idle index) := by
    rw [List.foldl_append, List.foldl_cons, ← foldl_command_eq]
    rfl
  have hrange : tr.InRange := hcues ▸ inRange_foldl_cued score index _
  have hbounded : tr.Bounded := hcues ▸ bounded_foldl_cued score index _
  have hrow : tr.rowTick = 0 := (rowTick_foldl_command row commands).trans hcount₀
  have hplays : Playable tr.period := hrange.period.resolve_left hpos.ne'
  refine ⟨hbounded.slide, hbounded.volumeSlide, ?_⟩
  intro s hs channels n c tr' hn
  have h : tr.Sliding s n tr' :=
    sliding_ticks hrange hpos.ne' htarget hbounded.slide.1 hrow hs score channels hn
  -- no slide goes up, so that the longest period is out of reach
  have hcut {p d : ℤ} (hp : Playable p) (hd : 0 ≤ d) :
      Period.limit Period.lowest Period.highest (p - d) = max 28 (p - d) := by
    have hhi := hp.2
    unfold Period.limit Period.lowest Period.highest at *
    omega
  refine ⟨?_, h.volume, ?_⟩
  · rw [h.period]
    exact hcut hplays (Int.mul_nonneg hbounded.slide.1 (Int.natCast_nonneg _))
  · intro hlt ch next
    obtain ⟨hperiod, hvolume, -⟩ := h.moves h.playable.ne_zero hs hlt score ch
    refine ⟨?_, ?_⟩
    · rw [hperiod, h.slide, hcut h.playable hbounded.slide.1]
    · rw [hvolume, h.volumeSlide]
      rfl

/-- An instrument to slide on. -/
def swoop : Score :=
  { instruments := #[{ (default : Instrument) with volume := 64 }] }

/-- A row with a note that slides down by 200, and in volume by -5. -/
def swooping : Track :=
  [⟨0, 0, 1, 200⟩, ⟨0, 0, 10, 0xFB⟩].foldl command
    ((idle 0).play swoop ⟨0, 0, 0⟩ ⟨37, 1, 0, 0⟩ 0.0 .idle).1

theorem swoop_adds_up :
    let channels := List.replicate 13 Channel.idle
    let tr := swooping.ticks swoop (channels.map fun ch => (6, ch))
    0 < swooping.period ∧ swooping.target = none ∧ 0 < 6 ∧ channels.length ≤ 65536 ∧
      tr.period = 28 ∧ tr.volume = 14 ∧ channels.length < 65536 ∧
      (tr.tick swoop 6 .idle).1.volume = 9 := by
  have hperiod : swooping.period = 1712 := by decide +kernel
  have htarget : swooping.target = none := by decide +kernel
  have hslide : swooping.slide = 200 := by decide +kernel
  have hfade : swooping.volumeSlide = -5 := by decide +kernel
  have hvolume : swooping.volume = 64 := by decide +kernel
  have hpos : 0 < swooping.period := by omega
  obtain ⟨-, hrow⟩ := slides_add_up swoop 0 [] ⟨0, 0, 0⟩ ⟨37, 1, 0, 0⟩ 0.0 .idle
  obtain ⟨-, -, hticks⟩ := hrow [⟨0, 0, 1, 200⟩, ⟨0, 0, 10, 0xFB⟩] hpos htarget
  obtain ⟨hslid, hfaded, hnext⟩ := hticks 6 (by decide) (List.replicate 13 .idle) (by decide)
  have hlast := (hnext (by decide) .idle).2
  -- the track is a name from here on
  unfold swooping at *
  dsimp only [List.foldl_nil] at hslid hfaded hlast ⊢
  clear hrow hticks hnext
  generalize List.foldl command _ _ = tr at *
  rw [hperiod, hslide] at hslid
  rw [hfaded, hvolume, hfade, if_neg (by decide)] at hlast
  rw [hvolume, hfade] at hfaded
  exact ⟨hpos, htarget, by decide, by decide, hslid, hfaded, by decide, hlast⟩

end Track

end Chiptune
