import Mathlib
import Chiptune.Proofs.Slides
import Chiptune.Proofs.Steps

/-!
# Sweeps stay in their register

A sweep moves the period by its amount for a limited number of steps, and rests. Amount and limit are
any 16-bit words, so the offset comes close to the ends of a 32-bit register, but not so close that
period, chord, swing and contour together could lead past them.

* `Shaper.wave_run_of_sweep`: a sweep leaves the waveform alone.
* `Reshaping.sweep_total`: its offset in closed form, with bounds.
* `Track.sweep_fits`: the offset, the sum and what a tick makes of it, for every track in use.
-/

namespace Chiptune

open Word (Fits signed32)

/-! ## Offsets -/

namespace Reshaping

variable {r : Reshaping}

theorem isTame_of_sweep (h : r.effect = .sweep) (n : ℕ) : r.IsTame n := by
  intro hdrift
  rw [h] at hdrift
  cases hdrift

/-- **The offset of a sweep in closed form.** No sweep comes nearer than 32768 to the ends of its
register. -/
theorem sweep_total (h : r.effect = .sweep) (n : ℕ) :
    r.total n = (min (n ⌈/⌉ (r.delay.toNat + 1)) r.right.toNat : ℕ) * r.amount.toInt16.toInt ∧
      -2147450880 ≤ r.total n ∧ r.total n ≤ 2147450880 := by
  refine ⟨?_, tame_total (isTame_of_sweep h n)⟩
  unfold total moves unit
  rw [h, steps_eq_ceilDiv]

end Reshaping

namespace Shaper

variable {r : Reshaping}

theorem effect_run_start (r : Reshaping) (wave : Wave) (seed : UInt64) (tables : List (Array Wave)) :
    ((start r wave seed).run tables).effect = r.effect :=
  ((paced_start r wave seed).run tables).effect

/-- A sweep never changes the waveform, and says so. -/
theorem wave_run_of_sweep (h : r.effect = .sweep) (wave : Wave) (seed : UInt64)
    (tables : List (Array Wave)) : ((start r wave seed).run tables).wave = wave := by
  induction tables using List.reverseRecOn with
  | nil => rfl
  | append_singleton tables waves ih =>
    have hsilent : ((start r wave seed).run tables).changed waves = false := by
      rw [changed, changes, effect_run_start, h]
      exact Bool.and_false _
    rw [run_concat, wave_advance_of_unchanged hsilent, ih]

theorem offset_run_of_sweep (h : r.effect = .sweep) (wave : Wave) (seed : UInt64)
    (tables : List (Array Wave)) : ((start r wave seed).run tables).offset = r.total tables.length :=
  offset_run_of_tame (Reshaping.isTame_of_sweep h _) wave seed

end Shaper

/-! ## Sums -/

namespace Period

/-- A sum that fits is clamped as it is. -/
theorem clamp_signed32 {n : ℤ} (h : Fits 32 n) : (clamp (signed32 n) : ℤ) = max 28 (min 13696 n) := by
  have hlo : (0 : ℤ) ≤ max 28 (min 13696 n) := by omega
  rw [Word.signed32_eq_iff.2 h]
  exact Int.toNat_of_nonneg hlo

end Period

namespace Track

/-- However a track was used, it shapes an instrument of the score if it shapes anything. -/
theorem shaped_foldl_cued (score : Score) (index : ℕ) (cues : List Cue) :
    ∃ n, (cues.foldl (cued score) (idle index)).Shaped score n := by
  refine List.foldlRecOn (motive := fun tr => ∃ n, tr.Shaped score n) cues (cued score)
    ⟨0, shaped_idle score index⟩ ?_
  rintro tr ⟨n, h⟩ c -
  cases c with
  | play part note t ch => exact ⟨n, h.played part note t ch⟩
  | command note => exact ⟨n, h.commanded note⟩
  | tick speed ch => exact ⟨n + 1, h.ticked speed ch⟩

/-- **Sweeps stay in their register.** Take a sweep with any amount, limit and delay, on any wave. After
any ticks its offset is the amount as often as there were steps, up to the limit, and the wave is what it
was at the start.

To this offset add the period of any track in use, the way between any two notes however they are tuned,
a swing of up to 4096 and any byte of a contour: no sum on the way leaves 32 bits. So when a track
in use ticks that sweeps the waveform of an instrument, and its swing is no larger, its channel is
written the exact sum, clamped to the periods that can be played. -/
theorem sweep_fits (score : Score) (index : ℕ) (cues : List Cue) :
    let tr := cues.foldl (cued score) (idle index)
    (∀ (r : Reshaping) (wave : Wave) (seed : UInt64) (tables : List (Array Wave)), r.effect = .sweep →
      let s := (Shaper.start r wave seed).run tables
      let n := tables.length
      s.offset = (min (n ⌈/⌉ (r.delay.toNat + 1)) r.right.toNat : ℕ) * r.amount.toInt16.toInt ∧
      s.wave = wave ∧
      ∀ (note other fine swing : ℤ) (table : Wave) (i : ℕ), |swing| ≤ 4096 →
        let chord := (Period.tune (Period.ofNote note) fine : ℤ) -
          (Period.tune (Period.ofNote other) fine : ℤ)
        let sum := tr.period + chord + swing + table.level i + s.offset
        Fits 32 (tr.period + chord) ∧ Fits 32 (tr.period + chord + swing) ∧
        Fits 32 (tr.period + chord + swing + table.level i) ∧ Fits 32 sum ∧
        Period.clamp (signed32 sum) = max 28 (min 13696 sum)) ∧
    ∀ (speed : ℕ) (ch : Channel), let due := tr.due score speed
      ∀ length s, tr.period ≠ 0 → due.source = .synth length s → s.effect = .sweep →
        |due.swing.offset| ≤ 4096 →
        (∃ inst ∈ score.instruments, ∃ wave seed n, inst.reshaping.effect = .sweep ∧
          s = (Shaper.start inst.reshaping wave seed).run (List.replicate n score.waves)) ∧
        let contour := (due.pitchContour.map (·.offset score.pitchWaves)).getD 0
        let sum := due.period + due.chordOffset + due.swing.offset + contour + s.offset
        Fits 32 (due.period + due.chordOffset) ∧
        Fits 32 (due.period + due.chordOffset + due.swing.offset) ∧
        Fits 32 (due.period + due.chordOffset + due.swing.offset + contour) ∧ Fits 32 sum ∧
        (tr.tick score speed ch).2.period = max 28 (min 13696 sum) := by
  intro tr
  have hrange : tr.InRange := inRange_foldl_cued score index cues
  refine ⟨?_, ?_⟩
  · intro r wave seed tables hr s n
    obtain ⟨htotal, hoffset⟩ := Reshaping.sweep_total hr n
    have hs : s.offset = r.total n := Shaper.offset_run_of_sweep hr wave seed tables
    rw [← hs] at htotal hoffset
    refine ⟨htotal, Shaper.wave_run_of_sweep hr wave seed tables, ?_⟩
    intro note other fine swing table i hswing chord sum
    have hnote := tune_le note fine
    have hother := tune_le other fine
    have hchord : -13696 ≤ chord ∧ chord ≤ 13696 := by omega
    obtain ⟨hfirst, hsecond, hthird, hall⟩ := Period.fits_sum hrange.period_bounds hchord
      (abs_le.1 hswing) (table.level_bounds i)
    have hsum := hall _ hoffset
    exact ⟨hfirst, hsecond, hthird, hsum, Period.clamp_signed32 hsum⟩
  · intro speed ch due length s hplays hsource heffect hswing
    obtain ⟨m, hshaped⟩ := shaped_foldl_cued score index cues
    obtain ⟨inst, wave, seed, n, hinst, -, hs⟩ := hshaped.due speed length s hsource
    have hr : inst.reshaping.effect = .sweep := by
      rw [← heffect, hs, Shaper.effect_run_start]
    refine ⟨⟨inst, hinst, wave, seed, n, hr, hs⟩, ?_⟩
    intro contour sum
    have hoffset : -2147450880 ≤ s.offset ∧ s.offset ≤ 2147450880 := by
      rw [hs, Shaper.offset_run_of_sweep hr]
      exact (Reshaping.sweep_total hr _).2
    obtain ⟨hfirst, hsecond, hthird, hall⟩ := Period.fits_sum
      (hrange.due score speed hplays).period_bounds due.chordOffset_bounds (abs_le.1 hswing)
      (due.contour_bounds score.pitchWaves)
    have hsum : Fits 32 sum := hall _ hoffset
    refine ⟨hfirst, hsecond, hthird, hsum, ?_⟩
    have heffect' : due.effectOffset = s.offset := by rw [effectOffset, hsource]
    rw [tick_of_playing speed ch hplays]
    change (Period.clamp (signed32 (due.modulation score)) : ℤ) = _
    rw [modulation_eq, heffect']
    exact Period.clamp_signed32 hsum

/-- A waveform that is played higher in three steps of 32, one in every other tick. -/
def soar : Score :=
  { instruments := #[{ (default : Instrument) with
      synth := 1, length := 8, volume := 64, vibrato := ⟨255, 0, 0⟩
      reshaping := ⟨.sweep, 0xFFE0, 0, 3, 1⟩ }] }

/-- A note of it, and six ticks. -/
def soaring : List Cue :=
  .play ⟨0, 0, 0⟩ ⟨37, 1, 0, 0⟩ 0.0 .idle :: List.replicate 6 (.tick 6 .idle)

theorem soar_fits :
    let far := (Shaper.start ⟨.sweep, 0x8000, 0, 0xFFFF, 0⟩ .silent 0).run (List.replicate 70000 #[])
    let tr := soaring.foldl (cued soar) (idle 0)
    (far.offset = -2147450880 ∧ |(-4096 : ℤ)| ≤ 4096 ∧
      Fits 32 (tr.period + ((Period.tune (Period.ofNote 108) 0 : ℤ) -
        (Period.tune (Period.ofNote 1) 0 : ℤ)) + -4096 + Wave.silent.level 0 + far.offset)) ∧
    tr.period ≠ 0 ∧ |(tr.due soar 6).swing.offset| ≤ 4096 ∧
      ∃ s, (tr.due soar 6).source = .synth 16 s ∧ s.effect = .sweep ∧ s.offset = -96 ∧
        ((tr.tick soar 6 .idle).2.period : ℤ) = 1616 := by
  obtain ⟨hsum, htick⟩ := sweep_fits soar 0 soaring
  have hperiod : (soaring.foldl (cued soar) (idle 0)).period = 1712 := by decide +kernel
  have hsource : ((soaring.foldl (cued soar) (idle 0)).due soar 6).source = .synth 16
      ((Shaper.start ⟨.sweep, 0xFFE0, 0, 3, 1⟩ .silent 1).run (List.replicate 7 #[])) := by
    decide +kernel
  have hswing : ((soaring.foldl (cued soar) (idle 0)).due soar 6).swing.offset = 0 := by
    decide +kernel
  have hunmoved : ((soaring.foldl (cued soar) (idle 0)).due soar 6).unshaped soar = 1712 := by
    decide +kernel
  have hreach : |(-4096 : ℤ)| ≤ 4096 := by decide
  obtain ⟨hfar, -, hfits⟩ := hsum ⟨.sweep, 0x8000, 0, 0xFFFF, 0⟩ .silent 0
    (List.replicate 70000 #[]) rfl
  obtain ⟨-, -, -, hfits, -⟩ := hfits 108 1 0 (-4096) .silent 0 hreach
  rw [List.length_replicate] at hfar
  dsimp only at htick ⊢
  generalize soaring.foldl (cued soar) (idle 0) = tr at *
  have hplays : tr.period ≠ 0 := by
    rw [hperiod]
    decide
  have hstill : |(tr.due soar 6).swing.offset| ≤ 4096 := by
    rw [hswing]
    decide
  obtain ⟨-, -, -, -, -, hwritten⟩ := htick 6 .idle _ _ hplays hsource rfl hstill
  refine ⟨⟨hfar.trans (by decide +kernel), hreach, hfits⟩, hplays, hstill, _, hsource, rfl,
    by decide +kernel, hwritten.trans ?_⟩
  change max 28 (min 13696 ((tr.due soar 6).unshaped soar + _)) = 1616
  rw [hunmoved]
  decide +kernel

end Track

end Chiptune
