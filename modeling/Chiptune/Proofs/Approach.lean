import Mathlib
import Chiptune.Proofs.Glides
import Chiptune.Proofs.Registers
import Chiptune.Proofs.Steps

/-!
# Approaches settle

One effect brings its waveform nearer to another, every byte of the window by one in each step. No
byte is farther than 255 from its goal, so after as many steps the two agree. An effect that has arrived
goes on making steps, but no longer tells of a change, and the bytes are not loaded anew.

* `Shaper.level_stepped_approach`: **where a byte is after some steps.**
* `Shaper.changes_iff_differs`, `Shaper.changes_iff_moves`: a change is told as long as there is one.
* `Track.IsSettled.cued`: nothing but a note wakes a track that has settled.
* `Track.approach_settles`: all of this for any number of ticks.
-/

namespace Chiptune

/-- What is left of a way is made shorter by one, if anything is left. -/
theorem Period.limit_add_sign (k : ℕ) (d : ℤ) :
    limit (-k) k d + (d - limit (-k) k d).sign = limit (-(k + 1 : ℕ)) (k + 1 : ℕ) d := by
  unfold limit
  by_cases habove : (k : ℤ) < d
  · rw [Int.sign_eq_one_of_pos (by omega)]
    omega
  by_cases hbelow : d < -k
  · rw [Int.sign_eq_neg_one_of_neg (by omega)]
    omega
  · have hleft : d - max (-k : ℤ) (min k d) = 0 := by omega
    rw [hleft, Int.sign_zero]
    omega

/-- Only a byte that has arrived stays. -/
theorem towards_eq_self_iff {b target : UInt8} : towards b target = b ↔ b = target := by
  rw [← toInt8_toInt_inj, Shaper.level_towards, add_eq_left, Int.sign_eq_zero_iff_zero, sub_eq_zero,
    toInt8_toInt_inj, eq_comm]

namespace Shaper

variable {s : Shaper} {waves : Array Wave} {i k : ℕ}

/-! ## Steps -/

theorem place_step_approach (h : s.effect = .approach) (hi : i < s.window.size) :
    (s.step waves).place i =
      towards (s.place i) ((s.otherWave waves).byte (s.window.first + i)) := by
  have hstep : s.step waves =
      s.rewritten fun v j => towards (v.byte j) ((s.otherWave waves).byte j) := by
    simp only [step, h]
  rw [hstep]
  exact place_rewritten_own (fun b j => towards b ((s.otherWave waves).byte j)) hi

/-- **Where a byte is after some steps**: as many nearer to its goal, but not past it. -/
theorem level_stepped_approach (h : s.effect = .approach) (waves : Array Wave) (k : ℕ)
    (hi : i < s.window.size) :
    ((s.stepped waves k).place i).toInt8.toInt = (s.place i).toInt8.toInt +
      Period.limit (-k) k ((s.otherWave waves).level (s.window.first + i) -
        (s.place i).toInt8.toInt) := by
  induction k with
  | zero =>
    have hnone : Period.limit (-(0 : ℕ)) (0 : ℕ) ((s.otherWave waves).level (s.window.first + i) -
        (s.place i).toInt8.toInt) = 0 := by
      unfold Period.limit
      omega
    rw [hnone, add_zero]
    rfl
  | succ k ih =>
    have heffect : (s.stepped waves k).effect = .approach := (effect_stepped waves s k).trans h
    have hwindow := window_stepped waves s k
    rw [stepped, place_step_approach heffect (hwindow ▸ hi), hwindow, otherWave_stepped,
      level_towards, ih, ← Period.limit_add_sign, add_assoc]
    congr 3
    unfold Wave.level
    omega

/-! ## Changes -/

/-- A change is told as long as a byte of the window is not the other wave's. -/
theorem changes_iff_differs (h : s.effect = .approach) : s.changes waves = true ↔
    ∃ i < s.window.size, s.place i ≠ (s.otherWave waves).byte (s.window.first + i) := by
  simp only [changes, h, List.any_eq_true, List.mem_range, Bool.and_eq_true, bne_iff_ne,
    Window.contains_iff_size]
  constructor
  · rintro ⟨j, -, ⟨hfirst, hlast⟩, hdiffers⟩
    refine ⟨j - s.window.first, by omega, ?_⟩
    rw [place, Nat.add_sub_cancel' hfirst]
    exact hdiffers
  · rintro ⟨i, hi, hdiffers⟩
    exact ⟨s.window.first + i, Window.first_add_lt hi, by omega, hdiffers⟩

/-- It is told when the wave changes, and only then. -/
theorem changes_iff_moves (h : s.effect = .approach) : s.changes waves = true ↔
    (s.step waves).wave ≠ s.wave := by
  constructor
  · intro hchanges hsame
    obtain ⟨i, hi, hdiffers⟩ := (changes_iff_differs h).1 hchanges
    have hstays : (s.step waves).place i = s.place i := by
      rw [place, window_step, hsame, place]
    rw [place_step_approach h hi] at hstays
    exact hdiffers (towards_eq_self_iff.1 hstays)
  · intro hmoves
    by_contra hsilent
    exact hmoves (wave_step_of_unchanged (Bool.eq_false_iff.2 hsilent))

theorem changed_iff_moves (h : s.effect = .approach) : s.changed waves = true ↔
    (s.advance waves).wave ≠ s.wave := by
  rw [changed, Bool.and_eq_true, changes_iff_moves h, advance_eq]
  by_cases hdue : s.isDue = true
  · rw [if_pos hdue]
    exact and_iff_right hdue
  · rw [if_neg hdue]
    exact iff_of_false (fun hboth => hdue hboth.1) fun hmoves => hmoves rfl

/-! ## Rest -/

/-- A shaper that has brought its window to the other wave. -/
structure Settled (waves : Array Wave) (s : Shaper) : Prop where
  effect : s.effect = .approach
  arrived : ∀ i < s.window.size, s.place i = (s.otherWave waves).byte (s.window.first + i)

/-- **No byte is farther away than 255.** -/
theorem settled_stepped (h : s.effect = .approach) (waves : Array Wave) (hk : 255 ≤ k) :
    (s.stepped waves k).Settled waves := by
  refine ⟨(effect_stepped waves s k).trans h, ?_⟩
  rw [window_stepped, otherWave_stepped]
  intro i hi
  have hlevel := level_stepped_approach h waves k hi
  have hgoal := (s.otherWave waves).level_bounds (s.window.first + i)
  have hplace := s.wave.level_bounds (s.window.first + i)
  rw [← toInt8_toInt_inj]
  unfold Period.limit at hlevel
  unfold place Wave.level at *
  omega

theorem Settled.silent (h : s.Settled waves) : s.changed waves = false := by
  have hsame : s.changes waves = false := by
    rw [Bool.eq_false_iff]
    intro hchanges
    obtain ⟨i, hi, hdiffers⟩ := (changes_iff_differs h.effect).1 hchanges
    exact hdiffers (h.arrived i hi)
  rw [changed, hsame, Bool.and_false]

theorem Settled.step (h : s.Settled waves) : (s.step waves).Settled waves := by
  refine ⟨(effect_stepped waves s 1).trans h.effect, ?_⟩
  have hother : (s.step waves).otherWave waves = s.otherWave waves := otherWave_stepped waves s 1
  rw [window_step, hother]
  intro i hi
  rw [place_step_approach h.effect hi, h.arrived i hi, towards_self]

theorem Settled.advance (h : s.Settled waves) : (s.advance waves).Settled waves := by
  rw [advance_eq]
  split
  · exact ⟨h.step.effect, h.step.arrived⟩
  · exact ⟨h.effect, h.arrived⟩

theorem Settled.after (h : s.Settled waves) (m : ℕ) : (s.after waves m).Settled waves := by
  induction m with
  | zero => exact h
  | succ m ih => exact ih.advance

end Shaper

namespace Track

variable {score : Score} {tr : Track}

/-- A track that plays a waveform which its effect has brought to its goal. -/
def IsSettled (score : Score) (tr : Track) : Prop :=
  ∃ length s, tr.source = .synth length s ∧ s.Settled score.waves

theorem IsSettled.of_source {tr' : Track} (h : tr.IsSettled score) (hsource : tr'.source = tr.source) :
    tr'.IsSettled score := by
  unfold IsSettled
  rw [hsource]
  exact h

/-- A tick of a track that has settled loads nothing anew. -/
theorem IsSettled.ticked (h : tr.IsSettled score) (speed : ℕ) (ch : Channel) :
    (tr.tick score speed ch).1.IsSettled score ∧ (tr.tick score speed ch).1.epoch = tr.epoch := by
  by_cases hplays : tr.period = 0
  · rw [tick_of_silent speed ch hplays]
    exact ⟨h, rfl⟩
  obtain ⟨length, s, hsource, hsettled⟩ := h
  obtain ⟨hdue, hepoch⟩ := source_due score speed tr
  have hreshaped : (tr.counted.reshaped score).source = .synth length (s.advance score.waves) ∧
      (tr.counted.reshaped score).epoch = tr.epoch := by
    have hcounted : tr.counted.source = .synth length s := hsource
    unfold reshaped
    rw [hcounted]
    refine ⟨rfl, ?_⟩
    change (if s.changed score.waves then tr.epoch + 1 else tr.epoch) = tr.epoch
    rw [hsettled.silent]
    rfl
  rw [tick_of_playing speed ch hplays]
  exact ⟨⟨length, s.advance score.waves, hdue.trans hreshaped.1, hsettled.advance⟩,
    hepoch.trans hreshaped.2⟩

/-- **Nothing but a note wakes a track that has settled.** -/
theorem IsSettled.cued (h : tr.IsSettled score) (c : Cue)
    (hquiet : ∀ part note t ch, c = .play part note t ch → note.value = 0) :
    (tr.cued score c).IsSettled score ∧ (tr.cued score c).epoch = tr.epoch := by
  cases c with
  | play part note t ch =>
    have hrow : (tr.play score part note t ch).1 = tr.newRow := by
      unfold Track.play Track.playBy
      rw [if_pos (hquiet part note t ch rfl)]
    have hcued : tr.cued score (.play part note t ch) = tr.newRow := hrow
    rw [hcued]
    exact ⟨h.of_source rfl, rfl⟩
  | command note =>
    obtain ⟨hsource, hepoch⟩ := source_command tr note
    exact ⟨h.of_source hsource, hepoch⟩
  | tick speed ch => exact h.ticked speed ch

theorem IsSettled.foldl_cued (h : tr.IsSettled score) {cues : List Cue}
    (hquiet : ∀ part note t ch, Cue.play part note t ch ∈ cues → note.value = 0) :
    (cues.foldl (Track.cued score) tr).IsSettled score ∧
      (cues.foldl (Track.cued score) tr).epoch = tr.epoch := by
  induction cues generalizing tr with
  | nil => exact ⟨h, rfl⟩
  | cons c cues ih =>
    obtain ⟨hnext, hepoch⟩ := h.cued c fun part note t ch hc =>
      hquiet part note t ch (hc ▸ List.mem_cons_self)
    obtain ⟨hrest, hepoch'⟩ := ih hnext fun part note t ch hc =>
      hquiet part note t ch (List.mem_cons_of_mem _ hc)
    exact ⟨hrest, hepoch'.trans hepoch⟩

/-- **Approaches settle.** Take an effect that nears another wave, with any window and delay, on any wave,
and let it make any number of ticks. The steps made are the ticks over one more than the delay, rounded
up. Every byte of the window, read as signed, is then as many nearer to its goal as there were
steps, and never past it. The next tick tells a change exactly if a step is due and some byte of the
window is not at its goal, and this is when it changes the wave. After 255 steps the window is the other
wave's, no later tick tells a change, and whatever a track that plays the wave is told, unless it is a
note, its bytes are not loaded anew. -/
theorem approach_settles (score : Score) (r : Reshaping) (h : r.effect = .approach) (wave : Wave)
    (seed : UInt64) (n : ℕ) :
    let w := Window.between r.left.toNat r.right.toNat
    let goal := score.waves[r.amount.toNat]?.getD .silent
    let k := n ⌈/⌉ (r.delay.toNat + 1)
    let s := (Shaper.start r wave seed).after score.waves n
    (∀ i < w.size, s.wave.level (w.first + i) = wave.level (w.first + i) +
      max (-(k : ℤ)) (min (k : ℤ) (goal.level (w.first + i) - wave.level (w.first + i)))) ∧
    (s.changed score.waves = true ↔ r.delay.toNat + 1 ∣ n ∧
      ∃ i < w.size, s.wave.byte (w.first + i) ≠ goal.byte (w.first + i)) ∧
    (s.changed score.waves = true ↔ (s.advance score.waves).wave ≠ s.wave) ∧
    (255 ≤ k → (∀ i < w.size, s.wave.byte (w.first + i) = goal.byte (w.first + i)) ∧
      (∀ m, ((Shaper.start r wave seed).after score.waves (n + m)).changed score.waves = false) ∧
      ∀ (tr : Track) (length : ℕ) (cues : List Cue), tr.source = .synth length s →
        (∀ part note t ch, Cue.play part note t ch ∈ cues → note.value = 0) →
        (cues.foldl (cued score) tr).epoch = tr.epoch) := by
  intro w goal k s
  let s₀ := Shaper.start r wave seed
  have hs : s = (s₀.stepped score.waves k).resting (r.steps n * (r.delay.toNat + 1) - n) := by
    have hsteps : r.steps n = k := r.steps_eq_ceilDiv n
    have hafter := Shaper.after_start r wave seed score.waves n
    rwa [hsteps] at hafter ⊢
  have heffect : s.effect = .approach := by
    rw [hs]
    exact (Shaper.effect_stepped score.waves s₀ k).trans h
  have hwindow : s.window = w := by
    rw [hs]
    exact Shaper.window_stepped score.waves s₀ k
  have hgoal : s.otherWave score.waves = goal := by
    rw [hs]
    exact Shaper.otherWave_stepped score.waves s₀ k
  have hplace : ∀ i, s.wave.byte (w.first + i) = s.place i := by
    intro i
    rw [Shaper.place, hwindow]
  refine ⟨?_, ?_, Shaper.changed_iff_moves heffect, ?_⟩
  · intro i hi
    unfold Wave.level
    rw [hplace, hs]
    exact Shaper.level_stepped_approach h score.waves k hi
  · rw [Shaper.changed, Bool.and_eq_true, Shaper.isDue_after, Shaper.changes_iff_differs heffect,
      hwindow, hgoal]
    simp only [hplace]
  · intro hk
    have hsettled : s.Settled score.waves := by
      have hstepped : (s₀.stepped score.waves k).Settled score.waves :=
        Shaper.settled_stepped h score.waves hk
      rw [hs]
      exact ⟨hstepped.effect, hstepped.arrived⟩
    refine ⟨?_, ?_, ?_⟩
    · intro i hi
      rw [hplace, ← hgoal, ← hwindow]
      exact hsettled.arrived i (hwindow ▸ hi)
    · intro m
      rw [Shaper.after_add]
      exact (hsettled.after m).silent
    · intro tr length cues hsource hquiet
      have hrests : tr.IsSettled score := ⟨length, s, hsource, hsettled⟩
      exact (hrests.foldl_cued hquiet).2

/-- Two waveforms, of which one fades into the other. -/
def fade : Score :=
  { waves := #[.silent, .tabulate fun _ => 3] }

/-- How it does so, between two positions. -/
def fading : Reshaping :=
  ⟨.approach, 1, 5, 2, 0⟩

theorem fade_settles :
    let s := Shaper.start fading .silent 0
    (s.after fade.waves 2).wave.level 4 = 2 ∧ (s.after fade.waves 2).changed fade.waves = true ∧
      255 ≤ 255 ⌈/⌉ 1 ∧ (s.after fade.waves 255).wave.byte 4 = 3 ∧
      ∀ tr : Track, tr.source = .synth 16 (s.after fade.waves 255) →
        (tr.tick fade 6 .idle).1.epoch = tr.epoch := by
  obtain ⟨hlevel, hchanged, -, -⟩ := approach_settles fade fading rfl .silent 0 2
  obtain ⟨-, -, -, hsettles⟩ := approach_settles fade fading rfl .silent 0 255
  have hmany : 255 ≤ 255 ⌈/⌉ 1 := by decide
  obtain ⟨harrived, -, hquiet⟩ := hsettles hmany
  refine ⟨(hlevel 2 (by decide)).trans (by decide +kernel), hchanged.2 ⟨by decide, 2, by decide, ?_⟩,
    hmany, (harrived 2 (by decide)).trans (by decide +kernel), ?_⟩
  · decide +kernel
  · intro tr hsource
    refine hquiet tr 16 [.tick 6 .idle] hsource ?_
    intro part note t ch hplay
    cases hplay with
    | tail _ hnone => cases hnone

end Track

end Chiptune
