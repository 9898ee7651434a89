import Mathlib
import Chiptune.Proofs.Steps

/-!
# Smoothing narrows a signal

Two effects replace bytes of their window by means of neighbours and drop the fractions. One writes over
the wave that it reads, but never reads what it has written; the other reads from a copy. So a step
makes of the levels what exact arithmetic makes of them. A mean lies between the numbers that it is
made from, whichever way its fraction is dropped, and so no byte wraps and the range of the window never
grows.

* `Effect.smoothed`: what a step makes of a signal, in whole numbers of any size.
* `Window.Spans.smoothed`: **a range that holds the window before a step holds it after.**
* `Shaper.level_stepped`: the levels of a wave are the exact ones after any number of steps.
* `Shaper.smoothing_narrows`: all of this for any number of ticks.
-/

namespace Chiptune

open Word (Fits)

/-! ## Means -/

/-- A quotient without its fraction stays between two whole numbers. -/
theorem tdiv_mem_range {lo hi n d : ℤ} (hd : 0 < d) (hlo : d * lo ≤ n) (hhi : n ≤ d * hi) :
    lo ≤ n.tdiv d ∧ n.tdiv d ≤ hi := by
  have hbelow := Int.tdiv_le_tdiv hd hlo
  have habove := Int.tdiv_le_tdiv hd hhi
  rw [Int.mul_tdiv_cancel_left _ hd.ne'] at hbelow habove
  exact ⟨hbelow, habove⟩

/-- A mean of two. -/
theorem mean_mem_range {lo hi a b : ℤ} (ha : lo ≤ a ∧ a ≤ hi) (hb : lo ≤ b ∧ b ≤ hi) :
    lo ≤ (a + b).tdiv 2 ∧ (a + b).tdiv 2 ≤ hi := by
  apply tdiv_mem_range <;> omega

/-- A mean of three, of which the middle one counts twice. -/
theorem wideMean_mem_range {lo hi a b c : ℤ} (ha : lo ≤ a ∧ a ≤ hi) (hb : lo ≤ b ∧ b ≤ hi)
    (hc : lo ≤ c ∧ c ≤ hi) : lo ≤ (a + 2 * b + c).tdiv 4 ∧ (a + 2 * b + c).tdiv 4 ≤ hi := by
  apply tdiv_mem_range <;> omega

theorem level_ofLevel {n : ℤ} (h : Fits 8 n) : (ofLevel n).toInt8.toInt = n := by
  obtain ⟨hlo, hhi⟩ := h
  unfold ofLevel
  rw [Int8.toInt8_toUInt8]
  exact Int8.toInt_ofInt_of_le hlo hhi

namespace Wave

variable {w : Wave}

theorem fits_mean (w : Wave) (i j : ℕ) : Fits 8 ((w.level i + w.level j).tdiv 2) := by
  have hmean := mean_mem_range (w.level_bounds i) (w.level_bounds j)
  exact ⟨hmean.1, Int.lt_of_le_sub_one hmean.2⟩

theorem fits_wideMean (w : Wave) (i j k : ℕ) :
    Fits 8 ((w.level i + 2 * w.level j + w.level k).tdiv 4) := by
  have hmean := wideMean_mem_range (w.level_bounds i) (w.level_bounds j) (w.level_bounds k)
  exact ⟨hmean.1, Int.lt_of_le_sub_one hmean.2⟩

/-- The levels of a stretch rewritten in place, by a rule that finds a level from bytes that are not yet
rewritten and that never leaves the range of a byte. -/
theorem level_rewritten {g : Wave → ℕ → ℤ} {first count : ℕ}
    (hg : ∀ v i, (∀ k, i ≤ k → v.byte k = w.byte k) → g v i = g w i) (hfits : ∀ i, Fits 8 (g w i))
    (hend : first + count ≤ 128) (j : ℕ) :
    (w.rewritten first count fun v i => ofLevel (g v i)).level j =
      if first ≤ j ∧ j < first + count then g w j else w.level j := by
  by_cases hj : j < 128
  · have hbyte : (w.rewritten first count fun v i => ofLevel (g v i)).byte j =
        if first ≤ j ∧ j < first + count then ofLevel (g w j) else w.byte j :=
      byte_rewritten (fun v i hv => congrArg ofLevel (hg v i hv)) hj
    rw [level, hbyte]
    split
    · exact level_ofLevel (hfits j)
    · rfl
  · rw [if_neg (by omega), level, level, byte_of_ge _ (by omega), byte_of_ge _ (by omega)]

end Wave

/-! ## Signals -/

namespace Window

variable {w : Window} {v : Wave} {lo hi : ℤ} {x : ℕ → ℤ}

/-- The mean of a level and the next; the last one of the window has no next one in it and stays. -/
def averaged (w : Window) (x : ℕ → ℤ) (i : ℕ) : ℤ :=
  if w.first ≤ i ∧ i < w.last then (x i + x (i + 1)).tdiv 2 else x i

/-- The mean of a level, which counts twice, and both its neighbours; the first and the last one of the
window stay. -/
def averagedWide (w : Window) (x : ℕ → ℤ) (i : ℕ) : ℤ :=
  if w.first < i ∧ i < w.last then (x (i - 1) + 2 * x i + x (i + 1)).tdiv 4 else x i

/-- A signal that keeps to a range in the window. -/
def Spans (w : Window) (lo hi : ℤ) (x : ℕ → ℤ) : Prop :=
  ∀ i, w.first ≤ i → i ≤ w.last → lo ≤ x i ∧ x i ≤ hi

/-- The lowest level of the window. -/
def low (w : Window) (v : Wave) : ℤ :=
  (Finset.Icc w.first w.last).inf' (Finset.nonempty_Icc.2 w.first_le_last) v.level

/-- The highest level of the window. -/
def high (w : Window) (v : Wave) : ℤ :=
  (Finset.Icc w.first w.last).sup' (Finset.nonempty_Icc.2 w.first_le_last) v.level

theorem spans_iff : w.Spans lo hi v.level ↔ lo ≤ w.low v ∧ w.high v ≤ hi := by
  unfold Spans low high
  rw [Finset.le_inf'_iff, Finset.sup'_le_iff]
  simp only [Finset.mem_Icc]
  constructor
  · intro h
    constructor
    · rintro i ⟨hfirst, hlast⟩
      exact (h i hfirst hlast).1
    · rintro i ⟨hfirst, hlast⟩
      exact (h i hfirst hlast).2
  · rintro ⟨hlow, hhigh⟩ i hfirst hlast
    exact ⟨hlow i ⟨hfirst, hlast⟩, hhigh i ⟨hfirst, hlast⟩⟩

theorem spans_low_high (w : Window) (v : Wave) : w.Spans (w.low v) (w.high v) v.level :=
  spans_iff.2 ⟨le_rfl, le_rfl⟩

theorem Spans.averaged (h : w.Spans lo hi x) : w.Spans lo hi (w.averaged x) := by
  intro i hfirst hlast
  unfold Window.averaged
  split
  · exact mean_mem_range (h i hfirst hlast) (h (i + 1) (by omega) (by omega))
  · exact h i hfirst hlast

theorem Spans.averagedWide (h : w.Spans lo hi x) : w.Spans lo hi (w.averagedWide x) := by
  intro i hfirst hlast
  unfold Window.averagedWide
  split
  · exact wideMean_mem_range (h (i - 1) (by omega) (by omega)) (h i hfirst hlast)
      (h (i + 1) (by omega) (by omega))
  · exact h i hfirst hlast

end Window

namespace Effect

/-- Whether an effect replaces bytes by means of neighbours. -/
def smooths : Effect → Bool
  | .smooth | .smoothWide => true
  | _ => false

theorem smooths_iff {e : Effect} : e.smooths = true ↔ e = .smooth ∨ e = .smoothWide := by
  cases e <;> simp [smooths]

/-- What an effect that smooths makes of a signal in a step. -/
def smoothed (e : Effect) (w : Window) (x : ℕ → ℤ) : ℕ → ℤ :=
  match e with
  | .smooth => w.averaged x
  | .smoothWide => w.averagedWide x
  | _ => x

end Effect

/-- **A range that holds the window before a step holds it after.** -/
theorem Window.Spans.smoothed {w : Window} {lo hi : ℤ} {x : ℕ → ℤ} (h : w.Spans lo hi x)
    (e : Effect) : w.Spans lo hi (e.smoothed w x) := by
  cases e with
  | smooth => exact h.averaged
  | smoothWide => exact h.averagedWide
  | _ => exact h

namespace Shaper

variable {s : Shaper} {waves : Array Wave}

/-! ## Steps -/

theorem level_step_smooth (h : s.effect = .smooth) (waves : Array Wave) :
    (s.step waves).wave.level = s.window.averaged s.wave.level := by
  have hstep : s.step waves = s.stretch s.window.first (s.window.size - 1) fun v i =>
      ofLevel ((v.level i + v.level (i + 1)).tdiv 2) := by
    simp only [step, h]
  -- the next byte is rewritten only after it has been read
  have hahead : ∀ (v : Wave) (i : ℕ), (∀ k, i ≤ k → v.byte k = s.wave.byte k) →
      (v.level i + v.level (i + 1)).tdiv 2 = (s.wave.level i + s.wave.level (i + 1)).tdiv 2 := by
    intro v i hv
    simp only [Wave.level, hv i le_rfl, hv (i + 1) (Nat.le_succ i)]
  have hle := s.window.first_le_last
  have hend := s.window.last_lt
  funext j
  rw [hstep]
  refine (Wave.level_rewritten hahead (fun i => s.wave.fits_mean i (i + 1)) ?_ j).trans ?_
  · unfold Window.size
    omega
  · unfold Window.averaged Window.size
    congr 1
    rw [eq_iff_iff]
    omega

theorem level_step_smoothWide (h : s.effect = .smoothWide) (waves : Array Wave) :
    (s.step waves).wave.level = s.window.averagedWide s.wave.level := by
  have hstep : s.step waves = s.stretch (s.window.first + 1) (s.window.size - 2) fun _ i =>
      ofLevel ((s.wave.level (i - 1) + 2 * s.wave.level i + s.wave.level (i + 1)).tdiv 4) := by
    simp only [step, h]
  have hle := s.window.first_le_last
  have hend := s.window.last_lt
  funext j
  rw [hstep]
  by_cases hone : s.window.size < 2
  · -- a window of one byte has no inner bytes, and it may be the last of the table
    have hcount : s.window.size - 2 = 0 := by omega
    have hstays : s.window.averagedWide s.wave.level j = s.wave.level j := by
      unfold Window.size at hone
      exact if_neg (by omega)
    rw [hcount, hstays]
    rfl
  · unfold Window.size at hone
    refine (Wave.level_rewritten (fun _ _ _ => rfl)
      (fun i => s.wave.fits_wideMean (i - 1) i (i + 1)) ?_ j).trans ?_
    · unfold Window.size
      omega
    · unfold Window.averagedWide Window.size
      congr 1
      rw [eq_iff_iff]
      omega

/-- **A step makes of the levels what exact arithmetic makes of them.** -/
theorem level_step (h : s.effect.smooths = true) (waves : Array Wave) :
    (s.step waves).wave.level = s.effect.smoothed s.window s.wave.level := by
  rcases Effect.smooths_iff.1 h with he | he
  · rw [he]
    exact level_step_smooth he waves
  · rw [he]
    exact level_step_smoothWide he waves

theorem level_stepped (h : s.effect.smooths = true) (waves : Array Wave) (k : ℕ) :
    (s.stepped waves k).wave.level = (s.effect.smoothed s.window)^[k] s.wave.level := by
  induction k with
  | zero => rfl
  | succ k ih =>
    have heffect := effect_stepped waves s k
    rw [stepped, level_step (heffect ▸ h), heffect, window_stepped, ih, Function.iterate_succ_apply']

/-! ## Ticks -/

variable {r : Reshaping}

theorem level_after_start (h : r.effect.smooths = true) (wave : Wave) (seed : UInt64)
    (waves : Array Wave) (n : ℕ) : ((start r wave seed).after waves n).wave.level =
      (r.effect.smoothed (.between r.left.toNat r.right.toNat))^[n ⌈/⌉ (r.delay.toNat + 1)]
        wave.level := by
  rw [after_start, r.steps_eq_ceilDiv]
  exact level_stepped h waves _

/-- A tick in which a step is due makes one, and any other leaves the levels as they are. -/
theorem level_after_succ (h : r.effect.smooths = true) (wave : Wave) (seed : UInt64)
    (waves : Array Wave) (n : ℕ) : ((start r wave seed).after waves (n + 1)).wave.level =
      if r.delay.toNat + 1 ∣ n
      then r.effect.smoothed (.between r.left.toNat r.right.toNat)
        ((start r wave seed).after waves n).wave.level
      else ((start r wave seed).after waves n).wave.level := by
  have heffect := (paced_after r wave seed waves n).effect
  rw [after, advance_eq, if_congr (isDue_after r wave seed waves n) rfl rfl, apply_ite Shaper.wave,
    apply_ite Wave.level]
  congr 1
  have hstep := level_step (heffect ▸ h) waves
  rwa [heffect, window_after_start] at hstep

/-- **No tick makes the range of the window wider.** -/
theorem range_after_succ (h : r.effect.smooths = true) (wave : Wave) (seed : UInt64)
    (waves : Array Wave) (n : ℕ) :
    let w := Window.between r.left.toNat r.right.toNat
    let v := fun n => ((start r wave seed).after waves n).wave
    w.low (v n) ≤ w.low (v (n + 1)) ∧ w.high (v (n + 1)) ≤ w.high (v n) := by
  intro w v
  have hspans : w.Spans (w.low (v n)) (w.high (v n)) (v n).level := w.spans_low_high (v n)
  rw [← Window.spans_iff, level_after_succ h]
  split
  · exact hspans.smoothed r.effect
  · exact hspans

/-- A place that no step writes keeps its byte. -/
theorem byte_after_of_unwritten (h : r.effect.smooths = true) {i : ℕ}
    (hi : ∀ x, r.effect.smoothed (.between r.left.toNat r.right.toNat) x i = x i) (wave : Wave)
    (seed : UInt64) (waves : Array Wave) (n : ℕ) :
    ((start r wave seed).after waves n).wave.byte i = wave.byte i := by
  -- to look at the place before a step is to look at it after
  have hsame : Function.Semiconj (fun x : ℕ → ℤ => x i)
      (r.effect.smoothed (.between r.left.toNat r.right.toNat)) id := hi
  have hlevel : ((start r wave seed).after waves n).wave.level i = wave.level i := by
    rw [level_after_start h]
    have hrun := (hsame.iterate_right (n ⌈/⌉ (r.delay.toNat + 1))) wave.level
    rwa [Function.iterate_id] at hrun
  exact toInt8_toInt_inj.1 hlevel

/-- **Smoothing narrows a signal.** Take one of the two effects that smooth, with any window and delay, on
any wave, and let it make any number of ticks. A tick after whole rounds of the delay makes a step. Then
every byte of the window but the last, read as signed, is the mean of itself and the next byte as they
were before the tick, or every byte but the first and the last is that of itself, counted twice, and
both its neighbours. The fraction is dropped and nothing else, as the mean fits a byte. All other bytes
and all other ticks change nothing, so that the wave is what exact arithmetic makes of it in as many
steps, and the ends of the window keep their bytes for good. The lowest byte of the window never falls
and the highest never rises, and no byte leaves the range that the window has at the start. -/
theorem smoothing_narrows (r : Reshaping) (wave : Wave) (seed : UInt64) (waves : Array Wave) :
    let w := Window.between r.left.toNat r.right.toNat
    let v := fun n => ((start r wave seed).after waves n).wave
    (r.effect = .smooth → ∀ n,
      (∀ i, (v (n + 1)).level i =
        if r.delay.toNat + 1 ∣ n ∧ w.first ≤ i ∧ i < w.last
        then ((v n).level i + (v n).level (i + 1)).tdiv 2 else (v n).level i) ∧
      (∀ i, Fits 8 (((v n).level i + (v n).level (i + 1)).tdiv 2)) ∧
      (v n).level = w.averaged^[n ⌈/⌉ (r.delay.toNat + 1)] wave.level ∧
      (v n).byte w.last = wave.byte w.last) ∧
    (r.effect = .smoothWide → ∀ n,
      (∀ i, (v (n + 1)).level i =
        if r.delay.toNat + 1 ∣ n ∧ w.first < i ∧ i < w.last
        then ((v n).level (i - 1) + 2 * (v n).level i + (v n).level (i + 1)).tdiv 4
        else (v n).level i) ∧
      (∀ i, Fits 8 (((v n).level (i - 1) + 2 * (v n).level i + (v n).level (i + 1)).tdiv 4)) ∧
      (v n).level = w.averagedWide^[n ⌈/⌉ (r.delay.toNat + 1)] wave.level ∧
      (v n).byte w.first = wave.byte w.first ∧ (v n).byte w.last = wave.byte w.last) ∧
    (r.effect = .smooth ∨ r.effect = .smoothWide →
      Monotone (fun n => w.low (v n)) ∧ Antitone (fun n => w.high (v n)) ∧
      ∀ n i, w.first ≤ i → i ≤ w.last →
        w.low wave ≤ (v n).level i ∧ (v n).level i ≤ w.high wave) := by
  intro w v
  refine ⟨?_, ?_, ?_⟩
  · intro he n
    have h : r.effect.smooths = true := Effect.smooths_iff.2 (.inl he)
    have hsmoothed : r.effect.smoothed w = w.averaged := by rw [he]; rfl
    refine ⟨fun i => ?_, fun i => (v n).fits_mean i (i + 1), ?_, ?_⟩
    · have htick := congrFun (level_after_succ h wave seed waves n) i
      rw [ite_apply, hsmoothed] at htick
      rw [ite_and]
      exact htick
    · have hrun := level_after_start h wave seed waves n
      rwa [hsmoothed] at hrun
    · apply byte_after_of_unwritten h
      intro x
      rw [hsmoothed]
      exact if_neg fun hin => lt_irrefl _ hin.2
  · intro he n
    have h : r.effect.smooths = true := Effect.smooths_iff.2 (.inr he)
    have hsmoothed : r.effect.smoothed w = w.averagedWide := by rw [he]; rfl
    refine ⟨fun i => ?_, fun i => (v n).fits_wideMean (i - 1) i (i + 1), ?_, ?_, ?_⟩
    · have htick := congrFun (level_after_succ h wave seed waves n) i
      rw [ite_apply, hsmoothed] at htick
      rw [ite_and]
      exact htick
    · have hrun := level_after_start h wave seed waves n
      rwa [hsmoothed] at hrun
    · apply byte_after_of_unwritten h
      intro x
      rw [hsmoothed]
      exact if_neg fun hin => lt_irrefl _ hin.1
    · apply byte_after_of_unwritten h
      intro x
      rw [hsmoothed]
      exact if_neg fun hin => lt_irrefl _ hin.2
  · intro he
    have h : r.effect.smooths = true := Effect.smooths_iff.2 he
    have hlow : Monotone fun n => w.low (v n) :=
      monotone_nat_of_le_succ fun n => (range_after_succ h wave seed waves n).1
    have hhigh : Antitone fun n => w.high (v n) :=
      antitone_nat_of_succ_le fun n => (range_after_succ h wave seed waves n).2
    -- the range at the start is that of the tick 0
    have hstart : v 0 = wave := rfl
    have hspans : ∀ n, w.Spans (w.low (v 0)) (w.high (v 0)) (v n).level := fun n =>
      Window.spans_iff.2 ⟨hlow (Nat.zero_le n), hhigh (Nat.zero_le n)⟩
    rw [hstart] at hspans
    exact ⟨hlow, hhigh, hspans⟩

/-- A wave with a spike in it, and a dent of an odd size. -/
def spike : Wave :=
  .tabulate fun i => if i = 4 then 100 else if i = 7 then 0xFD else 0

/-- How it is smoothed, every other tick. -/
def smoothing (e : Effect) : Reshaping :=
  ⟨e, 0, 127, 0, 1⟩

theorem spike_narrows :
    let v := fun e n => ((start (smoothing e) spike 0).after #[] n).wave
    ((smoothing .smooth).effect = .smooth ∧ (v .smooth 1).level 3 = 50 ∧
      (v .smooth 1).level 6 = -1 ∧ (v .smooth 2).level 6 = -1 ∧ (v .smooth 9).byte 127 = 0) ∧
    ((smoothing .smoothWide).effect = .smoothWide ∧ (v .smoothWide 1).level 3 = 25 ∧
      (v .smoothWide 1).level 4 = 50 ∧ (v .smoothWide 1).level 6 = 0 ∧
      (v .smoothWide 9).byte 0 = 0) ∧
    (0 ≤ 4 ∧ 4 ≤ 127) ∧ -3 ≤ (v .smooth 9).level 4 ∧ (v .smooth 9).level 4 ≤ 100 := by
  intro v
  obtain ⟨hsmooth, -, hrange⟩ := smoothing_narrows (smoothing .smooth) spike 0 #[]
  obtain ⟨-, hwide, -⟩ := smoothing_narrows (smoothing .smoothWide) spike 0 #[]
  obtain ⟨-, -, hinside⟩ := hrange (.inl rfl)
  have hlow : -3 = (Window.between 127 0).low spike := by decide +kernel
  have hhigh : (Window.between 127 0).high spike = 100 := by decide +kernel
  obtain ⟨hbelow, habove⟩ := hinside 9 4 (by decide) (by decide)
  refine ⟨⟨rfl, ((hsmooth rfl 0).1 3).trans ?_, ((hsmooth rfl 0).1 6).trans ?_,
    ((hsmooth rfl 1).1 6).trans ?_, (hsmooth rfl 9).2.2.2.trans ?_⟩,
    ⟨rfl, ((hwide rfl 0).1 3).trans ?_, ((hwide rfl 0).1 4).trans ?_, ((hwide rfl 0).1 6).trans ?_,
    (hwide rfl 9).2.2.2.1.trans ?_⟩,
    by decide, hlow.trans_le hbelow, habove.trans_eq hhigh⟩
  all_goals decide +kernel

end Shaper

end Chiptune
