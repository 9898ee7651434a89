import Mathlib
import Chiptune.Play.Sequencer
import Chiptune.Proofs.Binary64

/-!
# The clock of a song

Interrupts come when the play time, a quotient of binary64 numbers, has reached theirs. Nothing
here needs that comparison to be exact.

* `rowFrames_pos`, `rowFrames_mul_le`: a row lasts at least one frame, at every speed, and no longer
  than its interrupts.
* `isInterrupt_of_le`: **an interrupt comes before four times its time has passed**, so every
  interrupt comes.
-/

namespace Chiptune

open Binary64

theorem size_of_pos {a b : ℕ} (ha : 0 < a) (hb : 0 < b) (hb' : b ≤ 200000) :
    (2 ^ (-900 : ℤ) : ℚ) ≤ a / b := by
  have h1 : (1 : ℚ) ≤ a := by exact_mod_cast ha
  have h2 : (b : ℚ) ≤ 2 ^ 18 := by exact_mod_cast hb'.trans (by norm_num)
  have h0 : (0 : ℚ) < b := by exact_mod_cast hb
  calc (2 ^ (-900 : ℤ) : ℚ) ≤ 2 ^ (-18 : ℤ) := zpow_le_zpow_right₀ one_le_two (by norm_num)
    _ = 1 / 2 ^ 18 := by norm_num
    _ ≤ a / b := by gcongr

theorem ofNat_within_of_le {n : ℕ} (hn : 0 < n) (hn' : n ≤ 200000) : Within 2 (Float.ofNat n) n :=
  ofNat_within hn (lt_top (by omega))

/-- A count divided by a rate is never less than zero, nor anything but a number. -/
theorem proper_ofNat_div (n : ℕ) {r : ℕ} (hr : 0 < r) (hr' : r ≤ 200000) :
    Proper (Float.ofNat n / Float.ofNat r) := by
  have hR := ofNat_within_of_le hr hr'
  rcases Nat.eq_zero_or_pos n with rfl | hn
  · exact Or.inl (null_ofNat_zero.div hR)
  have hn0 : (0 : ℚ) < n := by exact_mod_cast hn
  have hr0 : (0 : ℚ) < r := by exact_mod_cast hr
  rcases ofNat_rounded hn with hN | ⟨hN, -⟩
  · rcases hN.div hR hn0 hr0 (by norm_num) (size_of_pos hn hr hr') with h | ⟨h, -⟩
    · exact Or.inr (Or.inl ⟨_, _, h⟩)
    · exact Or.inr (Or.inr h)
  · exact Or.inr (Or.inr (hN.div hR))

/-- **Times are ordered as their counts are**, once one is four times the other. -/
theorem ofNat_div_le {i f p r : ℕ} (hp : 0 < p) (hpr : p ≤ r) (hr : r ≤ 200000)
    (h : 4 * (i * r) ≤ f * p) :
    Float.ofNat i / Float.ofNat p ≤ Float.ofNat f / Float.ofNat r := by
  have hP := ofNat_within_of_le hp (hpr.trans hr)
  have hR := ofNat_within_of_le (hp.trans_le hpr) hr
  have hp0 : (0 : ℚ) < p := by exact_mod_cast hp
  have hr0 : (0 : ℚ) < r := by exact_mod_cast hp.trans_le hpr
  have hI := proper_ofNat_div i hp (hpr.trans hr)
  have hF := proper_ofNat_div f (hp.trans_le hpr) hr
  rcases Nat.eq_zero_or_pos i with rfl | hi
  · exact (null_ofNat_zero.div hP).le hF
  have hif : 4 * i ≤ f := by
    have : 4 * i * p ≤ f * p := by nlinarith
    exact Nat.le_of_mul_le_mul_right this hp
  rcases Nat.lt_or_ge i top with hsmall | hlarge
  · have hi0 : (0 : ℚ) < i := by exact_mod_cast hi
    have hf : 0 < f := by omega
    have hf0 : (0 : ℚ) < f := by exact_mod_cast hf
    have hquot : (i / p : ℚ) ≤ i := div_le_self hi0.le (by exact_mod_cast hp)
    have hW : Within 5 (Float.ofNat i / Float.ofNat p) (i / p) := by
      rcases (ofNat_within hi hsmall).div hP hi0 hp0 (by norm_num) (size_of_pos hi hp (hpr.trans hr))
        with h | ⟨-, h⟩
      · exact h
      · exact absurd (by exact_mod_cast h.trans hquot) (not_le.2 hsmall)
    rcases ofNat_rounded hf with hN | ⟨hN, -⟩
    · rcases hN.div hR hf0 hr0 (by norm_num) (size_of_pos hf (hp.trans_le hpr) hr) with hV | ⟨hV, -⟩
      · refine hW.le hV ?_
        have hg := (grain_pow_lt (show 5 + (2 + 2 + 1) ≤ 16 by norm_num)).le
        calc (i / p * grain ^ (5 + (2 + 2 + 1)) : ℚ) ≤ i / p * 4 := by gcongr; linarith
          _ = 4 * i / p := by ring
          _ ≤ f / r := by
            rw [div_le_div_iff₀ hp0 hr0, mul_assoc]
            exact_mod_cast h
      · exact hI.le_infinite hV
    · exact hI.le_infinite (hN.div hR)
  · -- past all floats both times are infinite
    exact hI.le_infinite ((ofNat_infinite (by omega)).div hR)

namespace Sequencer

/-- A song that was accepted: its rate, its interrupts and its speed are in their limits. -/
structure Sound (s : Sequencer) : Prop where
  rate_ge : 2000 ≤ s.setup.rate
  rate_le : s.setup.rate ≤ 200000
  irq_pos : 0 < s.song.interruptRate.toNat
  irq_le : s.song.interruptRate.toNat ≤ 200
  speed_pos : 0 < s.progress.speed
  speed_le : s.progress.speed ≤ 16

/-- The frames of a row, before a part of a frame is dropped, are off by few roundings. -/
theorem row_within {s : Sequencer} (h : s.Sound) :
    Within 8 (s.song.rowDuration s.progress.speed * Float.ofNat s.setup.rate)
      (s.progress.speed / s.song.interruptRate.toNat * s.setup.rate) ∧
    (10 : ℚ) ≤ s.progress.speed / s.song.interruptRate.toNat * s.setup.rate := by
  have hrate := h.rate_ge
  have hirq := h.irq_le
  have hspeed := h.speed_le
  have hS := ofNat_within_of_le h.speed_pos (by omega)
  have hP := ofNat_within_of_le h.irq_pos (by omega)
  have hR := ofNat_within_of_le (n := s.setup.rate) (by omega) h.rate_le
  have hs0 : (1 : ℚ) ≤ s.progress.speed := by exact_mod_cast h.speed_pos
  have hs1 : (s.progress.speed : ℚ) ≤ 16 := by exact_mod_cast hspeed
  have hp0 : (1 : ℚ) ≤ s.song.interruptRate.toNat := by exact_mod_cast h.irq_pos
  have hp1 : (s.song.interruptRate.toNat : ℚ) ≤ 200 := by exact_mod_cast hirq
  have hr0 : (2000 : ℚ) ≤ s.setup.rate := by exact_mod_cast hrate
  have hr1 : (s.setup.rate : ℚ) ≤ 200000 := by exact_mod_cast h.rate_le
  have htop : (2 ^ 63 : ℚ) < top := by exact_mod_cast lt_top (n := 2 ^ 63) (by norm_num)
  have hquot0 : (1 / 200 : ℚ) ≤ s.progress.speed / s.song.interruptRate.toNat := by gcongr
  have hquot1 : (s.progress.speed / s.song.interruptRate.toNat : ℚ) ≤ 16 :=
    (div_le_self (by linarith) hp0).trans hs1
  have hQ : Within 5 (s.song.rowDuration s.progress.speed)
      (s.progress.speed / s.song.interruptRate.toNat) := by
    rcases hS.div hP (by linarith) (by linarith) (by norm_num)
      (size_of_pos h.speed_pos h.irq_pos (by omega)) with hq | ⟨-, hq⟩
    · exact hq
    · linarith
  have hprod0 : (10 : ℚ) ≤ s.progress.speed / s.song.interruptRate.toNat * s.setup.rate := by
    nlinarith
  refine ⟨?_, hprod0⟩
  rcases hQ.mul hR (by linarith) (by linarith) (by norm_num)
    ((zpow_le_one_of_nonpos₀ one_le_two (by norm_num)).trans (by linarith)) with hv | ⟨-, hv⟩
  · exact hv
  · nlinarith

/-- **A row lasts at least one frame.** -/
theorem rowFrames_pos {s : Sequencer} (h : s.Sound) : 0 < s.rowFrames := by
  obtain ⟨hv, hten⟩ := row_within h
  exact hv.one_le_toNat (by norm_num) (by linarith)

/-- **A row has no more frames than its interrupts take.** -/
theorem rowFrames_mul_le {s : Sequencer} (h : s.Sound) :
    s.rowFrames * s.song.interruptRate.toNat ≤ s.progress.speed * s.setup.rate := by
  obtain ⟨hv, -⟩ := row_within h
  have hp0 : (0 : ℚ) < s.song.interruptRate.toNat := by exact_mod_cast h.irq_pos
  -- eight roundings of so small a number do not make up one frame
  have hsmall : (s.progress.speed * s.setup.rate : ℚ) ≤ 2 ^ 22 := by
    have h1 := h.speed_le
    have h2 := h.rate_le
    have : s.progress.speed * s.setup.rate ≤ 2 ^ 22 := by nlinarith
    exact_mod_cast this
  have hgrain : grain ^ 8 ≤ 1 + 1 / 2 ^ 23 := by unfold grain; norm_num
  have hlt : (s.rowFrames * s.song.interruptRate.toNat : ℚ) < s.progress.speed * s.setup.rate + 1 := by
    calc (s.rowFrames * s.song.interruptRate.toNat : ℚ)
        ≤ s.progress.speed / s.song.interruptRate.toNat * s.setup.rate * grain ^ 8 *
            s.song.interruptRate.toNat := by gcongr; exact hv.toNat_le
      _ = s.progress.speed * s.setup.rate * grain ^ 8 := by field_simp
      _ ≤ s.progress.speed * s.setup.rate * (1 + 1 / 2 ^ 23) := by gcongr
      _ < s.progress.speed * s.setup.rate + 1 := by linarith
  exact Nat.lt_succ_iff.1 (by exact_mod_cast hlt)

/-- **An interrupt comes before four times its time has passed.** -/
theorem isInterrupt_of_le {s : Sequencer} (h : s.Sound)
    (hle : 4 * (s.interrupts * s.setup.rate) ≤ s.frames * s.song.interruptRate.toNat) :
    s.isInterrupt = true := by
  have := h.rate_ge
  have := h.irq_le
  exact decide_eq_true (ofNat_div_le h.irq_pos (by omega) h.rate_le hle)

end Sequencer

end Chiptune
