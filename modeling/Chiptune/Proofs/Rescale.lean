import Mathlib
import Chiptune.Audio.Channel
import Chiptune.Audio.Setup
import Chiptune.Proofs.Truncation

/-!
# A new period moves the place

A channel does not add up its steps: its place is the time since its start, or since it last went
round, counted in steps of the present period. So a write to the period register moves the place with
the next refresh, by the ratio of the periods, and the more the longer the channel has played.

* `rate_ordinary`: the bytes in a second at a period, up to two roundings.
* `place_anti`: **a longer period never puts the place further**.
* `place_mul_lt`: **place times period stays**, up to one step.
* `period_write_rescales`: what a write does; `bend_moves_place`: it does not leave the place alone.
-/

namespace Chiptune

open Binary64

/-- The clocks are floats, so they are off by no rounding. -/
theorem clock_exact (standard : Standard) :
    ∃ c : ℚ, 2 ^ 22 ≤ c ∧ c ≤ 2 ^ 23 ∧ Within 0 standard.clock c := by
  cases standard with
  | pal =>
    exact ⟨7616898154679501 * 2 ^ (-30 : ℤ), by norm_num, by norm_num, 7616898154679501, -30,
      by norm_num, rfl, by norm_num, by norm_num, by norm_num, by simp, by simp⟩
  | ntsc =>
    exact ⟨7687014891651072 * 2 ^ (-30 : ℤ), by norm_num, by norm_num, 7687014891651072, -30,
      by norm_num, rfl, by norm_num, by norm_num, by norm_num, by simp, by simp⟩

/-- **The bytes in a second** are half the clock through the period, up to four roundings. -/
theorem rate_ordinary (standard : Standard) :
    ∃ c : ℚ, 0 < c ∧ ∀ p : ℕ, 0 < p → p < 2 ^ 16 →
      Ordinary 4 (Period.rate p standard.clock) (c / p) := by
  obtain ⟨c, hlo, hhi, hclock⟩ := clock_exact standard
  refine ⟨c / 2, by positivity, ?_⟩
  intro p hp hp'
  have hp0 : (1 : ℚ) ≤ p := by exact_mod_cast hp
  have hp1 : (p : ℚ) ≤ 2 ^ 16 := by exact_mod_cast hp'.le
  have hone : (2 ^ (-900 : ℤ) : ℚ) ≤ 1 := zpow_le_one_of_nonpos₀ one_le_two (by norm_num)
  have htop : (2 ^ 63 : ℚ) < top := by exact_mod_cast lt_top (n := 2 ^ 63) (by norm_num)
  have hdouble : Within 3 (2.0 * Float.ofNat p) (2 * p) := by
    have hofNat := ofNat_within hp (lt_top (by omega))
    rcases two_within.mul hofNat two_pos (by linarith) (by norm_num) (by linarith) with h | ⟨-, h⟩
    · exact h
    · linarith
  have hvalue : c / 2 / p = c / (2 * p) := div_div c 2 (p : ℚ)
  have hlow : 1 ≤ c / (2 * p) := by
    rw [le_div_iff₀ (by positivity)]
    linarith
  have hhigh : c / (2 * p) ≤ c := div_le_self (by linarith) (by linarith)
  rw [hvalue, Period.rate, if_neg (by omega)]
  refine ⟨?_, by norm_num, hlow, by linarith⟩
  rcases hclock.div hdouble (by linarith) (by linarith) (by norm_num) (by linarith) with h | ⟨-, h⟩
  · exact h
  · linarith

/-! ## Places -/

/-- The place to which so many seconds lead at a period. -/
def Period.place (p : ℕ) (clock seconds : Float) : ℕ :=
  (Period.rate p clock * seconds).toUInt64.toNat

namespace Period

variable {p q : ℕ} (standard : Standard) (seconds : Float)

/-- **A longer period never puts the place further.** -/
theorem place_anti (hp : 0 < p) (hpq : p ≤ q) (hq : q < 2 ^ 16) :
    place q standard.clock seconds ≤ place p standard.clock seconds := by
  rcases Nat.eq_or_lt_of_le hpq with rfl | hlt
  · exact le_rfl
  obtain ⟨c, hc, hrate⟩ := rate_ordinary standard
  have hP := hrate p hp (by omega)
  have hQ := hrate q (by omega) hq
  rcases product_cases seconds with h | h | ⟨D, hD, h⟩
  · exact (h _ _ _ hQ).trans_le (Nat.zero_le _)
  · exact ((h _ _ _ hQ).trans (h _ _ _ hP).symm).le
  · refine (h _ _ _ hQ).toNat_le_toNat (h _ _ _ hP) ?_
    have hp0 : (0 : ℚ) < p := by exact_mod_cast hp
    have hq0 : (0 : ℚ) < q := by exact_mod_cast hp.trans hlt
    have hp1 : (p : ℚ) ≤ 2 ^ 16 := by exact_mod_cast (by omega : p ≤ 2 ^ 16)
    have hnext : (p + 1 : ℚ) ≤ q := by exact_mod_cast hlt
    -- periods differ by more than roundings do
    have hgrain : grain ^ (4 + 1 + (4 + 1)) ≤ 1 + 1 / 2 ^ 48 := by unfold grain; norm_num
    have hratio : p * grain ^ (4 + 1 + (4 + 1)) ≤ q := by
      calc (p * grain ^ (4 + 1 + (4 + 1)) : ℚ) ≤ p * (1 + 1 / 2 ^ 48) := by gcongr
        _ ≤ p + 1 := by linarith
        _ ≤ q := hnext
    calc c / q * D * grain ^ (4 + 1 + (4 + 1))
        = c * D / (p * q) * (p * grain ^ (4 + 1 + (4 + 1))) := by field_simp
      _ ≤ c * D / (p * q) * q := by gcongr
      _ = c / p * D := by field_simp

/-- **Place times period stays**, up to one step and the roundings, whatever the periods are. -/
theorem place_mul_lt (hp : 0 < p) (hp' : p < 2 ^ 16) (hq : 0 < q) (hq' : q < 2 ^ 16)
    (hsmall : place p standard.clock seconds < 2 ^ 64 - 1) :
    (place q standard.clock seconds * q : ℚ) <
      (place p standard.clock seconds + 1) * p * (1 + 1 / 2 ^ 48) := by
  obtain ⟨c, hc, hrate⟩ := rate_ordinary standard
  have hP := hrate p hp hp'
  have hQ := hrate q hq hq'
  have hp0 : (0 : ℚ) < p := by exact_mod_cast hp
  have hq0 : (0 : ℚ) < q := by exact_mod_cast hq
  have hg := grain_pos
  rcases product_cases seconds with h | h | ⟨D, hD, h⟩
  · have hzero : place q standard.clock seconds = 0 := h _ _ _ hQ
    rw [hzero, Nat.cast_zero, zero_mul]
    positivity
  · exact absurd (h _ _ _ hP) (Nat.ne_of_lt hsmall)
  · have hle : (place q standard.clock seconds : ℚ) ≤ c / q * D * grain ^ (4 + 1) :=
      (h _ _ _ hQ).toNat_le
    have hlt : c / p * D < (place p standard.clock seconds + 1) * grain ^ (4 + 1) :=
      (h _ _ _ hP).lt_toNat hsmall
    have hgrain : grain ^ (4 + 1) * grain ^ (4 + 1) ≤ 1 + 1 / 2 ^ 48 := by unfold grain; norm_num
    calc (place q standard.clock seconds * q : ℚ) ≤ c / q * D * grain ^ (4 + 1) * q := by gcongr
      _ = c / p * D * (p * grain ^ (4 + 1)) := by field_simp
      _ < (place p standard.clock seconds + 1) * grain ^ (4 + 1) * (p * grain ^ (4 + 1)) := by
        gcongr
      _ = (place p standard.clock seconds + 1) * p * (grain ^ (4 + 1) * grain ^ (4 + 1)) := by ring
      _ ≤ (place p standard.clock seconds + 1) * p * (1 + 1 / 2 ^ 48) := by gcongr

end Period

/-! ## Channels -/

namespace Channel

variable (ch : Channel) (clock t : Float) {p : ℕ}

theorem index_seek : (ch.seek clock t).index =
    if ch.isMoving t then Period.place ch.period clock (t - ch.startTime) else 0 := by
  unfold seek
  split <;> rfl

@[simp]
theorem isMoving_seek : (ch.seek clock t).isMoving t = ch.isMoving t := by
  unfold seek
  split <;> rfl

@[simp]
theorem period_seek : (ch.seek clock t).period = ch.period := by
  unfold seek
  split <;> rfl

@[simp]
theorem buffer_seek : (ch.seek clock t).buffer = ch.buffer := by
  unfold seek
  split <;> rfl

@[simp]
theorem startTime_seek : (ch.seek clock t).startTime = ch.startTime := by
  unfold seek
  split <;> rfl

/-- A refresh changes the place, and says that there was one. -/
theorem seek_eq : ch.seek clock t =
    { ch with
      index := (ch.seek clock t).index, fraction := (ch.seek clock t).fraction,
      restarted := false } := by
  unfold seek
  split <;> rfl

theorem seek_seek : (ch.seek clock t).seek clock t = ch.seek clock t := by
  by_cases h : ch.isMoving t
  · have hagain : (ch.seek clock t).isMoving t := (ch.isMoving_seek clock t).trans h
    rw [seek, if_pos hagain, seek, if_pos h]
  · have hagain : ¬ (ch.seek clock t).isMoving t := by rwa [isMoving_seek]
    rw [seek, if_neg hagain, seek, if_neg h]

/-- Between periods other than zero a write makes no channel move or stop. -/
theorem isMoving_setPeriod (h : 0 < ch.period) (hp : 0 < p) :
    (ch.setPeriod p).isMoving t = ch.isMoving t := by
  have hold : decide (ch.period ≠ 0) = true := decide_eq_true h.ne'
  have hnew : decide (p ≠ 0) = true := decide_eq_true hp.ne'
  unfold isMoving setPeriod
  rw [hold, hnew]

/-- The channel with its place refreshed for a time, before and after a write of a period. -/
def rewritten (p : ℕ) : Channel :=
  ((ch.seek clock t).setPeriod p).seek clock t

theorem index_rewritten (h : 0 < ch.period) (hp : 0 < p) : (ch.rewritten clock t p).index =
    if ch.isMoving t then Period.place p clock (t - ch.startTime) else 0 := by
  have hmoving : ((ch.seek clock t).setPeriod p).isMoving t = ch.isMoving t := by
    rw [isMoving_setPeriod _ _ (by rwa [period_seek]) hp, isMoving_seek]
  rw [rewritten, index_seek, hmoving]
  change (if _ then Period.place p clock (t - (ch.seek clock t).startTime) else 0) = _
  rw [startTime_seek]

theorem isPastEnd_rewritten (h : 0 < ch.period) (hp : 0 < p) : (ch.rewritten clock t p).isPastEnd t =
    (ch.isMoving t && decide (ch.buffer.size ≤ (ch.rewritten clock t p).index)) := by
  have hmoving : (ch.rewritten clock t p).isMoving t = ch.isMoving t := by
    rw [rewritten, isMoving_seek, isMoving_setPeriod _ _ (by rwa [period_seek]) hp, isMoving_seek]
  have hbuffer : (ch.rewritten clock t p).buffer = ch.buffer := by
    rw [rewritten, buffer_seek]
    exact ch.buffer_seek clock t
  rw [isPastEnd, hmoving, hbuffer]

theorem rewritten_eq : ch.rewritten clock t p =
    { ch.seek clock t with
      period := p, index := (ch.rewritten clock t p).index,
      fraction := (ch.rewritten clock t p).fraction } := by
  have hrefreshed : (ch.seek clock t).restarted = false := by rw [seek_eq]
  conv_lhs => rw [rewritten, seek_eq]
  rw [← hrefreshed]
  rfl

/-- A write of the old period changes nothing. -/
theorem rewritten_period : ch.rewritten clock t ch.period = ch.seek clock t := by
  have hwrite : (ch.seek clock t).setPeriod ch.period = ch.seek clock t := by
    conv_lhs => rw [← ch.period_seek clock t]
    rfl
  rw [rewritten, hwrite, seek_seek]

/-- **What a write of another period does.** Take a channel in any state whose place was refreshed
for a time and is not past its end, write a period, and refresh the place for the same time. Nothing
but the place and the period changes, and nothing at all under the old period. The new place is the
time since the start of the channel, counted in steps of the new period: a channel before its start
stays at its first byte; a longer period puts the place no further, so it does not pass the end; a
shorter one puts it no less far. Up to one step and the roundings place times period stays. -/
theorem period_write_rescales (standard : Standard) (hold : 0 < ch.period ∧ ch.period < 2 ^ 16)
    (hp : 0 < p ∧ p < 2 ^ 16) (hsize : ch.buffer.size < 2 ^ 64)
    (hinside : (ch.seek standard.clock t).isPastEnd t = false) :
    let old := ch.seek standard.clock t
    let new := (old.setPeriod p).seek standard.clock t
    new = { old with period := p, index := new.index, fraction := new.fraction } ∧
    (p = ch.period → new = old) ∧
    new.index = (if ch.isMoving t then Period.place p standard.clock (t - ch.startTime) else 0) ∧
    (ch.period ≤ p → new.index ≤ old.index ∧ new.isPastEnd t = false) ∧
    (p ≤ ch.period → old.index ≤ new.index) ∧
    (new.index * p : ℚ) < (old.index + 1) * ch.period * (1 + 1 / 2 ^ 48) ∧
    (new.index < 2 ^ 64 - 1 →
      (old.index * ch.period : ℚ) < (new.index + 1) * p * (1 + 1 / 2 ^ 48)) := by
  intro old new
  have hnew := ch.index_rewritten standard.clock t hold.1 hp.1
  have hpast := ch.isPastEnd_rewritten standard.clock t hold.1 hp.1
  have hindex := ch.index_seek standard.clock t
  change new.index = _ at hnew
  change old.index = _ at hindex
  change new.isPastEnd t = (_ && decide (_ ≤ new.index)) at hpast
  have hp0 : (0 : ℚ) < p := by exact_mod_cast hp.1
  have hq0 : (0 : ℚ) < ch.period := by exact_mod_cast hold.1
  refine ⟨ch.rewritten_eq _ _, ?_, hnew, ?_⟩
  · rintro rfl
    exact ch.rewritten_period _ _
  rw [hpast]
  rw [isPastEnd, isMoving_seek, buffer_seek] at hinside
  cases hm : ch.isMoving t with
  | false =>
    rw [hm, if_neg nofun] at hnew hindex
    rw [hnew, hindex]
    refine ⟨fun _ => ⟨le_rfl, rfl⟩, fun _ => le_rfl, ?_, fun _ => ?_⟩
    · rw [Nat.cast_zero, zero_mul, zero_add]
      positivity
    · rw [Nat.cast_zero, zero_mul, zero_add]
      positivity
  | true =>
    rw [hm, if_pos rfl] at hnew hindex
    rw [hm, Bool.true_and, decide_eq_false_iff_not, not_le] at hinside
    change old.index < _ at hinside
    rw [hindex] at hinside
    rw [hnew, hindex]
    refine ⟨fun hle => ?_, fun hle => ?_, ?_, fun hsmall => ?_⟩
    · have hplace := Period.place_anti standard (t - ch.startTime) hold.1 hle hp.2
      exact ⟨hplace, by simpa using hplace.trans_lt hinside⟩
    · exact Period.place_anti standard _ hp.1 hle hold.2
    · exact Period.place_mul_lt standard _ hold.1 hold.2 hp.1 hp.2 (by omega)
    · exact Period.place_mul_lt standard _ hp.1 hp.2 hold.1 hold.2 hsmall

/-- A channel that was started with sixteen bytes. -/
def ramp : Channel :=
  ((idle.start #[0, 1, 2, 3, 4, 5, 6, 7, 8, 9, 10, 11, 12, 13, 14, 15] ⟨1, 0, 16⟩ 0.0).setPeriod
    428).setVolume 64

/-- After a thousandth of a second the channel is at byte 8. Twice the period puts it back to byte 4
at the same time, and less than half of the period past its end. -/
theorem bend_moves_place :
    let old := ramp.seek Standard.pal.clock 0.001
    let slow := (old.setPeriod 856).seek Standard.pal.clock 0.001
    let fast := (old.setPeriod 200).seek Standard.pal.clock 0.001
    old.active = true ∧ 1 ≤ old.period ∧ old.isPastEnd 0.001 = false ∧
      old.index = 8 ∧ slow.index = 4 ∧ fast.isPastEnd 0.001 = true := by
  decide +kernel

/-- Twice the period puts the channel where it was after half the time. -/
theorem ramp_rescales :
    let old := ramp.seek Standard.pal.clock 0.001
    let new := (old.setPeriod 856).seek Standard.pal.clock 0.001
    (0 < ramp.period ∧ ramp.period < 2 ^ 16) ∧ ramp.buffer.size < 2 ^ 64 ∧
      old.isPastEnd 0.001 = false ∧ ramp.period ≤ 856 ∧
      new.index ≤ old.index ∧ new.isPastEnd 0.001 = false ∧
      (new.index * (856 : ℕ) : ℚ) < (old.index + 1) * ramp.period * (1 + 1 / 2 ^ 48) := by
  intro old new
  have hinside : old.isPastEnd 0.001 = false := by decide +kernel
  obtain ⟨-, -, -, hslow, -, hstep, -⟩ := period_write_rescales ramp 0.001 .pal (p := 856)
    (by decide) (by decide) (by decide) hinside
  have hle : ramp.period ≤ 856 := by decide
  exact ⟨by decide, by decide, hinside, hle, (hslow hle).1, (hslow hle).2, hstep⟩

end Channel

end Chiptune
