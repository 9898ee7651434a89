import Mathlib
import Chiptune.Proofs.Binary64
import Chiptune.Tone.Swing

/-!
# How far a swing reaches

A swing multiplies its depth, a 16-bit word, by a sine, takes a sixteenth of it and rounds that to a whole
number, all in floats. No sine is above one, so the exact offset stays below 4096 by a sixteenth, and
the roundings on the way are too small to lead past it.

* `height_cases`: every sine is zero or a float of ordinary size up to one.
* `nearest_height_le`: the product of a sine and a depth, through its roundings.
* `offset_bounds`: **a swing reaches no further than 4096.**
-/

namespace Chiptune

open Binary64

theorem Binary64.sixteen_within : Within 0 16.0 16 :=
  ⟨2 ^ 52, -48, by norm_num, rfl, by norm_num, by norm_num, by norm_num, by norm_num, by norm_num⟩

namespace Swing

/-! ## Sines -/

open Float.Model.UnpackedFloat in
/-- Whether a float is zero, or has a full mantissa and is between a 1024th and one. -/
def isFraction (x : Float) : Bool :=
  match x.toModel.unpack with
  | .zero .positive => true
  | .finite .positive m e _ =>
    2 ^ 52 ≤ m && m < 2 ^ 53 && -62 ≤ e && (e ≤ -53 || m = 2 ^ 52 && e = -52)
  | _ => false

theorem isFraction_sines (k : Fin 65) : isFraction (sines.getD k 0.0) = true := by
  revert k
  decide +kernel

theorem cases_of_isFraction {x : Float} (h : isFraction x = true) :
    Null x ∨ ∃ q : ℚ, 2 ^ (-10 : ℤ) ≤ q ∧ q ≤ 1 ∧ Within 0 x q := by
  unfold isFraction at h
  split at h
  · rename_i hx
    exact Or.inl hx
  · rename_i m e hm hx
    simp only [Bool.and_eq_true, Bool.or_eq_true, decide_eq_true_eq] at h
    obtain ⟨⟨⟨hm1, hm2⟩, hlo⟩, hhi⟩ := h
    have hm1' : (2 ^ 52 : ℚ) ≤ m := by exact_mod_cast hm1
    have hm2' : (m : ℚ) ≤ 2 ^ 53 := by exact_mod_cast hm2.le
    refine Or.inr ⟨m * 2 ^ e, ?_, ?_, m, e, hm, hx, hm1, hm2, by omega, by simp, by simp⟩
    · calc (2 ^ (-10 : ℤ) : ℚ) = 2 ^ 52 * 2 ^ (-62 : ℤ) := by norm_num
        _ ≤ m * 2 ^ e := by
          gcongr
          exact one_le_two
    · rcases hhi with hsmall | ⟨rfl, rfl⟩
      · calc (m * 2 ^ e : ℚ) ≤ 2 ^ 53 * 2 ^ (-53 : ℤ) := by
              gcongr
              exact one_le_two
          _ = 1 := by norm_num
      · norm_num
  · cases h

/-- **Every sine is zero or a float of ordinary size up to one.** -/
theorem height_cases (phase : UInt8) :
    Null (height phase) ∨ ∃ q : ℚ, 2 ^ (-10 : ℤ) ≤ q ∧ q ≤ 1 ∧ Within 0 (height phase) q := by
  have hplace : min (phase.toNat % 128) (128 - phase.toNat % 128) < 65 := by omega
  exact cases_of_isFraction (isFraction_sines ⟨_, hplace⟩)

/-! ## Offsets -/

theorem nearest_of_null {x : Float} (hx : Null x) : nearest x = 0 := by
  have hdouble : Null (x * 2.0) := Null.mul (Or.inl hx) (Or.inr ⟨0, 2, two_within⟩) (Or.inl hx)
  unfold nearest
  rw [hdouble.toNat]

/-- A sixteenth of a 16-bit word is rounded to 4096 at most. -/
theorem nearest_le {x : Float} {k : ℕ} {q : ℚ} (hx : Within k x q) (hk : k ≤ 8)
    (hlo : 2 ^ (-800 : ℤ) ≤ q) (hhi : q ≤ 65535 / 16) : nearest x ≤ 4096 := by
  have hpos : (0 : ℚ) < q := lt_of_lt_of_le (by positivity) hlo
  have hsize : (2 ^ (-900 : ℤ) : ℚ) ≤ q * 2 := by
    have hpow : (2 ^ (-900 : ℤ) : ℚ) ≤ 2 ^ (-800 : ℤ) := zpow_le_zpow_right₀ one_le_two (by norm_num)
    linarith
  have htop : (2 ^ 63 : ℚ) < top := by exact_mod_cast lt_top (n := 2 ^ 63) (by norm_num)
  have hdouble : Within (k + 1) (x * 2.0) (q * 2) := by
    rcases hx.mul two_within hpos two_pos (by omega) hsize with h | ⟨-, h⟩
    · exact h
    · linarith
  have hgrain0 := grain_pos
  have hgrain : grain ^ (k + 1) ≤ grain ^ 9 := pow_le_pow_right₀ one_le_grain (by omega)
  have hbelow : ((x * 2.0).toUInt64.toNat : ℚ) < 8192 :=
    calc ((x * 2.0).toUInt64.toNat : ℚ) ≤ q * 2 * grain ^ (k + 1) := hdouble.toNat_le
      _ ≤ 65535 / 16 * 2 * grain ^ 9 := by gcongr
      _ < 8192 := by
        unfold grain
        norm_num
  have hnat : (x * 2.0).toUInt64.toNat < 8192 := by exact_mod_cast hbelow
  unfold nearest
  omega

theorem nearest_height_le (phase : UInt8) {level : ℕ} (h : level < 2 ^ 16) :
    nearest (height phase * Float.ofNat level / 16.0) ≤ 4096 := by
  have hzero (hnull : Null (height phase * Float.ofNat level)) :
      nearest (height phase * Float.ofNat level / 16.0) ≤ 4096 := by
    rw [nearest_of_null (hnull.div sixteen_within)]
    omega
  have hsized : Sized (height phase) := by
    rcases height_cases phase with hnull | ⟨q, -, -, hq⟩
    · exact Or.inl hnull
    · exact Or.inr ⟨0, q, hq⟩
  rcases Nat.eq_zero_or_pos level with rfl | hpos
  · exact hzero (Null.mul hsized (Or.inl null_ofNat_zero) (Or.inr null_ofNat_zero))
  have hlevel : Within 2 (Float.ofNat level) level := ofNat_within hpos (lt_top (by omega))
  rcases height_cases phase with hnull | ⟨q, hlo, hhi, hq⟩
  · exact hzero (Null.mul hsized (Or.inr ⟨2, level, hlevel⟩) (Or.inl hnull))
  have hone : (1 : ℚ) ≤ level := by exact_mod_cast hpos
  have hword : (level : ℚ) ≤ 65535 := by exact_mod_cast (by omega : level ≤ 65535)
  have hq0 : (0 : ℚ) < q := lt_of_lt_of_le (by positivity) hlo
  have hsize : (2 ^ (-10 : ℤ) : ℚ) ≤ q * level :=
    hlo.trans (le_mul_of_one_le_right hq0.le hone)
  have hbound : q * level ≤ 65535 := by
    calc q * level ≤ 1 * 65535 := by gcongr
      _ = 65535 := one_mul _
  have hsmall (a b : ℤ) (hab : a ≤ b) : (2 ^ a : ℚ) ≤ 2 ^ b := zpow_le_zpow_right₀ one_le_two hab
  have htop : (2 ^ 63 : ℚ) < top := by exact_mod_cast lt_top (n := 2 ^ 63) (by norm_num)
  have hproduct : Within 3 (height phase * Float.ofNat level) (q * level) := by
    rcases hq.mul hlevel hq0 (by linarith) (by norm_num)
      ((hsmall (-900) (-10) (by norm_num)).trans hsize) with h | ⟨-, h⟩
    · exact h
    · linarith
  have hsixteenth : (2 ^ (-14 : ℤ) : ℚ) ≤ q * level / 16 := by
    rw [le_div_iff₀ (by norm_num)]
    calc (2 ^ (-14 : ℤ) * 16 : ℚ) = 2 ^ (-10 : ℤ) := by norm_num
      _ ≤ q * level := hsize
  have hquotient : Within 4 (height phase * Float.ofNat level / 16.0) (q * level / 16) := by
    rcases hproduct.div sixteen_within (by positivity) (by norm_num) (by norm_num)
      ((hsmall (-900) (-14) (by norm_num)).trans hsixteenth) with h | ⟨-, h⟩
    · exact h
    · linarith
  exact nearest_le hquotient (by norm_num) ((hsmall (-800) (-14) (by norm_num)).trans hsixteenth)
    (by linarith)

/-- **A swing reaches no further than 4096**, whatever its depth. -/
theorem offset_bounds {s : Swing} (h : s.level < 2 ^ 16) : -4096 ≤ s.offset ∧ s.offset ≤ 4096 := by
  have hreach (phase : UInt8) : -4096 ≤ reach phase s.level ∧ reach phase s.level ≤ 4096 := by
    have hle := nearest_height_le phase h
    unfold reach
    dsimp only
    split <;> omega
  unfold offset
  split
  · exact hreach _
  · omega

end Swing

end Chiptune
