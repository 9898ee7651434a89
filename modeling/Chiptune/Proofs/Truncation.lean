import Mathlib
import Chiptune.Proofs.Binary64

/-!
# Truncated products

A place in the bytes of a channel is a product that is cut down to a whole number. What the cut gives
is said here for every float that may be a factor: also for infinity, for a number below zero and for
what is no number at all.

* `Within.toNat_le_toNat`, `Within.lt_toNat`: truncation keeps order, and leaves out less than one.
* `Slight`: floats without a whole part; `slight_pack`: they stay so when they are packed.
* `Erases`, `Fills`, `Scales`: what a float makes of the numbers that it is multiplied with;
  `product_cases`: **every float does one of these**.
-/

namespace Chiptune.Binary64

open Float.Model Float.Model.UnpackedFloat

/-! ## Whole parts -/

/-- Truncation keeps order, where the numbers lie far enough apart. -/
theorem Within.toNat_le_toNat {j k : ℕ} {x y : Float} {a b : ℚ} (hx : Within j x a)
    (hy : Within k y b) (h : a * grain ^ (j + k) ≤ b) : x.toUInt64.toNat ≤ y.toUInt64.toNat := by
  have hle := hx.le hy h
  obtain ⟨m, e, hm, hxu, hm1, hm2, -⟩ := hx
  obtain ⟨n, f, hn, hyu, hn1, hn2, -⟩ := hy
  rw [le_iff_value hxu hm1 hm2 hyu hn1 hn2] at hle
  rw [toNat_toUInt64 hxu, toNat_toUInt64 hyu]
  exact min_le_min_right _ (Nat.floor_le_floor hle)

/-- Truncation leaves out less than one. -/
theorem Within.lt_toNat {k : ℕ} {x : Float} {q : ℚ} (hx : Within k x q)
    (h : x.toUInt64.toNat < 2 ^ 64 - 1) : q < (x.toUInt64.toNat + 1) * grain ^ k := by
  obtain ⟨m, e, hm, hu, -, -, -, -, hx2⟩ := hx
  have hg := grain_pos
  rw [toNat_toUInt64 hu] at h ⊢
  have hmin : min ⌊(m * 2 ^ e : ℚ)⌋₊ (2 ^ 64 - 1) = ⌊(m * 2 ^ e : ℚ)⌋₊ := by omega
  rw [hmin]
  calc q ≤ m * 2 ^ e * grain ^ k := hx2
    _ < (⌊(m * 2 ^ e : ℚ)⌋₊ + 1) * grain ^ k := by
      gcongr
      exact Nat.lt_floor_add_one _

/-- Numbers past 64 bits are cut down to the largest one. -/
theorem Within.toNat_eq_of_large {k : ℕ} {x : Float} {q : ℚ} (hx : Within k x q) (hk : k ≤ 16)
    (hq : 2 ^ 65 ≤ q) : x.toUInt64.toNat = 2 ^ 64 - 1 := by
  by_contra hne
  have hle : x.toUInt64.toNat < 2 ^ 64 := x.toUInt64.toNat_lt
  have hlt := hx.lt_toNat (by omega)
  have hg := (grain_pow_lt hk).le
  have hcount : (x.toUInt64.toNat + 1 : ℚ) ≤ 2 ^ 64 := by exact_mod_cast hle
  have : (x.toUInt64.toNat + 1 : ℚ) * grain ^ k ≤ 2 ^ 64 * 2 := by
    have := grain_pos
    gcongr
  linarith

theorem Infinite.toNat {x : Float} (hx : Infinite x) : x.toUInt64.toNat = 2 ^ 64 - 1 := by
  change x.toModel.unpack.toUInt64.toNat = _
  rw [hx]
  rfl

/-! ## Floats without a whole part -/

/-- A float that is cut down to zero: zero itself, a part of one, anything below zero, and what is no
number. -/
def Slight : UnpackedFloat → Prop
  | .notANumber | .zero _ | .infinity .negative | .finite .negative _ _ _ => True
  | .finite .positive _ e _ => e ≤ -53
  | .infinity .positive => False

/-- The mantissa of a float has at most 53 bits, and exactly so many but for the least exponent. -/
theorem unpack_bounds {x : Float} {s : Sign} {m : ℕ} {e : ℤ} {h : 0 < m}
    (hx : x.toModel.unpack = .finite s m e h) :
    m < 2 ^ 53 ∧ e ≤ 971 ∧ (2 ^ 52 ≤ m ∨ e = -1074) := by
  change unpack .binary64 x.toModel.toBits.toBitVec = _ at hx
  generalize x.toModel.toBits.toBitVec = bits at hx
  have ha : (@unpackExponent .binary64 bits).toNat < 2 ^ 11 := BitVec.isLt _
  have hb : (@unpackMantissa .binary64 bits).toNat < 2 ^ 52 := BitVec.isLt _
  unfold UnpackedFloat.unpack at hx
  dsimp only [Format.exponentBias] at hx
  split at hx
  · split at hx <;> cases hx
  · rename_i hinf
    split at hx
    · rename_i hzero
      split at hx
      · cases hx
      · obtain ⟨-, rfl, rfl⟩ := UnpackedFloat.finite.inj hx
        rw [hzero]
        exact ⟨hb.trans (by norm_num), by decide, Or.inr rfl⟩
    · obtain ⟨-, rfl, rfl⟩ := UnpackedFloat.finite.inj hx
      have hne : (@unpackExponent .binary64 bits).toNat ≠ 2047 :=
        fun h => hinf (BitVec.eq_of_toNat_eq h)
      have hfull : (1#1 ++ @unpackMantissa .binary64 bits).toNat =
          2 ^ 52 + (@unpackMantissa .binary64 bits).toNat := by
        rw [BitVec.toNat_append, ← Nat.shiftLeft_add_eq_or_of_lt hb]
        rfl
      omega

theorem toNat_of_slight {x : Float} (h : Slight x.toModel.unpack) : x.toUInt64.toNat = 0 := by
  cases hu : x.toModel.unpack with
  | finite s m e hm =>
    cases s with
    | negative =>
      change x.toModel.unpack.toUInt64.toNat = 0
      have hneg : roundToInt .negative m e ≤ 0 := Int.neg_nonpos_of_nonneg (Int.natCast_nonneg _)
      rw [hu, UnpackedFloat.toUInt64, toInt, Int.toNat_of_nonpos hneg]
      rfl
    | positive =>
      rw [hu] at h
      obtain ⟨hm', -, -⟩ := unpack_bounds hu
      have hlt : (m * 2 ^ e : ℚ) < 1 := by
        have hm0 : (m : ℚ) < 2 ^ 53 := by exact_mod_cast hm'
        have he : (2 ^ e : ℚ) ≤ 2 ^ (-53 : ℤ) := zpow_le_zpow_right₀ one_le_two h
        calc (m * 2 ^ e : ℚ) < 2 ^ 53 * 2 ^ e := by gcongr
          _ ≤ 2 ^ 53 * 2 ^ (-53 : ℤ) := by gcongr
          _ = 1 := by norm_num
      rw [toNat_toUInt64 hu, Nat.floor_eq_zero.2 hlt]
      rfl
  | infinity s =>
    cases s with
    | negative =>
      change x.toModel.unpack.toUInt64.toNat = 0
      rw [hu]
      rfl
    | positive =>
      rw [hu] at h
      exact h.elim
  | notANumber | zero s =>
    change x.toModel.unpack.toUInt64.toNat = 0
    rw [hu]
    rfl

/-- A packed float is slight, if its sign says so or its exponent. -/
theorem slight_components {s : Sign} {a : BitVec 11} {b : BitVec 52}
    (h : s = .negative ∨ a.toNat ≤ 1022) :
    Slight (unpack .binary64 (packComponents .binary64 s a b)) := by
  have hsign : Sign.ofBitVec s.toBitVec = s := by cases s <;> rfl
  have hfinite {m : ℕ} {e : ℤ} {hm : 0 < m} (he : e ≤ max ((a.toNat : ℤ) - 1075) (-1074)) :
      Slight (.finite s m e hm) := by
    cases s with
    | negative => trivial
    | positive =>
      have := h.resolve_left nofun
      change e ≤ -53
      omega
  unfold UnpackedFloat.unpack
  simp only [unpackExponent_packComponents, unpackMantissa_packComponents,
    unpackSign_packComponents, hsign]
  split
  · rename_i hinf
    split
    · cases s with
      | negative => trivial
      | positive =>
        have hsmall := h.resolve_left nofun
        rw [hinf] at hsmall
        exact absurd hsmall (by decide)
    · trivial
  · split
    · rename_i hzero
      have ha : a.toNat = 0 := by rw [hzero]; rfl
      split
      · trivial
      · exact hfinite (by simp only [Format.exponentBias]; omega)
    · exact hfinite (by simp only [Format.exponentBias]; omega)

/-- **What is slight stays so when it is packed.** -/
theorem slight_pack {u : UnpackedFloat} (h : Slight u) : Slight (Float.Model.pack u).unpack := by
  change Slight (unpack .binary64 (UnpackedFloat.pack .binary64 u))
  cases u with
  | notANumber => trivial
  | zero s => cases s <;> trivial
  | infinity s =>
    cases s with
    | negative => trivial
    | positive => exact h.elim
  | finite s m e hm =>
    have hcode (b : ℕ) (hb : s = .negative ∨ b ≤ 1022) :
        s = .negative ∨ (BitVec.ofNat 11 b).toNat ≤ 1022 := by
      refine hb.imp_right fun hsmall => ?_
      rw [BitVec.toNat_ofNat]
      omega
    have hexponent : s = .negative ∨ e ≤ -53 := by
      cases s with
      | negative => exact Or.inl rfl
      | positive => exact Or.inr h
    have hbias : (e + Format.binary64.exponentBias + (52 : ℕ)).toNat = (e + 1075).toNat := by
      simp only [Format.exponentBias]
      omega
    unfold UnpackedFloat.pack
    simp only [hbias]
    by_cases hlarge : 2 ^ 11 ≤ (e + 1075).toNat + 1
    · rw [if_pos hlarge]
      obtain rfl : s = .negative := hexponent.resolve_right (by omega)
      trivial
    · rw [if_neg hlarge]
      split
      · exact slight_components (hcode _ (hexponent.imp_right (by omega)))
      · exact slight_components (hcode 0 (by omega))

/-! ## Small products -/

theorem exponent_shiftToTargetExponent (m : ℕ) (e : ℤ) (acc : Accuracy) :
    (shiftToTargetExponent .binary64 m e acc).2 = max e (max (m.log2 + e - 52) (-1074)) := by
  simp only [shiftToTargetExponent, shiftToExponent, Format.targetExponent, totalExponent,
    Format.mantissaBits, Format.minExponent]
  omega

theorem mantissa_shiftToTargetExponent_lt (m : ℕ) (e : ℤ) (acc : Accuracy) :
    (shiftToTargetExponent .binary64 m e acc).1.mantissa < 2 ^ 53 := by
  simp only [shiftToTargetExponent, shiftToExponent, mantissa_shift,
    mantissa_ofMantissaAndAccuracy, Format.targetExponent, totalExponent, Format.mantissaBits,
    Format.minExponent]
  rw [Nat.div_lt_iff_lt_mul (by positivity), ← pow_add]
  exact Nat.lt_log2_self.trans_le (Nat.pow_le_pow_right two_pos (by omega))

/-- A product far below one is rounded to something slight. -/
theorem slight_round {m : ℕ} {e : ℤ} {s : Sign} (acc : Accuracy)
    (h : s = .negative ∨ m.log2 + e ≤ -100) :
    Slight (roundWithAccuracy .binary64 s m e acc) := by
  unfold roundWithAccuracy
  dsimp only
  split
  · trivial
  · cases s with
    | negative => trivial
    | positive =>
      have hsmall := h.resolve_left nofun
      change (shiftToTargetExponent .binary64 _ _ .exact).2 ≤ -53
      rw [exponent_shiftToTargetExponent, exponent_shiftToTargetExponent]
      -- 53 bits are left after the first shift, and rounding adds one at most
      generalize hr : (shiftToTargetExponent .binary64 m e acc).1.roundedMantissa = r
      have hlog : r.log2 ≤ 53 := by
        have hbits := mantissa_shiftToTargetExponent_lt m e acc
        have hround := roundedMantissa_bounds (shiftToTargetExponent .binary64 m e acc).1
        rw [hr] at hround
        rcases Nat.eq_zero_or_pos r with rfl | hpos
        · decide
        · exact Nat.lt_succ_iff.1 ((Nat.log2_lt (by omega)).2 (by omega))
      omega

/-! ## Products -/

/-- A factor of ordinary size, up to a few roundings. -/
def Ordinary (k : ℕ) (x : Float) (a : ℚ) : Prop :=
  Within k x a ∧ k ≤ 14 ∧ 1 ≤ a ∧ a ≤ 2 ^ 40

theorem toNat_mul_of_slight {x y : Float}
    (h : Slight (UnpackedFloat.mul .binary64 x.toModel.unpack y.toModel.unpack)) :
    (x * y).toUInt64.toNat = 0 :=
  toNat_of_slight (slight_pack h)

theorem Ordinary.unpack {k : ℕ} {x : Float} {a : ℚ} (hx : Ordinary k x a) :
    ∃ n f hn, x.toModel.unpack = .finite .positive n f hn ∧ n < 2 ^ 53 ∧ f < 0 := by
  obtain ⟨⟨n, f, hn, hu, hn1, hn2, -, hx1, -⟩, hk, -, ha⟩ := hx
  refine ⟨n, f, hn, hu, hn2, ?_⟩
  by_contra hf
  have hpow : (1 : ℚ) ≤ 2 ^ f := one_le_zpow₀ one_le_two (by omega)
  have hn0 : (2 ^ 52 : ℚ) ≤ n := by exact_mod_cast hn1
  have hg := (grain_pow_lt (k := k) (by omega)).le
  have hg0 := grain_pos
  have h1 : (2 ^ 52 * 1 : ℚ) ≤ n * 2 ^ f := by gcongr
  have h2 : a * grain ^ k ≤ 2 ^ 40 * 2 := by gcongr
  linarith

/-- A float that makes less than one of every factor, or no number. -/
def Erases (d : Float) : Prop :=
  ∀ k x a, Ordinary k x a → (x * d).toUInt64.toNat = 0

/-- A float that makes too much for 64 bits of every factor. -/
def Fills (d : Float) : Prop :=
  ∀ k x a, Ordinary k x a → (x * d).toUInt64.toNat = 2 ^ 64 - 1

/-- A float that multiplies every factor by a number. -/
def Scales (d : Float) (D : ℚ) : Prop :=
  ∀ k x a, Ordinary k x a → Within (k + 1) (x * d) (a * D)

variable {d : Float}

theorem erases_of_unpack (h : d.toModel.unpack = .notANumber ∨ (∃ s, d.toModel.unpack = .zero s) ∨
    d.toModel.unpack = .infinity .negative) : Erases d := by
  intro k x a hx
  obtain ⟨n, f, hn, hu, -⟩ := hx.unpack
  apply toNat_mul_of_slight
  rcases h with h | ⟨s, h⟩ | h <;> rw [h, hu] <;> trivial

theorem fills_of_infinite (h : Infinite d) : Fills d := by
  intro k x a hx
  obtain ⟨n, f, hn, hu, -⟩ := hx.unpack
  apply Infinite.toNat
  change (Float.Model.pack (UnpackedFloat.mul .binary64 x.toModel.unpack d.toModel.unpack)).unpack = _
  rw [h, hu]
  simp only [UnpackedFloat.mul]
  rfl

/-- A float below zero, or next to nothing. -/
theorem erases_of_finite {s : Sign} {m : ℕ} {e : ℤ} {hm : 0 < m}
    (hd : d.toModel.unpack = .finite s m e hm) (h : s = .negative ∨ e ≤ -300) : Erases d := by
  obtain ⟨hm2, -, -⟩ := unpack_bounds hd
  intro k x a hx
  obtain ⟨n, f, hn, hu, hn2, hf⟩ := hx.unpack
  have hlog : (n * m).log2 < 106 := by
    rw [Nat.log2_lt (Nat.mul_pos hn hm).ne']
    calc n * m < 2 ^ 53 * 2 ^ 53 := Nat.mul_lt_mul'' hn2 hm2
      _ = 2 ^ 106 := by norm_num
  apply toNat_mul_of_slight
  rw [hd, hu]
  refine slight_round .exact (h.imp ?_ ?_)
  · rintro rfl
    rfl
  · intro hsmall
    omega

/-- A float that is not next to nothing multiplies, as far as there are floats. -/
theorem mul_of_finite {m : ℕ} {e : ℤ} {hm : 0 < m}
    (hd : d.toModel.unpack = .finite .positive m e hm) (hlarge : -300 < e) {k : ℕ} {x : Float}
    {a : ℚ} (hx : Ordinary k x a) :
    Within (k + 1) (x * d) (a * (m * 2 ^ e)) ∨ Beyond (x * d) (a * (m * 2 ^ e)) := by
  obtain ⟨hm2, he, hfull⟩ := unpack_bounds hd
  have hm1 : 2 ^ 52 ≤ m := hfull.resolve_right (by omega)
  have hm0 : (1 : ℚ) ≤ m := by exact_mod_cast hm
  have hwithin : Within 0 d (m * 2 ^ e) := ⟨m, e, hm, hd, hm1, hm2, he, by simp, by simp⟩
  obtain ⟨hxa, hk, ha, -⟩ := hx
  refine hxa.mul hwithin (by linarith) (by positivity) (by omega) ?_
  calc (2 ^ (-900 : ℤ) : ℚ) ≤ 2 ^ e := zpow_le_zpow_right₀ one_le_two (by omega)
    _ = 1 * (1 * 2 ^ e) := by ring
    _ ≤ a * (m * 2 ^ e) := by gcongr

/-- A float so large that 64 bits do not hold the product. -/
theorem fills_of_finite {m : ℕ} {e : ℤ} {hm : 0 < m}
    (hd : d.toModel.unpack = .finite .positive m e hm) (hhuge : 65 ≤ e) : Fills d := by
  intro k x a hx
  rcases mul_of_finite hd (by omega) hx with h | ⟨h, -⟩
  · have hk := hx.2.1
    have ha := hx.2.2.1
    have hm0 : (1 : ℚ) ≤ m := by exact_mod_cast hm
    refine h.toNat_eq_of_large (by omega) ?_
    calc (2 ^ 65 : ℚ) = 2 ^ (65 : ℤ) := by norm_num
      _ ≤ 2 ^ e := zpow_le_zpow_right₀ one_le_two hhuge
      _ = 1 * (1 * 2 ^ e) := by ring
      _ ≤ a * (m * 2 ^ e) := by gcongr
  · exact h.toNat

theorem scales_of_finite {m : ℕ} {e : ℤ} {hm : 0 < m}
    (hd : d.toModel.unpack = .finite .positive m e hm) (hlarge : -300 < e) (hmid : e < 65) :
    Scales d (m * 2 ^ e) := by
  intro k x a hx
  refine (mul_of_finite hd hlarge hx).resolve_right ?_
  rintro ⟨-, htop⟩
  have hm0 : (m : ℚ) ≤ 2 ^ 53 := by exact_mod_cast (unpack_bounds hd).1.le
  have he : (2 ^ e : ℚ) ≤ 2 ^ (65 : ℤ) := zpow_le_zpow_right₀ one_le_two hmid.le
  have ha := hx.2.2.2
  have hlt : (a * (m * 2 ^ e) : ℚ) < top := by
    calc (a * (m * 2 ^ e) : ℚ) ≤ 2 ^ 40 * (2 ^ 53 * 2 ^ (65 : ℤ)) := by gcongr
      _ = 2 ^ 158 := by norm_num
      _ < 2 ^ 1023 := pow_lt_pow_right₀ one_lt_two (by norm_num)
      _ = top := by rw [cast_top, topExponent_eq]
  linarith

/-- **A factor makes nothing of all numbers, or the most of all, or multiplies them.** Any float is
one of these, infinity and what is below zero or no number included. -/
theorem product_cases (d : Float) : Erases d ∨ Fills d ∨ ∃ D : ℚ, 0 < D ∧ Scales d D := by
  cases hd : d.toModel.unpack with
  | notANumber => exact Or.inl (erases_of_unpack (Or.inl hd))
  | zero s => exact Or.inl (erases_of_unpack (Or.inr (Or.inl ⟨s, hd⟩)))
  | infinity s =>
    cases s with
    | negative => exact Or.inl (erases_of_unpack (Or.inr (Or.inr hd)))
    | positive => exact Or.inr (Or.inl (fills_of_infinite hd))
  | finite s m e hm =>
    cases s with
    | negative => exact Or.inl (erases_of_finite hd (Or.inl rfl))
    | positive =>
      rcases le_or_gt e (-300) with hsmall | hlarge
      · exact Or.inl (erases_of_finite hd (Or.inr hsmall))
      rcases le_or_gt 65 e with hhuge | hmid
      · exact Or.inr (Or.inl (fills_of_finite hd hhuge))
      · exact Or.inr (Or.inr ⟨m * 2 ^ e, by positivity, scales_of_finite hd hlarge hmid⟩)

end Chiptune.Binary64
