import Mathlib

/-!
# Binary64 arithmetic in exact numbers

Time is counted in frames and interrupts and compared in binary64 seconds. This file follows Lean's
model of `Float` from mantissas and exponents to rational numbers, as far as positive numbers of
ordinary size go.

* `Within k x q`: the float `x` is `q`, up to `k` roundings.
* `roundWithAccuracy_near`: one rounding moves a number by less than a `2 ^ 52`-nd part.
* `ofNat_rounded`, `Within.div`, `Within.mul`: how many roundings a conversion, a quotient and a
  product take.
* `Within.le`, `Within.one_le_toNat`, `Within.toNat_le`: what a comparison and a truncation say about
  the numbers.
-/

namespace Chiptune.Binary64

open Float.Model Float.Model.UnpackedFloat

/-- A rounding changes a number by at most this factor, up or down. -/
def grain : ℚ := 1 + 1 / 2 ^ 52

theorem grain_pos : 0 < grain := by unfold grain; positivity

theorem one_le_grain : 1 ≤ grain := by unfold grain; norm_num

/-! ## Shifts and roundings of mantissas -/

theorem mantissa_shift (em : ExtendedMantissa) (k : ℕ) :
    (em >>> k).mantissa = em.mantissa / 2 ^ k := by
  induction k with
  | zero => exact (Nat.div_one _).symm
  | succ k ih =>
    change (em >>> k).mantissa / 2 = _
    rw [ih, Nat.div_div_eq_div_mul, pow_succ]

theorem mantissa_ofMantissaAndAccuracy (m : ℕ) (acc : Accuracy) :
    (ExtendedMantissa.ofMantissaAndAccuracy m acc).mantissa = m := by
  rcases acc with _ | (_ | _ | _) <;> rfl

theorem roundedMantissa_bounds (em : ExtendedMantissa) :
    em.mantissa ≤ em.roundedMantissa ∧ em.roundedMantissa ≤ em.mantissa + 1 := by
  rcases em with ⟨m, _ | _, _ | _⟩ <;>
    simp [ExtendedMantissa.roundedMantissa, ExtendedMantissa.accuracy, Accuracy.roundToNearestEven]
  omega

/-- A full mantissa has 53 bits. -/
theorem log2_full {m : ℕ} (hm : 2 ^ 52 ≤ m) (hm' : m < 2 ^ 53) : m.log2 = 52 := by
  have h1 := (Nat.le_log2 (by omega)).2 hm
  have h2 := (Nat.log2_lt (by omega)).2 hm'
  omega

/-- A full mantissa is shifted right by as many bits as it has past 53. -/
theorem shiftToTargetExponent_eq {m : ℕ} {e : ℤ} (acc : Accuracy) (hm : 2 ^ 52 ≤ m)
    (he : -1074 ≤ e) :
    shiftToTargetExponent .binary64 m e acc =
      (ExtendedMantissa.ofMantissaAndAccuracy m acc >>> (m.log2 - 52), e + (m.log2 - 52 : ℕ)) := by
  have hl : 52 ≤ m.log2 := (Nat.le_log2 (by omega)).2 hm
  have ht : Format.targetExponent .binary64 (totalExponent m e) - e = (m.log2 - 52 : ℕ) := by
    simp only [Format.targetExponent, totalExponent, Format.mantissaBits, Format.minExponent]
    omega
  unfold shiftToTargetExponent shiftToExponent
  simp only [ht, Int.toNat_natCast]

/-- The first 53 bits of a mantissa are a full mantissa. -/
theorem shift_full {m : ℕ} (hm : 2 ^ 52 ≤ m) :
    2 ^ 52 ≤ m / 2 ^ (m.log2 - 52) ∧ m / 2 ^ (m.log2 - 52) < 2 ^ 53 := by
  have hl : 52 ≤ m.log2 := (Nat.le_log2 (by omega)).2 hm
  constructor
  · rw [Nat.le_div_iff_mul_le (by positivity), ← pow_add, Nat.add_sub_cancel' hl]
    exact Nat.log2_self_le (by omega)
  · rw [Nat.div_lt_iff_lt_mul (by positivity), ← pow_add,
      show 53 + (m.log2 - 52) = m.log2 + 1 by omega]
    exact Nat.lt_log2_self

/-- Only the mantissa `2 ^ 53` has a bit too many after a rounding, and that bit is zero. -/
theorem shift_carry {r : ℕ} (hlo : 2 ^ 52 ≤ r) (hhi : r ≤ 2 ^ 53) (e : ℤ) :
    ((r / 2 ^ (r.log2 - 52) : ℕ) * 2 ^ (e + (r.log2 - 52 : ℕ)) : ℚ) = r * 2 ^ e := by
  rcases Nat.eq_or_lt_of_le hhi with rfl | hlt
  · rw [Nat.log2_two_pow, zpow_add₀ two_ne_zero]
    norm_num
    ring
  · have hl : r.log2 - 52 = 0 := by
      have := (Nat.log2_lt (by omega)).2 hlt
      omega
    simp [hl]

/-- Rounding the first 53 bits of a mantissa changes its value by at most the grain. -/
theorem rounded_near {m r : ℕ} (e : ℤ) (hm : 2 ^ 52 ≤ m) (hlo : m / 2 ^ (m.log2 - 52) ≤ r)
    (hhi : r ≤ m / 2 ^ (m.log2 - 52) + 1) :
    (r * 2 ^ (e + (m.log2 - 52 : ℕ)) : ℚ) ≤ m * 2 ^ e * grain ∧
      ((m + 1) * 2 ^ e : ℚ) ≤ r * 2 ^ (e + (m.log2 - 52 : ℕ)) * grain := by
  obtain ⟨hfull, -⟩ := shift_full hm
  set k := m.log2 - 52
  set p := m / 2 ^ k
  have h1 : p * 2 ^ k ≤ m := Nat.div_mul_le_self m (2 ^ k)
  have h2 : m + 1 ≤ (p + 1) * 2 ^ k := by
    rw [Nat.mul_comm]; exact Nat.lt_mul_div_succ m (by positivity)
  have hg : (p + 1 : ℚ) ≤ p * grain := by
    have : (2 ^ 52 : ℚ) ≤ p := by exact_mod_cast hfull
    unfold grain
    linarith
  have h1 : (p * 2 ^ k : ℚ) ≤ m := by exact_mod_cast h1
  have h2 : (m + 1 : ℚ) ≤ (p + 1) * 2 ^ k := by exact_mod_cast h2
  have hlo : (p : ℚ) ≤ r := by exact_mod_cast hlo
  have hhi : (r : ℚ) ≤ p + 1 := by exact_mod_cast hhi
  have := grain_pos
  rw [zpow_add₀ two_ne_zero, zpow_natCast]
  constructor
  · calc (r * (2 ^ e * 2 ^ k) : ℚ) ≤ p * grain * (2 ^ e * 2 ^ k) := by gcongr; linarith
      _ = p * 2 ^ k * 2 ^ e * grain := by ring
      _ ≤ m * 2 ^ e * grain := by gcongr
  · calc ((m + 1) * 2 ^ e : ℚ) ≤ (p + 1) * 2 ^ k * 2 ^ e := by gcongr
      _ ≤ p * grain * 2 ^ k * 2 ^ e := by gcongr
      _ ≤ r * grain * 2 ^ k * 2 ^ e := by gcongr
      _ = r * (2 ^ e * 2 ^ k) * grain := by ring

/-- A rounded number has a full mantissa, and its value is the rounded first 53 bits. -/
theorem roundWithAccuracy_full {m : ℕ} {e : ℤ} (acc : Accuracy) (hm : 2 ^ 52 ≤ m)
    (he : -1074 ≤ e) :
    let r := (ExtendedMantissa.ofMantissaAndAccuracy m acc >>> (m.log2 - 52)).roundedMantissa
    2 ^ 52 ≤ r ∧ r ≤ 2 ^ 53 ∧ m / 2 ^ (m.log2 - 52) ≤ r ∧ r ≤ m / 2 ^ (m.log2 - 52) + 1 ∧
      ∃ m' e' h, roundWithAccuracy .binary64 .positive m e acc = .finite .positive m' e' h ∧
        2 ^ 52 ≤ m' ∧ m' < 2 ^ 53 ∧ -1074 ≤ e' ∧
        (m' * 2 ^ e' : ℚ) = r * 2 ^ (e + (m.log2 - 52 : ℕ)) := by
  intro r
  obtain ⟨hfull, hfull'⟩ := shift_full hm
  have hb : m / 2 ^ (m.log2 - 52) ≤ r ∧ r ≤ m / 2 ^ (m.log2 - 52) + 1 := by
    have := roundedMantissa_bounds
      (ExtendedMantissa.ofMantissaAndAccuracy m acc >>> (m.log2 - 52))
    rwa [mantissa_shift, mantissa_ofMantissaAndAccuracy] at this
  have hr : 2 ^ 52 ≤ r := by omega
  have hround : roundWithAccuracy .binary64 .positive m e acc =
      if h : r / 2 ^ (r.log2 - 52) = 0 then .zero .positive
      else .finite .positive (r / 2 ^ (r.log2 - 52)) (e + (m.log2 - 52 : ℕ) + (r.log2 - 52 : ℕ))
        (Nat.pos_of_ne_zero h) := by
    unfold roundWithAccuracy
    rw [shiftToTargetExponent_eq acc hm he]
    simp only
    rw [shiftToTargetExponent_eq .exact hr (by omega)]
    simp only [mantissa_shift, mantissa_ofMantissaAndAccuracy, r]
  have hf := shift_full hr
  refine ⟨hr, by omega, hb.1, hb.2, ?_⟩
  rw [hround, dif_neg (by omega)]
  exact ⟨_, _, _, rfl, hf.1, hf.2, by omega, shift_carry hr (by omega) _⟩

/-- **One rounding.** A number between `m * 2 ^ e` and `(m + 1) * 2 ^ e` is rounded to a number with a
full mantissa that differs from it by at most the grain. -/
theorem roundWithAccuracy_near {m : ℕ} {e : ℤ} (acc : Accuracy) (hm : 2 ^ 52 ≤ m)
    (he : -1074 ≤ e) :
    ∃ m' e' h, roundWithAccuracy .binary64 .positive m e acc = .finite .positive m' e' h ∧
      2 ^ 52 ≤ m' ∧ m' < 2 ^ 53 ∧ -1074 ≤ e' ∧
      (m' * 2 ^ e' : ℚ) ≤ m * 2 ^ e * grain ∧ ((m + 1) * 2 ^ e : ℚ) ≤ m' * 2 ^ e' * grain := by
  obtain ⟨-, -, hlo, hhi, m', e', h, hround, h1, h2, h3, hvalue⟩ := roundWithAccuracy_full acc hm he
  refine ⟨m', e', h, hround, h1, h2, h3, ?_⟩
  rw [hvalue]
  exact rounded_near e hm hlo hhi

/-! ## Packed numbers -/

theorem unpackSign_packComponents {spec : Format} {sign exponent mantissa} :
    unpackSign (packComponents spec sign exponent mantissa) = sign.toBitVec := by
  ext i hi
  obtain rfl : i = 0 := by omega
  simp [unpackSign, packComponents, BitVec.getLsbD_append, BitVec.getLsbD_eq_getElem,
    BitVec.getElem_append]

/-- A full mantissa is stored without its first bit, which is put back when it is read. -/
theorem unpack_components {m b : ℕ} (hm : 2 ^ 52 ≤ m) (hm' : m < 2 ^ 53) (hb : 1 ≤ b)
    (hb' : b < 2047) :
    unpack .binary64 (packComponents .binary64 .positive (BitVec.ofNat 11 b) (BitVec.ofNat 52 m)) =
      .finite .positive m ((b : ℤ) - 1075) (by omega) := by
  have hnat : (BitVec.ofNat 11 b).toNat = b := by
    rw [BitVec.toNat_ofNat]; exact Nat.mod_eq_of_lt (by omega)
  have hinf : BitVec.ofNat 11 b ≠ -1#11 := fun h => by
    have := congrArg BitVec.toNat h
    rw [hnat] at this
    simp at this
    omega
  have hzero : BitVec.ofNat 11 b ≠ 0#11 := fun h => by
    have := congrArg BitVec.toNat h
    rw [hnat] at this
    simp at this
    omega
  have hlow : (BitVec.ofNat 52 m).toNat = m - 2 ^ 52 := by
    rw [BitVec.toNat_ofNat]; omega
  have hbits : (1#1 ++ BitVec.ofNat 52 m).toNat = m := by
    rw [BitVec.toNat_append, ← Nat.shiftLeft_add_eq_or_of_lt (BitVec.isLt _), hlow]
    simp only [BitVec.toNat_ofNat]
    omega
  unfold UnpackedFloat.unpack
  simp only [unpackExponent_packComponents, unpackMantissa_packComponents,
    unpackSign_packComponents, hinf, hzero, if_false, hnat, hbits]
  rfl

/-- What is read of a packed number: the number itself, or infinity where the exponent is too
large. -/
theorem unpack_pack {m : ℕ} {e : ℤ} (h : 0 < m) (hm : 2 ^ 52 ≤ m) (hm' : m < 2 ^ 53)
    (he : -1074 ≤ e) :
    (Float.Model.pack (.finite .positive m e h)).unpack =
      if e ≤ 971 then .finite .positive m e h else .infinity .positive := by
  have hlog : m.log2 + 1 = 53 := by rw [log2_full hm hm']
  obtain ⟨b, hb⟩ : ∃ b : ℕ, e = (b : ℤ) - 1075 := ⟨(e + 1075).toNat, by omega⟩
  subst hb
  have hbias : ((b : ℤ) - 1075 + Format.binary64.exponentBias + (52 : ℕ)).toNat = b := by
    simp only [Format.exponentBias]
    omega
  unfold Float.Model.unpack Float.Model.pack UnpackedFloat.pack
  simp only [hlog, hbias, Format.mantissaBits]
  by_cases hlarge : 2 ^ 11 ≤ b + 1
  · rw [if_pos hlarge, if_neg (by omega)]
    rfl
  · rw [if_neg hlarge, if_pos trivial, if_pos (by omega)]
    exact unpack_components hm hm' (by omega) (by omega)

/-! ## Numbers up to some roundings -/

/-- **The number `q` up to `k` roundings**: a positive number with a full mantissa that is off by the
grain `k` times at most. -/
def Within (k : ℕ) (x : Float) (q : ℚ) : Prop :=
  ∃ m e h, x.toModel.unpack = .finite .positive m e h ∧ 2 ^ 52 ≤ m ∧ m < 2 ^ 53 ∧ e ≤ 971 ∧
    (m * 2 ^ e : ℚ) ≤ q * grain ^ k ∧ q ≤ m * 2 ^ e * grain ^ k

/-- Positive infinity. -/
def Infinite (x : Float) : Prop :=
  x.toModel.unpack = .infinity .positive

/-- Positive zero. -/
def Null (x : Float) : Prop :=
  x.toModel.unpack = .zero .positive

/-- The largest exponent of a power of two among the floats. -/
@[irreducible]
def topExponent : ℕ := 1023

theorem topExponent_eq : topExponent = 1023 := by rw [topExponent]

/-- The largest power of two among the floats. -/
def top : ℕ := 2 ^ topExponent

theorem cast_top : (top : ℚ) = 2 ^ topExponent := by
  rw [top, Nat.cast_pow, Nat.cast_ofNat]

theorem lt_top {n : ℕ} (h : n < 2 ^ 64) : n < top :=
  lt_of_lt_of_le h (Nat.pow_le_pow_right two_pos (by rw [topExponent_eq]; norm_num))

theorem top_pos : 0 < top := lt_top (by norm_num)

/-- A number past all floats, which is rounded to infinity. -/
def Beyond (x : Float) (q : ℚ) : Prop :=
  Infinite x ∧ top ≤ q

theorem Within.mono {j k : ℕ} {x : Float} {q : ℚ} (h : Within j x q) (hjk : j ≤ k) (hq : 0 < q) :
    Within k x q := by
  obtain ⟨m, e, hm, hx, h1, h2, he, h3, h4⟩ := h
  have hg : grain ^ j ≤ grain ^ k := pow_le_pow_right₀ one_le_grain hjk
  refine ⟨m, e, hm, hx, h1, h2, he, h3.trans ?_, h4.trans ?_⟩ <;> gcongr

/-- A few roundings do not even double a number. -/
theorem grain_pow_lt {k : ℕ} (hk : k ≤ 16) : grain ^ k < 2 :=
  lt_of_le_of_lt (pow_le_pow_right₀ one_le_grain hk) (by unfold grain; norm_num)

/-- The exponent of a number of ordinary size. -/
theorem lt_exponent {m b : ℕ} {e a : ℤ} (hm : m < 2 ^ b) (h : (2 ^ a : ℚ) ≤ m * 2 ^ e) : a < b + e := by
  have hm' : (m : ℚ) < 2 ^ b := by exact_mod_cast hm
  have hlt : (2 ^ a : ℚ) < 2 ^ ((b : ℤ) + e) := by
    rw [zpow_add₀ two_ne_zero, zpow_natCast]
    exact lt_of_le_of_lt h (by gcongr)
  exact (zpow_lt_zpow_iff_right₀ one_lt_two).1 hlt

/-- A number of ordinary size stays so under a few roundings. -/
theorem size_of_near {k : ℕ} {q w : ℚ} (hk : k ≤ 16) (hw : 0 ≤ w) (hsize : 2 ^ (-900 : ℤ) ≤ q)
    (h : q ≤ w * grain ^ k) : (2 ^ (-901 : ℤ) : ℚ) ≤ w := by
  have h2 : w * grain ^ k ≤ w * 2 := by gcongr; exact (grain_pow_lt hk).le
  have h3 : (2 ^ (-900 : ℤ) : ℚ) = 2 ^ (-901 : ℤ) * 2 := by
    rw [← zpow_add_one₀ two_ne_zero]; rfl
  exact le_of_mul_le_mul_right (h3 ▸ hsize.trans (h.trans h2)) two_pos

/-- **A rounded number** is off by one more grain, or past all floats. -/
theorem rounded {m k : ℕ} {e : ℤ} {q : ℚ} (acc : Accuracy) (hm : 2 ^ 52 ≤ m) (he : -1074 ≤ e)
    (hk : k ≤ 15) (hlo : (m * 2 ^ e : ℚ) ≤ q * grain ^ k) (hhi : q ≤ (m + 1) * 2 ^ e * grain ^ k) :
    Within (k + 1) ⟨.pack (roundWithAccuracy .binary64 .positive m e acc)⟩ q ∨
      Beyond ⟨.pack (roundWithAccuracy .binary64 .positive m e acc)⟩ q := by
  obtain ⟨m', e', h, hr, h1, h2, h3, h4, h5⟩ := roundWithAccuracy_near acc hm he
  have hg := grain_pos
  have hv1 : (m' * 2 ^ e' : ℚ) ≤ q * grain ^ (k + 1) := by
    calc (m' * 2 ^ e' : ℚ) ≤ m * 2 ^ e * grain := h4
      _ ≤ q * grain ^ k * grain := by gcongr
      _ = q * grain ^ (k + 1) := by ring
  have hv2 : q ≤ m' * 2 ^ e' * grain ^ (k + 1) := by
    calc q ≤ (m + 1) * 2 ^ e * grain ^ k := hhi
      _ ≤ m' * 2 ^ e' * grain * grain ^ k := by gcongr
      _ = m' * 2 ^ e' * grain ^ (k + 1) := by ring
  have hu := unpack_pack h h1 h2 h3
  rw [hr]
  by_cases hlarge : e' ≤ 971
  · left
    rw [if_pos hlarge] at hu
    exact ⟨m', e', h, hu, h1, h2, hlarge, hv1, hv2⟩
  · right
    rw [if_neg hlarge] at hu
    refine ⟨hu, ?_⟩
    have hm' : (2 ^ 52 : ℚ) ≤ m' := by exact_mod_cast h1
    have he' : (2 ^ (972 : ℤ) : ℚ) ≤ 2 ^ e' := zpow_le_zpow_right₀ one_le_two (by omega)
    have hbig : (top * 2 : ℚ) ≤ q * grain ^ (k + 1) := by
      calc (top * 2 : ℚ) = 2 ^ 52 * 2 ^ (972 : ℤ) := by
            rw [cast_top, ← pow_succ, zpow_ofNat, ← pow_add, topExponent_eq]
        _ ≤ m' * 2 ^ e' := by gcongr
        _ ≤ q * grain ^ (k + 1) := hv1
    have hq : 0 < q :=
      pos_of_mul_pos_left (lt_of_lt_of_le (by exact_mod_cast Nat.mul_pos top_pos two_pos) hbig)
        (by positivity)
    have hdouble : q * grain ^ (k + 1) ≤ q * 2 := by gcongr; exact (grain_pow_lt (by omega)).le
    exact le_of_mul_le_mul_right (hbig.trans hdouble) two_pos

/-! ## Operations -/

/-- A product is the rounded product of the mantissas. -/
theorem mul_eq_round {x y : Float} {m n : ℕ} {e f : ℤ} {hm : 0 < m} {hn : 0 < n}
    (hx : x.toModel.unpack = .finite .positive m e hm)
    (hy : y.toModel.unpack = .finite .positive n f hn) :
    x * y = ⟨.pack (roundWithAccuracy .binary64 .positive (m * n) (e + f) .exact)⟩ := by
  change Float.ofModel (.pack (UnpackedFloat.mul .binary64 x.toModel.unpack y.toModel.unpack)) = _
  rw [hx, hy]
  rfl

/-- **A product** takes one more rounding than its factors. -/
theorem Within.mul {j k : ℕ} {x y : Float} {a b : ℚ} (hx : Within j x a) (hy : Within k y b)
    (ha : 0 < a) (hb : 0 < b) (hjk : j + k ≤ 15) (hsize : 2 ^ (-900 : ℤ) ≤ a * b) :
    Within (j + k + 1) (x * y) (a * b) ∨ Beyond (x * y) (a * b) := by
  obtain ⟨m, e, hm, hxu, hm1, hm2, -, hx1, hx2⟩ := hx
  obtain ⟨n, f, hn, hyu, hn1, hn2, -, hy1, hy2⟩ := hy
  have hg := grain_pos
  have hlo : ((m * n : ℕ) * 2 ^ (e + f) : ℚ) ≤ a * b * grain ^ (j + k) := by
    rw [zpow_add₀ two_ne_zero, Nat.cast_mul]
    calc (m * n * (2 ^ e * 2 ^ f) : ℚ) = m * 2 ^ e * (n * 2 ^ f) := by ring
      _ ≤ a * grain ^ j * (b * grain ^ k) := by gcongr
      _ = a * b * grain ^ (j + k) := by ring
  have hhi : a * b ≤ (m * n : ℕ) * 2 ^ (e + f) * grain ^ (j + k) := by
    rw [zpow_add₀ two_ne_zero, Nat.cast_mul]
    calc a * b ≤ m * 2 ^ e * grain ^ j * (n * 2 ^ f * grain ^ k) := by gcongr
      _ = m * n * (2 ^ e * 2 ^ f) * grain ^ (j + k) := by ring
  have he : (-901 : ℤ) < (106 : ℕ) + (e + f) := by
    apply lt_exponent (m := m * n)
    · calc m * n < 2 ^ 53 * 2 ^ 53 := Nat.mul_lt_mul'' hm2 hn2
        _ = 2 ^ 106 := by norm_num
    · exact size_of_near (by omega) (by positivity) hsize hhi
  have hfull : 2 ^ 52 ≤ m * n := hm1.trans (Nat.le_mul_of_pos_right m hn)
  rw [mul_eq_round hxu hyu]
  refine rounded .exact hfull (by omega) hjk hlo (hhi.trans ?_)
  gcongr
  linarith

/-- Full mantissas are divided after the first was moved up by 53 bits. -/
theorem divCore_full {m n : ℕ} {e f : ℤ} (hm : 2 ^ 52 ≤ m) (hm' : m < 2 ^ 53) (hn : 2 ^ 52 ≤ n)
    (hn' : n < 2 ^ 53) (hef : -1021 ≤ e - f) :
    divCore .binary64 m e n f =
      ((m <<< 53) / n, e - f - 53, accuracyOfFraction ((m <<< 53) % n) n) := by
  have ht : min (e - f) (Format.targetExponent .binary64 (totalExponent m e - totalExponent n f)) =
      e - f - 53 := by
    simp only [Format.targetExponent, totalExponent, Format.mantissaBits, Format.minExponent,
      log2_full hm hm', log2_full hn hn']
    omega
  have hs : (e - f - (e - f - 53)).toNat = 53 := by omega
  simp only [divCore, ht, hs]

/-- A quotient is the rounded quotient of the mantissas. -/
theorem div_eq_round {x y : Float} {m n : ℕ} {e f : ℤ} {hm : 0 < m} {hn : 0 < n}
    (hx : x.toModel.unpack = .finite .positive m e hm) (hm1 : 2 ^ 52 ≤ m) (hm2 : m < 2 ^ 53)
    (hy : y.toModel.unpack = .finite .positive n f hn) (hn1 : 2 ^ 52 ≤ n) (hn2 : n < 2 ^ 53)
    (hef : -1021 ≤ e - f) :
    x / y = ⟨.pack (roundWithAccuracy .binary64 .positive ((m <<< 53) / n) (e - f - 53)
      (accuracyOfFraction ((m <<< 53) % n) n))⟩ := by
  change Float.ofModel (.pack (UnpackedFloat.div .binary64 x.toModel.unpack y.toModel.unpack)) = _
  rw [hx, hy]
  simp only [UnpackedFloat.div, divCore_full hm1 hm2 hn1 hn2 hef]
  rfl

/-- A quotient of full mantissas, moved up by 53 bits, is a full mantissa. -/
theorem quotient_full {m n : ℕ} (hm : 2 ^ 52 ≤ m) (hn : 0 < n) (hn' : n < 2 ^ 53) :
    2 ^ 52 ≤ (m <<< 53) / n := by
  rw [Nat.le_div_iff_mul_le hn, Nat.shiftLeft_eq]
  nlinarith

/-- **A quotient** takes one more rounding than its terms. -/
theorem Within.div {j k : ℕ} {x y : Float} {a b : ℚ} (hx : Within j x a) (hy : Within k y b)
    (ha : 0 < a) (hb : 0 < b) (hjk : j + k ≤ 15) (hsize : 2 ^ (-900 : ℤ) ≤ a / b) :
    Within (j + k + 1) (x / y) (a / b) ∨ Beyond (x / y) (a / b) := by
  obtain ⟨m, e, hm, hxu, hm1, hm2, -, hx1, hx2⟩ := hx
  obtain ⟨n, f, hn, hyu, hn1, hn2, -, hy1, hy2⟩ := hy
  have hg := grain_pos
  have hn0 : (0 : ℚ) < n := by exact_mod_cast hn
  have hm0 : (0 : ℚ) < m := by exact_mod_cast hm
  set p := (m <<< 53) / n with hp
  -- the truncated quotient of the mantissas
  have hp1 : (p : ℚ) ≤ m * 2 ^ 53 / n := by
    rw [le_div_iff₀ hn0]
    exact_mod_cast (Nat.div_mul_le_self _ n).trans_eq (Nat.shiftLeft_eq m 53)
  have hp2 : (m * 2 ^ 53 / n : ℚ) ≤ p + 1 := by
    rw [div_le_iff₀ hn0]
    have : m * 2 ^ 53 ≤ (p + 1) * n := by
      rw [← Nat.shiftLeft_eq, Nat.mul_comm]
      exact (Nat.lt_mul_div_succ _ hn).le
    exact_mod_cast this
  have hquot : (m * 2 ^ 53 / n : ℚ) * 2 ^ (e - f - 53) = m * 2 ^ e / (n * 2 ^ f) := by
    rw [zpow_sub₀ two_ne_zero, zpow_sub₀ two_ne_zero, zpow_ofNat]
    field_simp
  have hlo : (p * 2 ^ (e - f - 53) : ℚ) ≤ a / b * grain ^ (j + k) := by
    calc (p * 2 ^ (e - f - 53) : ℚ) ≤ m * 2 ^ 53 / n * 2 ^ (e - f - 53) := by gcongr
      _ = m * 2 ^ e / (n * 2 ^ f) := hquot
      _ ≤ a * grain ^ j / (b / grain ^ k) := by
        gcongr
        rw [div_le_iff₀ (by positivity)]
        exact hy2
      _ = a / b * grain ^ (j + k) := by field_simp; ring
  have hhi' : a / b ≤ m * 2 ^ e / (n * 2 ^ f) * grain ^ (j + k) := by
    calc a / b ≤ m * 2 ^ e * grain ^ j / (n * 2 ^ f / grain ^ k) := by
          gcongr
          rw [div_le_iff₀ (by positivity)]
          exact hy1
      _ = m * 2 ^ e / (n * 2 ^ f) * grain ^ (j + k) := by field_simp; ring
  have hhi : a / b ≤ (p + 1) * 2 ^ (e - f - 53) * grain ^ (j + k) := by
    refine hhi'.trans ?_
    rw [← hquot]
    gcongr
  have he : (-901 : ℤ) < (2 : ℕ) + (e - f) := by
    apply lt_exponent (m := 2) (by norm_num)
    refine (size_of_near (by omega) (by positivity) hsize hhi').trans ?_
    have hmn : (m : ℚ) ≤ 2 * n := by exact_mod_cast (by omega : m ≤ 2 * n)
    rw [zpow_sub₀ two_ne_zero, Nat.cast_ofNat, ← mul_div_assoc, div_le_div_iff₀ (by positivity)
      (by positivity)]
    calc (m * 2 ^ e * 2 ^ f : ℚ) ≤ 2 * n * 2 ^ e * 2 ^ f := by gcongr
      _ = 2 * 2 ^ e * (n * 2 ^ f) := by ring
  rw [div_eq_round hxu hm1 hm2 hyu hn1 hn2 (by omega)]
  exact rounded _ (quotient_full hm1 hn hn2) (by omega) hjk hlo hhi

/-- Infinity divided by a number is infinity. -/
theorem Infinite.div {k : ℕ} {x y : Float} {b : ℚ} (hx : Infinite x) (hy : Within k y b) :
    Infinite (x / y) := by
  obtain ⟨n, f, hn, hyu, -⟩ := hy
  change (Float.Model.pack (UnpackedFloat.div .binary64 x.toModel.unpack y.toModel.unpack)).unpack = _
  rw [hx, hyu]
  simp only [UnpackedFloat.div]
  rfl

/-- Zero divided by a number is zero. -/
theorem Null.div {k : ℕ} {x y : Float} {b : ℚ} (hx : Null x) (hy : Within k y b) : Null (x / y) := by
  obtain ⟨n, f, hn, hyu, -⟩ := hy
  change (Float.Model.pack (UnpackedFloat.div .binary64 x.toModel.unpack y.toModel.unpack)).unpack = _
  rw [hx, hyu]
  simp only [UnpackedFloat.div]
  rfl

/-- Zero, or a number of ordinary size. -/
def Sized (x : Float) : Prop :=
  Null x ∨ ∃ k q, Within k x q

/-- A product with zero is zero. -/
theorem Null.mul {x y : Float} (hx : Sized x) (hy : Sized y) (h : Null x ∨ Null y) :
    Null (x * y) := by
  change (Float.Model.pack (UnpackedFloat.mul .binary64 x.toModel.unpack y.toModel.unpack)).unpack = _
  rcases hx with hx | ⟨-, -, m, e, hm, hx, -⟩ <;> rcases hy with hy | ⟨-, -, n, f, hn, hy, -⟩
  case inr.inr => rcases h with h | h <;> simp only [Null, hx, hy, reduceCtorEq] at h
  all_goals
    rw [hx, hy]
    simp only [UnpackedFloat.mul]
    rfl

/-! ## Conversions -/

/-- A whole number, moved up to a full mantissa, is rounded once. -/
theorem shifted_rounded {n s : ℕ} (hs : s ≤ 1000) (hfull : 2 ^ 52 ≤ n <<< s) :
    Within 1 ⟨.pack (roundWithAccuracy .binary64 .positive (n <<< s) (-s) .exact)⟩ n ∨
      Beyond ⟨.pack (roundWithAccuracy .binary64 .positive (n <<< s) (-s) .exact)⟩ n := by
  have hv : ((n <<< s : ℕ) * 2 ^ (-s : ℤ) : ℚ) = n := by
    rw [Nat.shiftLeft_eq, zpow_neg, zpow_natCast, Nat.cast_mul, Nat.cast_pow, Nat.cast_ofNat]
    field_simp
  have hpos : (0 : ℚ) < 2 ^ (-s : ℤ) := by positivity
  refine rounded (k := 0) .exact hfull (by omega) (by omega) ?_ ?_
  · rw [hv, pow_zero, mul_one]
  · rw [add_mul, hv, pow_zero]
    linarith

/-- A whole number of at most 53 bits is moved up to a full mantissa. -/
theorem toFloat_eq_round {n : ℕ} (hn : 0 < n) (hn' : n < 2 ^ 53) :
    n.toUInt64.toFloat = ⟨.pack (roundWithAccuracy .binary64 .positive (n <<< (52 - n.log2))
      (-(52 - n.log2 : ℕ)) .exact)⟩ ∧ 2 ^ 52 ≤ n <<< (52 - n.log2) := by
  have hl : n.log2 ≤ 52 := by
    have := (Nat.log2_lt (by omega)).2 hn'
    omega
  have ht : Format.targetExponent .binary64 (totalExponent n 0) = (n.log2 : ℤ) - 52 := by
    simp only [Format.targetExponent, totalExponent, Format.mantissaBits, Format.minExponent]
    omega
  have hs : (-((n.log2 : ℤ) - 52)).toNat = 52 - n.log2 := by omega
  constructor
  · have hnat : n.toUInt64.toNat = n := by
      rw [Nat.toUInt64_eq, UInt64.toNat_ofNat']
      exact Nat.mod_eq_of_lt (by omega)
    have hcmp : compare (n : ℤ) 0 = .gt := Int.compare_eq_gt.2 (by omega)
    change Float.ofModel (.pack (UnpackedFloat.ofNat .binary64 n.toUInt64.toNat)) = _
    simp only [hnat, UnpackedFloat.ofNat, UnpackedFloat.ofInt, UnpackedFloat.normalize, hcmp,
      UnpackedFloat.round, decreaseExponent, ht, hs, Int.toNat_natCast, zero_sub]
  · rw [Nat.shiftLeft_eq]
    calc 2 ^ 52 = 2 ^ n.log2 * 2 ^ (52 - n.log2) := by rw [← pow_add, Nat.add_sub_cancel' hl]
      _ ≤ n * 2 ^ (52 - n.log2) := by gcongr; exact Nat.log2_self_le (by omega)

/-- A whole number of at most 53 bits is rounded once. -/
theorem toFloat_within {n : ℕ} (hn : 0 < n) (hn' : n < 2 ^ 53) : Within 1 n.toUInt64.toFloat n := by
  obtain ⟨hx, hfull⟩ := toFloat_eq_round hn hn'
  rw [hx]
  rcases shifted_rounded (by omega) hfull with h | ⟨-, h⟩
  · exact h
  · have : top ≤ n := by exact_mod_cast h
    exact absurd (lt_top (by omega : n < 2 ^ 64)) (by omega)

theorem one_within : Within 0 (.ofBits 0x3FF0000000000000) 1 :=
  ⟨2 ^ 52, -52, by norm_num, rfl, by norm_num, by norm_num, by norm_num, by norm_num, by norm_num⟩

theorem two_within : Within 0 2.0 2 :=
  ⟨2 ^ 52, -51, by norm_num, rfl, by norm_num, by norm_num, by norm_num, by norm_num, by norm_num⟩

theorem ofScientific_large {n : ℕ} (hn : 0 < n) :
    Float.Model.ofScientific n 0 =
      .pack (roundWithAccuracy .binary64 .positive (n <<< 53) (-(53 : ℕ)) .exact) := by
  unfold Float.Model.ofScientific UnpackedFloat.ofScientific
  rw [dif_neg (by omega), if_neg (by norm_num), if_neg (by norm_num), if_pos le_rfl]
  simp only [UnpackedFloat.mul, Int.toNat_zero, pow_zero, mul_one, add_zero]
  rfl

/-- **A positive whole number** is rounded at most twice, or past all floats. -/
theorem ofNat_rounded {n : ℕ} (hn : 0 < n) :
    Within 2 (Float.ofNat n) n ∨ Beyond (Float.ofNat n) n := by
  have hn0 : (0 : ℚ) < n := by exact_mod_cast hn
  unfold Float.ofNat
  change Within 2 (Float.ofScientific n false 0) n ∨ Beyond (Float.ofScientific n false 0) n
  unfold Float.ofScientific
  by_cases hsmall : n < 2 ^ 53
  · -- such a number is multiplied by a power of ten, here by one
    rw [dif_pos ⟨hsmall, by norm_num⟩]
    have hsize : (2 ^ (-900 : ℤ) : ℚ) ≤ n * 1 := by
      rw [mul_one]
      exact (zpow_le_one_of_nonpos₀ one_le_two (by norm_num)).trans (by exact_mod_cast hn)
    have h := (toFloat_within hn hsmall).mul one_within hn0 one_pos (by norm_num) hsize
    rwa [mul_one] at h
  · rw [dif_neg (by tauto)]
    change Within 2 ⟨Float.Model.ofScientific n 0⟩ n ∨ Beyond ⟨Float.Model.ofScientific n 0⟩ n
    rw [ofScientific_large hn]
    have hfull : 2 ^ 52 ≤ n <<< 53 := by rw [Nat.shiftLeft_eq]; omega
    exact (shifted_rounded (by norm_num) hfull).imp_left (·.mono (by norm_num) hn0)

theorem ofNat_within {n : ℕ} (hn : 0 < n) (hn' : n < top) : Within 2 (Float.ofNat n) n := by
  rcases ofNat_rounded hn with h | ⟨-, h⟩
  · exact h
  · exact absurd (by exact_mod_cast h) (not_le.2 hn')

/-- What a float can hold. -/
theorem Within.lt {k : ℕ} {x : Float} {q : ℚ} (hx : Within k x q) (hk : k ≤ 16) : q < 4 * top := by
  obtain ⟨m, e, hm, -, -, hm2, he, -, hx2⟩ := hx
  have hm' : (m : ℚ) < 2 ^ 53 := by exact_mod_cast hm2
  have he' : (2 ^ e : ℚ) ≤ 2 ^ 971 := by
    rw [← zpow_ofNat]; exact zpow_le_zpow_right₀ one_le_two he
  have hpos : (0 : ℚ) < 2 ^ e := by positivity
  have hg := grain_pow_lt hk
  calc q ≤ m * 2 ^ e * grain ^ k := hx2
    _ ≤ m * 2 ^ e * 2 := by gcongr
    _ < 2 ^ 53 * 2 ^ e * 2 := by gcongr
    _ ≤ 2 ^ 53 * 2 ^ 971 * 2 := by gcongr
    _ = 2 ^ 2 * top := by rw [cast_top, ← pow_add, ← pow_succ, ← pow_add, topExponent_eq]
    _ = 4 * top := by norm_num

/-- A whole number past all floats is infinity. -/
theorem ofNat_infinite {n : ℕ} (hn : 4 * top ≤ n) : Infinite (Float.ofNat n) := by
  have hpos : 0 < n := by have := top_pos; omega
  rcases ofNat_rounded hpos with h | ⟨h, -⟩
  · exact absurd (by exact_mod_cast hn) (not_le.2 (h.lt (by norm_num)))
  · exact h

theorem null_ofNat_zero : Null (Float.ofNat 0) := rfl

/-! ## Comparisons and truncation -/

theorem le_iff (x y : Float) : x ≤ y ↔ (x.toModel.unpack.compare y.toModel.unpack).any (·.isLE) := by
  change decide (x.toModel.unpack.le y.toModel.unpack = true) = true ↔ _
  rw [decide_eq_true_iff]
  rfl

/-- A number from zero on, or infinity. -/
def Proper (x : Float) : Prop :=
  Null x ∨ (∃ k q, Within k x q) ∨ Infinite x

/-- Nothing is below zero. -/
theorem Null.le {x y : Float} (hx : Null x) (hy : Proper y) : x ≤ y := by
  rw [le_iff, hx]
  rcases hy with h | ⟨k, q, m, e, hm, h, -⟩ | h <;> rw [h] <;> rfl

/-- Nothing is above infinity. -/
theorem Proper.le_infinite {x y : Float} (hx : Proper x) (hy : Infinite y) : x ≤ y := by
  rw [le_iff, hy]
  rcases hx with h | ⟨k, q, m, e, hm, h, -⟩ | h <;> rw [h] <;> rfl

/-- One more in the exponent outweighs every mantissa. -/
theorem value_lt_of_exponent {m n : ℕ} {e f : ℤ} (hm : m < 2 ^ 53) (hn : 2 ^ 52 ≤ n) (h : e < f) :
    (m * 2 ^ e : ℚ) < n * 2 ^ f := by
  have hpow : (2 ^ e * 2 : ℚ) ≤ 2 ^ f := by
    rw [← zpow_add_one₀ two_ne_zero]
    exact zpow_le_zpow_right₀ one_le_two (by omega)
  have hm' : (m : ℚ) < 2 ^ 53 := by exact_mod_cast hm
  have hn' : (2 ^ 52 : ℚ) ≤ n := by exact_mod_cast hn
  calc (m * 2 ^ e : ℚ) < 2 ^ 53 * 2 ^ e := by gcongr
    _ = 2 ^ 52 * (2 ^ e * 2) := by ring
    _ ≤ n * 2 ^ f := by gcongr

/-- **Floats are ordered as their values are.** -/
theorem le_iff_value {x y : Float} {m n : ℕ} {e f : ℤ} {hm : 0 < m} {hn : 0 < n}
    (hx : x.toModel.unpack = .finite .positive m e hm) (hm1 : 2 ^ 52 ≤ m) (hm2 : m < 2 ^ 53)
    (hy : y.toModel.unpack = .finite .positive n f hn) (hn1 : 2 ^ 52 ≤ n) (hn2 : n < 2 ^ 53) :
    x ≤ y ↔ (m * 2 ^ e : ℚ) ≤ n * 2 ^ f := by
  rw [le_iff, hx, hy]
  rcases lt_trichotomy e f with hef | rfl | hef
  · simp only [UnpackedFloat.compare, Int.compare_eq_lt.2 hef]
    simpa using (value_lt_of_exponent hm2 hn1 hef).le
  · have hvalue : (m * 2 ^ e : ℚ) ≤ n * 2 ^ e ↔ m ≤ n := by
      rw [mul_le_mul_iff_left₀ (by positivity), Nat.cast_le]
    simp only [UnpackedFloat.compare, Std.ReflOrd.compare_self, hvalue]
    simp [Nat.isLE_compare]
  · simp only [UnpackedFloat.compare, Int.compare_eq_gt.2 hef]
    simpa using value_lt_of_exponent hn2 hm1 hef

/-- **Floats are ordered as the numbers they are rounded from**, where these lie far enough apart. -/
theorem Within.le {j k : ℕ} {x y : Float} {a b : ℚ} (hx : Within j x a) (hy : Within k y b)
    (h : a * grain ^ (j + k) ≤ b) : x ≤ y := by
  obtain ⟨m, e, hm, hxu, hm1, hm2, -, hx1, -⟩ := hx
  obtain ⟨n, f, hn, hyu, hn1, hn2, -, -, hy2⟩ := hy
  have hg := grain_pos
  rw [le_iff_value hxu hm1 hm2 hyu hn1 hn2]
  have : (m * 2 ^ e : ℚ) * grain ^ k ≤ n * 2 ^ f * grain ^ k := by
    calc (m * 2 ^ e : ℚ) * grain ^ k ≤ a * grain ^ j * grain ^ k := by gcongr
      _ = a * grain ^ (j + k) := by ring
      _ ≤ n * 2 ^ f * grain ^ k := h.trans hy2
  exact le_of_mul_le_mul_right this (by positivity)

/-- The whole part of a positive number. -/
theorem roundToInt_eq {m : ℕ} {e : ℤ} :
    roundToInt .positive m e = ((m <<< e.toNat / 2 ^ (-e).toNat : ℕ) : ℤ) := by
  have hs : (0 - (e - (e.toNat : ℤ))).toNat = (-e).toNat := by omega
  unfold roundToInt decreaseExponent shiftToExponent
  simp only [sub_zero, hs, mantissa_shift, mantissa_ofMantissaAndAccuracy, Sign.apply]

theorem toUInt64_eq {x : Float} {m : ℕ} {e : ℤ} {h : 0 < m}
    (hx : x.toModel.unpack = .finite .positive m e h) :
    x.toUInt64 = UInt64.ofNatClamp (m <<< e.toNat / 2 ^ (-e).toNat) := by
  change x.toModel.unpack.toUInt64 = _
  rw [hx]
  simp only [UnpackedFloat.toUInt64, UnpackedFloat.toInt, roundToInt_eq, Int.toNat_natCast]

theorem toNat_ofNatClamp (n : ℕ) : (UInt64.ofNatClamp n).toNat = min n (2 ^ 64 - 1) := by
  have hsize : UInt64.size = 2 ^ 64 := rfl
  unfold UInt64.ofNatClamp
  split
  · rename_i hsmall
    rw [UInt64.toNat_ofNatLT, min_eq_left (by omega)]
  · rename_i hlarge
    rw [UInt64.toNat_ofNatLT, min_eq_right (by omega)]
    rfl

/-- **Truncation** drops what is behind the point, and stops at the largest number of 64 bits. -/
theorem toNat_toUInt64 {x : Float} {m : ℕ} {e : ℤ} {h : 0 < m}
    (hx : x.toModel.unpack = .finite .positive m e h) :
    x.toUInt64.toNat = min ⌊(m * 2 ^ e : ℚ)⌋₊ (2 ^ 64 - 1) := by
  have hfloor : m <<< e.toNat / 2 ^ (-e).toNat = ⌊(m * 2 ^ e : ℚ)⌋₊ := by
    rcases le_total 0 e with he | he
    · obtain ⟨n, rfl⟩ : ∃ n : ℕ, e = n := ⟨e.toNat, by omega⟩
      have hvalue : (m * 2 ^ (n : ℤ) : ℚ) = (m * 2 ^ n : ℕ) := by
        rw [zpow_natCast, Nat.cast_mul, Nat.cast_pow, Nat.cast_ofNat]
      rw [hvalue, Nat.floor_natCast]
      simp [Nat.shiftLeft_eq]
    · obtain ⟨n, rfl⟩ : ∃ n : ℕ, e = -n := ⟨(-e).toNat, by omega⟩
      have hvalue : (m * 2 ^ (-n : ℤ) : ℚ) = m / (2 ^ n : ℕ) := by
        rw [zpow_neg, zpow_natCast, Nat.cast_pow, Nat.cast_ofNat, div_eq_mul_inv]
      rw [hvalue, Nat.floor_div_natCast, Nat.floor_natCast]
      simp
  rw [toUInt64_eq hx, toNat_ofNatClamp, hfloor]

theorem Null.toNat {x : Float} (hx : Null x) : x.toUInt64.toNat = 0 := by
  change x.toModel.unpack.toUInt64.toNat = 0
  rw [hx]
  rfl

/-- Truncation of a number from two on gives at least one. -/
theorem Within.one_le_toNat {k : ℕ} {x : Float} {q : ℚ} (hx : Within k x q) (hk : k ≤ 16)
    (hq : 2 ≤ q) : 1 ≤ x.toUInt64.toNat := by
  obtain ⟨m, e, h, hu, -, -, -, -, hx2⟩ := hx
  have hv : (1 : ℚ) ≤ m * 2 ^ e := by
    have : (m * 2 ^ e : ℚ) * grain ^ k ≤ m * 2 ^ e * 2 := by gcongr; exact (grain_pow_lt hk).le
    linarith
  rw [toNat_toUInt64 hu]
  exact le_min (Nat.one_le_floor_iff _ |>.2 hv) (by norm_num)

/-- **Truncation** gives no more than the number, up to its roundings. -/
theorem Within.toNat_le {k : ℕ} {x : Float} {q : ℚ} (hx : Within k x q) :
    (x.toUInt64.toNat : ℚ) ≤ q * grain ^ k := by
  obtain ⟨m, e, h, hu, -, -, -, hx1, -⟩ := hx
  have hpos : (0 : ℚ) ≤ m * 2 ^ e := by positivity
  have hmin : x.toUInt64.toNat ≤ ⌊(m * 2 ^ e : ℚ)⌋₊ := by
    rw [toNat_toUInt64 hu]
    exact min_le_left _ _
  calc (x.toUInt64.toNat : ℚ) ≤ ⌊(m * 2 ^ e : ℚ)⌋₊ := by exact_mod_cast hmin
    _ ≤ m * 2 ^ e := Nat.floor_le hpos
    _ ≤ q * grain ^ k := hx1

end Chiptune.Binary64
