import Mathlib
import Chiptune.Proofs.Clock

/-!
# Rounding keeps order

A sum, a product or a quotient of binary64 numbers is the float nearest to the exact result, and of
two exact results the smaller one has the smaller float, or the same. So quotients that are equal
as numbers are equal as floats, which a bound on the error of a rounding cannot tell.

* `Holds`: what the bits behind a mantissa say about the number that it was cut from.
* `Nearest.le`: **rounding keeps order**.
* `ofNat_exact`: a whole number of at most 53 bits is its own float.
* `quotient_le_iff`: **times are compared exactly**, as long as the counts are not too large.
-/

namespace Chiptune.Binary64

open Float.Model Float.Model.UnpackedFloat

/-! ## Extended mantissas -/

/-- The number that a mantissa was cut from: the first bit behind the mantissa says whether half
a unit is reached, the second one whether anything is left. -/
def Holds (em : ExtendedMantissa) (x : ℚ) : Prop :=
  match em.roundBit, em.stickyBit with
  | false, false => x = em.mantissa
  | false, true => em.mantissa < x ∧ x < em.mantissa + 1 / 2
  | true, false => x = em.mantissa + 1 / 2
  | true, true => em.mantissa + 1 / 2 < x ∧ x < em.mantissa + 1

variable {em em' : ExtendedMantissa} {x y : ℚ}

theorem Holds.bounds (h : Holds em x) : em.mantissa ≤ x ∧ x < em.mantissa + 1 := by
  obtain ⟨m, _ | _, _ | _⟩ := em <;> simp only [Holds] at h <;> constructor <;> linarith

/-- Shifting the bits halves the number. -/
theorem Holds.shiftRightOne (h : Holds em x) : Holds em.shiftRightOne (x / 2) := by
  obtain ⟨m, r, t⟩ := em
  obtain ⟨k, rfl | rfl⟩ := m.even_or_odd'
  · have hk : 2 * k / 2 = k := by omega
    cases r <;> cases t <;> simp [Holds, ExtendedMantissa.shiftRightOne, hk] at h ⊢ <;>
      first | linarith | (constructor <;> linarith)
  · have hk : (2 * k + 1) / 2 = k := by omega
    have hodd : (2 * k + 1) % 2 = 1 := by omega
    cases r <;> cases t <;> simp [Holds, ExtendedMantissa.shiftRightOne, hk, hodd] at h ⊢ <;>
      first | linarith | (constructor <;> linarith)

theorem Holds.shift (h : Holds em x) (k : ℕ) : Holds (em >>> k) (x / 2 ^ k) := by
  induction k with
  | zero => rwa [pow_zero, div_one]
  | succ k ih =>
    rw [pow_succ, ← div_div]
    exact ih.shiftRightOne

/-- **Of two numbers the smaller one is rounded to the smaller mantissa**, or the same. -/
theorem Holds.rounded_le (hx : Holds em x) (hy : Holds em' y) (h : x ≤ y) :
    em.roundedMantissa ≤ em'.roundedMantissa := by
  obtain ⟨hlo, -⟩ := hx.bounds
  obtain ⟨-, hhi⟩ := hy.bounds
  have hle : em.mantissa ≤ em'.mantissa := by
    have : (em.mantissa : ℚ) < em'.mantissa + 1 := by linarith
    exact Nat.lt_succ_iff.1 (by exact_mod_cast this)
  rcases Nat.lt_or_eq_of_le hle with hlt | heq
  · -- a unit lies between them, which no rounding passes
    have := roundedMantissa_bounds em
    have := roundedMantissa_bounds em'
    omega
  · obtain ⟨m, r, t⟩ := em
    obtain ⟨m', r', t'⟩ := em'
    obtain rfl : m = m' := heq
    cases r <;> cases t <;> cases r' <;> cases t' <;>
      simp [Holds, ExtendedMantissa.roundedMantissa, ExtendedMantissa.accuracy,
        Accuracy.roundToNearestEven] at hx hy ⊢ <;>
      first | omega | (exfalso; linarith)

/-- A whole number is rounded to itself. -/
theorem Holds.rounded_natCast {n : ℕ} (h : Holds em n) : em.roundedMantissa = n := by
  have hn : Holds ⟨n, false, false⟩ n := rfl
  exact Nat.le_antisymm (h.rounded_le hn le_rfl) (hn.rounded_le h le_rfl)

/-! ## The nearest float -/

/-- The float nearest to a positive number of ordinary size. -/
def Nearest (z : Float) (v : ℚ) : Prop :=
  ∃ m e acc, 2 ^ 52 ≤ m ∧ -1074 ≤ e ∧
    Holds (ExtendedMantissa.ofMantissaAndAccuracy m acc) (v / 2 ^ e) ∧
    z = ⟨.pack (roundWithAccuracy .binary64 .positive m e acc)⟩

/-- The nearest float is off by one rounding, or past all floats. -/
theorem Nearest.within {z : Float} {v : ℚ} (h : Nearest z v) : Within 1 z v ∨ Beyond z v := by
  obtain ⟨m, e, acc, hm, he, hv, rfl⟩ := h
  obtain ⟨hlo, hhi⟩ := hv.bounds
  rw [mantissa_ofMantissaAndAccuracy] at hlo hhi
  rw [le_div_iff₀ (by positivity)] at hlo
  rw [div_lt_iff₀ (by positivity)] at hhi
  exact rounded (k := 0) acc hm he (by norm_num) (by simpa using hlo) (by simpa using hhi.le)

/-- The value of the nearest float: 53 bits of the number and what is left of it, rounded. -/
theorem Nearest.value {z : Float} {v : ℚ} (hz : Nearest z v) (hfinite : Within 1 z v) :
    ∃ em E m e h, Holds em (v / 2 ^ E) ∧ 2 ^ 52 ≤ em.mantissa ∧ em.mantissa < 2 ^ 53 ∧
      z.toModel.unpack = .finite .positive m e h ∧ 2 ^ 52 ≤ m ∧ m < 2 ^ 53 ∧ e ≤ 971 ∧
      (m * 2 ^ e : ℚ) = em.roundedMantissa * 2 ^ (E : ℤ) := by
  obtain ⟨m, e, acc, hm, he, hv, rfl⟩ := hz
  obtain ⟨-, -, -, -, m', e', h, hround, h1, h2, h3, hvalue⟩ := roundWithAccuracy_full acc hm he
  have hu := unpack_pack h h1 h2 h3
  rw [hround] at hfinite ⊢
  have he' : e' ≤ 971 := by
    by_contra hlarge
    rw [if_neg hlarge] at hu
    obtain ⟨_, _, _, hfin, -⟩ := hfinite
    exact absurd (hu.symm.trans hfin) nofun
  rw [if_pos he'] at hu
  obtain ⟨hfull, hfull'⟩ := shift_full hm
  have hfirst : Holds (ExtendedMantissa.ofMantissaAndAccuracy m acc >>> (m.log2 - 52))
      (v / 2 ^ (e + (m.log2 - 52 : ℕ))) := by
    rw [zpow_add₀ two_ne_zero, zpow_natCast, ← div_div]
    exact hv.shift _
  refine ⟨_, _, m', e', h, hfirst, ?_, ?_, hu, h1, h2, he', hvalue⟩
  · rwa [mantissa_shift, mantissa_ofMantissaAndAccuracy]
  · rwa [mantissa_shift, mantissa_ofMantissaAndAccuracy]

/-- The 53 bits of a number say where it lies. -/
theorem Holds.scaled {v : ℚ} {E : ℤ} (h : Holds em (v / 2 ^ E)) (hfull : 2 ^ 52 ≤ em.mantissa)
    (hfull' : em.mantissa < 2 ^ 53) : 2 ^ 52 * 2 ^ E ≤ v ∧ v < 2 ^ 53 * 2 ^ E := by
  obtain ⟨hlo, hhi⟩ := h.bounds
  rw [le_div_iff₀ (by positivity)] at hlo
  rw [div_lt_iff₀ (by positivity)] at hhi
  have h1 : (2 ^ 52 : ℚ) ≤ em.mantissa := by exact_mod_cast hfull
  have h2 : (em.mantissa + 1 : ℚ) ≤ 2 ^ 53 := by exact_mod_cast hfull'
  constructor
  · calc (2 ^ 52 * 2 ^ E : ℚ) ≤ em.mantissa * 2 ^ E := by gcongr
      _ ≤ v := hlo
  · calc v < (em.mantissa + 1) * 2 ^ E := hhi
      _ ≤ 2 ^ 53 * 2 ^ E := by gcongr

/-- One more in the exponent doubles the least number. -/
theorem exponent_doubles {E F : ℤ} (h : E < F) : (2 ^ 53 * 2 ^ E : ℚ) ≤ 2 ^ 52 * 2 ^ F := by
  have hpow : (2 ^ E * 2 : ℚ) ≤ 2 ^ F := by
    rw [← zpow_add_one₀ two_ne_zero]
    exact zpow_le_zpow_right₀ one_le_two (by omega)
  calc (2 ^ 53 * 2 ^ E : ℚ) = 2 ^ 52 * (2 ^ E * 2) := by ring
    _ ≤ 2 ^ 52 * 2 ^ F := by gcongr

/-- **Rounding keeps order.** -/
theorem Nearest.le {z w : Float} {u v : ℚ} (hz : Nearest z u) (hw : Nearest w v)
    (hz' : Within 1 z u) (hw' : Within 1 w v) (h : u ≤ v) : z ≤ w := by
  obtain ⟨em, E, m, e, hm, hu, hfull, hfull', hmu, hm1, hm2, -, hmv⟩ := hz.value hz'
  obtain ⟨en, F, n, f, hn, hv, hnfull, hnfull', hnu, hn1, hn2, -, hnv⟩ := hw.value hw'
  rw [le_iff_value hmu hm1 hm2 hnu hn1 hn2, hmv, hnv]
  obtain ⟨hulo, -⟩ := hu.scaled hfull hfull'
  obtain ⟨-, hvhi⟩ := hv.scaled hnfull hnfull'
  rcases lt_trichotomy E F with hEF | rfl | hEF
  · -- between two exponents lies a power of two, which no rounding passes
    have hr : (em.roundedMantissa : ℚ) ≤ 2 ^ 53 := by
      have := roundedMantissa_bounds em
      exact_mod_cast (by omega : em.roundedMantissa ≤ 2 ^ 53)
    have hs : (2 ^ 52 : ℚ) ≤ en.roundedMantissa := by
      have := roundedMantissa_bounds en
      exact_mod_cast (by omega : 2 ^ 52 ≤ en.roundedMantissa)
    calc (em.roundedMantissa * 2 ^ E : ℚ) ≤ 2 ^ 53 * 2 ^ E := by gcongr
      _ ≤ 2 ^ 52 * 2 ^ F := exponent_doubles hEF
      _ ≤ en.roundedMantissa * 2 ^ F := by gcongr
  · have hle : em.roundedMantissa ≤ en.roundedMantissa := hu.rounded_le hv (by gcongr)
    gcongr
  · have := exponent_doubles hEF
    linarith

/-- A number that a float can hold is its own nearest float. -/
theorem Nearest.exact {z : Float} {n : ℕ} {f : ℤ} (hz : Nearest z (n * 2 ^ f))
    (hz' : Within 1 z (n * 2 ^ f)) (hn : 2 ^ 52 ≤ n) (hn' : n < 2 ^ 53) :
    Within 0 z (n * 2 ^ f) := by
  obtain ⟨em, E, m, e, hm, hv, hfull, hfull', hu, hm1, hm2, he, hvalue⟩ := hz.value hz'
  have hn1 : (2 ^ 52 : ℚ) ≤ n := by exact_mod_cast hn
  have hn2 : (n : ℚ) < 2 ^ 53 := by exact_mod_cast hn'
  obtain ⟨hlo, hhi⟩ := hv.scaled hfull hfull'
  have hE : E = f := by
    rcases lt_trichotomy E f with hlt | rfl | hlt
    · have := exponent_doubles hlt
      have : (2 ^ 52 * 2 ^ f : ℚ) ≤ n * 2 ^ f := by gcongr
      linarith
    · rfl
    · have := exponent_doubles hlt
      have : (n * 2 ^ f : ℚ) < 2 ^ 53 * 2 ^ f := by gcongr
      linarith
  subst hE
  rw [mul_div_cancel_right₀ _ (by positivity)] at hv
  rw [hv.rounded_natCast] at hvalue
  exact ⟨m, e, hm, hu, hm1, hm2, he, by simp [hvalue], by simp [hvalue]⟩

/-! ## Operations on exact numbers -/

theorem Within.eq {z : Float} {v : ℚ} (h : Within 0 z v) : ∃ m e hm,
    z.toModel.unpack = .finite .positive m e hm ∧ 2 ^ 52 ≤ m ∧ m < 2 ^ 53 ∧ v = m * 2 ^ e := by
  obtain ⟨m, e, hm, hu, h1, h2, -, hlo, hhi⟩ := h
  rw [pow_zero, mul_one] at hlo hhi
  exact ⟨m, e, hm, hu, h1, h2, le_antisymm hhi hlo⟩

theorem nearest_mul {z w : Float} {a b : ℚ} (hz : Within 0 z a) (hw : Within 0 w b)
    (hsize : 2 ^ (-900 : ℤ) ≤ a * b) : Nearest (z * w) (a * b) := by
  obtain ⟨m, e, hm, hzu, hm1, hm2, rfl⟩ := hz.eq
  obtain ⟨n, f, hn, hwu, hn1, hn2, rfl⟩ := hw.eq
  have hvalue : (m * 2 ^ e * (n * 2 ^ f) : ℚ) = (m * n : ℕ) * 2 ^ (e + f) := by
    rw [zpow_add₀ two_ne_zero, Nat.cast_mul]
    ring
  have he : (-900 : ℤ) < (106 : ℕ) + (e + f) := by
    apply lt_exponent (m := m * n)
    · calc m * n < 2 ^ 53 * 2 ^ 53 := Nat.mul_lt_mul'' hm2 hn2
        _ = 2 ^ 106 := by norm_num
    · rwa [← hvalue]
  refine ⟨m * n, e + f, .exact, hm1.trans (Nat.le_mul_of_pos_right m hn), by omega, ?_,
    mul_eq_round hzu hwu⟩
  rw [hvalue, mul_div_cancel_right₀ _ (by positivity)]
  rfl

/-- What is left of a division says on which side of the half it is. -/
theorem holds_quotient (k : ℕ) {n : ℕ} (hn : 0 < n) :
    Holds (.ofMantissaAndAccuracy (k / n) (accuracyOfFraction (k % n) n)) (k / n) := by
  have hn0 : (0 : ℚ) < n := by exact_mod_cast hn
  have hvalue : (k / n : ℚ) = (k / n : ℕ) + (k % n : ℕ) / n := by
    rw [div_eq_iff hn0.ne', add_mul, div_mul_cancel₀ _ hn0.ne']
    exact_mod_cast (Nat.div_add_mod' k n).symm
  have hlt : ((k % n : ℕ) / n : ℚ) < 1 := by
    rw [div_lt_one hn0]
    exact_mod_cast Nat.mod_lt k hn
  rw [hvalue]
  generalize k % n = rest at hlt ⊢
  unfold accuracyOfFraction
  by_cases hrest : rest = 0
  · simp [hrest, Holds, ExtendedMantissa.ofMantissaAndAccuracy]
  have hrest0 : (0 : ℚ) < rest / n :=
    div_pos (by exact_mod_cast Nat.pos_of_ne_zero hrest) hn0
  rw [if_neg hrest]
  rcases lt_trichotomy (2 * rest) n with h | h | h
  · have hhalf : (rest / n : ℚ) < 1 / 2 := by
      rw [div_lt_div_iff₀ hn0 two_pos, one_mul, mul_comm]
      exact_mod_cast h
    simp only [Nat.compare_eq_lt.2 h, Holds, ExtendedMantissa.ofMantissaAndAccuracy]
    constructor <;> linarith
  · have hhalf : (rest / n : ℚ) = 1 / 2 := by
      rw [div_eq_div_iff hn0.ne' two_ne_zero, one_mul, mul_comm]
      exact_mod_cast h
    rw [Nat.compare_eq_eq.2 h, hhalf]
    rfl
  · have hhalf : (1 / 2 : ℚ) < rest / n := by
      rw [div_lt_div_iff₀ two_pos hn0, one_mul, mul_comm (rest : ℚ)]
      exact_mod_cast h
    simp only [Nat.compare_eq_gt.2 h, Holds, ExtendedMantissa.ofMantissaAndAccuracy]
    constructor <;> linarith

theorem nearest_div {z w : Float} {a b : ℚ} (hz : Within 0 z a) (hw : Within 0 w b)
    (hsize : 2 ^ (-900 : ℤ) ≤ a / b) : Nearest (z / w) (a / b) := by
  obtain ⟨m, e, hm, hzu, hm1, hm2, rfl⟩ := hz.eq
  obtain ⟨n, f, hn, hwu, hn1, hn2, rfl⟩ := hw.eq
  have hn0 : (0 : ℚ) < n := by exact_mod_cast hn
  have he : (-900 : ℤ) < (2 : ℕ) + (e - f) := by
    apply lt_exponent (m := 2) (by norm_num)
    refine hsize.trans ?_
    have hmn : (m : ℚ) ≤ 2 * n := by exact_mod_cast (by omega : m ≤ 2 * n)
    rw [zpow_sub₀ two_ne_zero, Nat.cast_ofNat, ← mul_div_assoc, div_le_div_iff₀ (by positivity)
      (by positivity)]
    calc (m * 2 ^ e * 2 ^ f : ℚ) ≤ 2 * n * 2 ^ e * 2 ^ f := by gcongr
      _ = 2 * 2 ^ e * (n * 2 ^ f) := by ring
  refine ⟨(m <<< 53) / n, e - f - 53, accuracyOfFraction ((m <<< 53) % n) n,
    quotient_full hm1 hn hn2, by omega, ?_, div_eq_round hzu hm1 hm2 hwu hn1 hn2 (by omega)⟩
  have hvalue : (m * 2 ^ e / (n * 2 ^ f) / 2 ^ (e - f - 53) : ℚ) = (m <<< 53 : ℕ) / n := by
    rw [zpow_sub₀ two_ne_zero, zpow_sub₀ two_ne_zero, zpow_ofNat, Nat.shiftLeft_eq, Nat.cast_mul,
      Nat.cast_pow, Nat.cast_ofNat]
    field_simp
  rw [hvalue]
  -- Lean must not compute the shift
  generalize m <<< 53 = k
  exact holds_quotient k hn

/-! ## Whole numbers and their quotients -/

theorem toFloat_exact {n : ℕ} (hn : 0 < n) (hn' : n < 2 ^ 53) : Within 0 n.toUInt64.toFloat n := by
  obtain ⟨hx, hfull⟩ := toFloat_eq_round hn hn'
  have hl : n.log2 ≤ 52 := by
    have := (Nat.log2_lt (by omega)).2 hn'
    omega
  have hvalue : (n : ℚ) = (n <<< (52 - n.log2) : ℕ) * 2 ^ (-(52 - n.log2 : ℕ) : ℤ) := by
    rw [Nat.shiftLeft_eq, zpow_neg, zpow_natCast, Nat.cast_mul, Nat.cast_pow, Nat.cast_ofNat]
    field_simp
  have hfull' : n <<< (52 - n.log2) < 2 ^ 53 := by
    rw [Nat.shiftLeft_eq]
    calc n * 2 ^ (52 - n.log2) < 2 ^ (n.log2 + 1) * 2 ^ (52 - n.log2) := by
          gcongr
          exact Nat.lt_log2_self
      _ = 2 ^ 53 := by rw [← pow_add]; congr 1; omega
  have hone := toFloat_within hn hn'
  have hnear : Nearest n.toUInt64.toFloat n := by
    refine ⟨_, _, .exact, hfull, by omega, ?_, hx⟩
    rw [hvalue, mul_div_cancel_right₀ _ (by positivity)]
    rfl
  rw [hvalue] at hone hnear ⊢
  exact hnear.exact hone hfull hfull'

/-- **A whole number of at most 53 bits is its own float.** -/
theorem ofNat_exact {n : ℕ} (hn : 0 < n) (hn' : n < 2 ^ 53) : Within 0 (Float.ofNat n) n := by
  have hn0 : (0 : ℚ) < n := by exact_mod_cast hn
  have hsize : (2 ^ (-900 : ℤ) : ℚ) ≤ n * 1 := by
    rw [mul_one]
    exact (zpow_le_one_of_nonpos₀ one_le_two (by norm_num)).trans (by exact_mod_cast hn)
  -- it is multiplied by a power of ten, here by one
  have hprod : Float.ofNat n = n.toUInt64.toFloat * .ofBits 0x3FF0000000000000 := by
    unfold Float.ofNat
    change Float.ofScientific n false 0 = _
    unfold Float.ofScientific
    rw [dif_pos ⟨hn', by norm_num⟩]
    rfl
  have hfloat := toFloat_exact hn hn'
  have hnear := nearest_mul hfloat one_within hsize
  obtain ⟨m, e, hm, -, h1, h2, heq⟩ := hfloat.eq
  have hwithin : Within 1 (Float.ofNat n) n := by
    rw [hprod]
    rcases hfloat.mul one_within hn0 one_pos (by norm_num) hsize with h | ⟨-, h⟩
    · rwa [mul_one] at h
    · rw [mul_one] at h
      exact absurd (by exact_mod_cast h) (not_le.2 (lt_top (by omega : n < 2 ^ 64)))
  rw [← hprod, mul_one, heq] at hnear
  rw [heq] at hwithin ⊢
  exact hnear.exact hwithin h1 h2

/-- What lies far enough above is not below. -/
theorem Within.not_le {j k : ℕ} {x y : Float} {a b : ℚ} (hx : Within j x a) (hy : Within k y b)
    (h : b * grain ^ (j + k) < a) : ¬ x ≤ y := by
  obtain ⟨m, e, hm, hxu, hm1, hm2, -, -, hx2⟩ := hx
  obtain ⟨n, f, hn, hyu, hn1, hn2, -, hy1, -⟩ := hy
  have hg := grain_pos
  rw [le_iff_value hxu hm1 hm2 hyu hn1 hn2, Rat.not_le]
  have : (n * 2 ^ f * grain ^ j : ℚ) < m * 2 ^ e * grain ^ j := by
    calc (n * 2 ^ f * grain ^ j : ℚ) ≤ b * grain ^ k * grain ^ j := by gcongr
      _ = b * grain ^ (j + k) := by ring
      _ < m * 2 ^ e * grain ^ j := h.trans_le hx2
  exact lt_of_mul_lt_mul_right this (by positivity)

/-- A quotient of whole numbers that are their own floats is the nearest float. -/
theorem nearest_quotient {n r : ℕ} (hn : 0 < n) (hn' : n < 2 ^ 53) (hr : 0 < r) (hr' : r ≤ 200000) :
    Nearest (Float.ofNat n / Float.ofNat r) (n / r) ∧
      Within 1 (Float.ofNat n / Float.ofNat r) (n / r) := by
  have hN := ofNat_exact hn hn'
  have hR := ofNat_exact hr (by omega)
  have hn0 : (0 : ℚ) < n := by exact_mod_cast hn
  have hr0 : (1 : ℚ) ≤ r := by exact_mod_cast hr
  have hsize := size_of_pos hn hr hr'
  refine ⟨nearest_div hN hR hsize, ?_⟩
  rcases hN.div hR hn0 (by linarith) (by norm_num) hsize with h | ⟨-, h⟩
  · exact h
  · have hle : (n / r : ℚ) ≤ n := div_le_self hn0.le hr0
    exact absurd (by exact_mod_cast h.trans hle) (not_le.2 (lt_top (by omega : n < 2 ^ 64)))

/-- **Times are compared exactly**, as long as the counts are not too large: what equals the time of
an interrupt as a number equals it as a float, and what comes before it comes before it by more than
the roundings. -/
theorem quotient_le_iff {i f p r : ℕ} (hp : 0 < p) (hpr : p ≤ r) (hr : r ≤ 200000) (hif : i ≤ f)
    (hsmall : f * p ≤ 2 ^ 50) :
    Float.ofNat i / Float.ofNat p ≤ Float.ofNat f / Float.ofNat r ↔ i * r ≤ f * p := by
  have hf' : f ≤ 2 ^ 50 := (Nat.le_mul_of_pos_right f hp).trans hsmall
  have hp0 : (0 : ℚ) < p := by exact_mod_cast hp
  have hr0 : (0 : ℚ) < r := by exact_mod_cast hp.trans_le hpr
  rcases Nat.eq_zero_or_pos i with rfl | hi
  · have hzero := null_ofNat_zero.div (ofNat_exact hp (by omega))
    simp [hzero.le (proper_ofNat_div f (hp.trans_le hpr) hr)]
  obtain ⟨hI, hI'⟩ := nearest_quotient hi (by omega) hp (hpr.trans hr)
  obtain ⟨hF, hF'⟩ := nearest_quotient (n := f) (by omega) (by omega) (hp.trans_le hpr) hr
  constructor
  · intro hle
    by_contra hlt
    have hnext : (f * p + 1 : ℚ) ≤ i * r := by exact_mod_cast (by omega : f * p + 1 ≤ i * r)
    have hcount : (f * p : ℚ) ≤ 2 ^ 50 := by exact_mod_cast hsmall
    have hgrain : grain ^ (1 + 1) < 1 + 1 / 2 ^ 50 := by unfold grain; norm_num
    refine hI'.not_le hF' ?_ hle
    rw [div_mul_eq_mul_div, div_lt_div_iff₀ hr0 hp0]
    have hf0 : (0 : ℚ) < f := by exact_mod_cast hi.trans_le hif
    calc (f * grain ^ (1 + 1) * p : ℚ) = f * p * grain ^ (1 + 1) := by ring
      _ < f * p * (1 + 1 / 2 ^ 50) := by gcongr
      _ ≤ f * p + 1 := by linarith
      _ ≤ i * r := hnext
  · intro hle
    refine hI.le hF hI' hF' ?_
    rw [div_le_div_iff₀ hp0 hr0]
    exact_mod_cast hle

end Chiptune.Binary64
