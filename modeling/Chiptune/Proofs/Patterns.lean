import Mathlib
import Chiptune.Proofs.Steps

/-!
# Effects that go by a pattern

Eight effects do the same in every step, at a cursor or all through the window, and what they have made
of a waveform can be told from the number of their steps alone. Half of them come back to the waveform
they started from.

* `Shaper.Patterned`: what each of them has made in some steps.
* `Shaper.goes_by_pattern`: **it is what they have made after any number of ticks.**
-/

namespace Chiptune

/-! ## Bytes -/

theorem negated_involutive : Function.Involutive negated := by
  intro b
  simp [negated]

/-- The negative of a signed byte, but for the lowest. -/
theorem toInt_negated (b : UInt8) : (negated b).toInt8.toInt =
    if b.toInt8.toInt = -128 then -128 else -b.toInt8.toInt := by
  have hlo := b.toInt8.le_toInt
  have hhi := b.toInt8.toInt_lt
  unfold negated
  rw [UInt8.toInt8_sub, Int8.toInt_sub]
  change Int.bmod (0 - b.toInt8.toInt) 256 = _
  rw [zero_sub]
  split
  · rename_i hlowest
    rw [hlowest]
    decide
  · apply Int.bmod_eq_of_le <;> omega

theorem ofNat_succ_mul (k : ℕ) (b : UInt8) :
    UInt8.ofNat (k + 1) * b = UInt8.ofNat k * b + b := by
  rw [UInt8.ofNat_add, UInt8.add_mul]
  exact congrArg _ (UInt8.one_mul b)

theorem ofNat_mul_of_dvd {k : ℕ} (h : 256 ∣ k) (b : UInt8) : UInt8.ofNat k * b = 0 := by
  obtain ⟨m, rfl⟩ := h
  have hzero : UInt8.ofNat (256 * m) = 0 := by
    rw [UInt8.ofNat_mul]
    exact UInt8.zero_mul
  rw [hzero, UInt8.zero_mul]

/-- Every place of a ring has its turn twice in two rounds. -/
theorem even_count_of_rounds {size k : ℕ} (hsize : 0 < size) (h : 2 * size ∣ k) (i : ℕ) :
    Even (k.count (· ≡ i [MOD size])) := by
  obtain ⟨m, rfl⟩ := h
  have hmod : 2 * size * m % size = 0 := by
    rw [Nat.mul_right_comm]
    exact Nat.mul_mod_left _ _
  have hdiv : 2 * size * m / size = 2 * m := by
    rw [Nat.mul_right_comm]
    exact Nat.mul_div_cancel _ hsize
  rw [Nat.count_modEq_card _ hsize, hmod, hdiv, if_neg (Nat.not_lt_zero _)]
  exact even_two_mul m

/-! ## Pairs -/

theorem Wave.byte_swapped (w : Wave) (i : ℕ) {j : ℕ} (hj : j < 128) : (w.swapped i).byte j =
    if j = i then w.byte (i + 1) else if j = i + 1 then w.byte i else w.byte j := by
  unfold swapped
  rw [byte_put _ _ _ hj, byte_put _ _ _ hj]
  by_cases hnext : j = i + 1
  · rw [if_pos hnext, if_neg (by omega), if_pos hnext]
  · rw [if_neg hnext, if_neg hnext]

namespace Window

/-- The place that a place of a window is exchanged with; an odd one at the end stays. -/
def partner (w : Window) (i : ℕ) : ℕ :=
  if w.size / 2 ≤ i / 2 then i else if i % 2 = 0 then i + 1 else i - 1

variable {w : Window} {i : ℕ}

theorem partner_lt (hi : i < w.size) : w.partner i < w.size := by
  unfold partner
  split
  · exact hi
  split <;> omega

theorem partner_partner (w : Window) (i : ℕ) : w.partner (w.partner i) = i := by
  by_cases hend : w.size / 2 ≤ i / 2
  · have hstays : w.partner i = i := if_pos hend
    rw [hstays, hstays]
  · have hsame : w.partner i / 2 = i / 2 ∧ w.partner i % 2 = 1 - i % 2 := by
      unfold partner
      rw [if_neg hend]
      split <;> omega
    unfold partner at hsame ⊢
    rw [if_neg hend] at hsame ⊢
    split_ifs at hsame ⊢ <;> omega

/-- The first pairs of a window exchanged, one after the other. -/
theorem byte_foldl_swapped (w : Window) (v : Wave) {m : ℕ} (hm : m ≤ w.size / 2) (hi : i < w.size) :
    ((List.range m).foldl (fun v k => v.swapped (w.first + 2 * k)) v).byte (w.first + i) =
      v.byte (w.first + if i / 2 < m then w.partner i else i) := by
  induction m generalizing i with
  | zero => rfl
  | succ m ih =>
    have hpair : 2 * m + 1 < w.size := by omega
    have hlater : ∀ j < w.size, ¬ j / 2 < m →
        ((List.range m).foldl (fun v k => v.swapped (w.first + 2 * k)) v).byte (w.first + j) =
          v.byte (w.first + j) := by
      intro j hj hm'
      rw [ih (by omega) hj, if_neg hm']
    rw [List.range_succ, List.foldl_append, List.foldl_cons, List.foldl_nil,
      Wave.byte_swapped _ _ (first_add_lt hi)]
    by_cases hleft : i = 2 * m
    · have hpartner : w.partner i = 2 * m + 1 := by
        unfold partner
        rw [if_neg (by omega), if_pos (by omega), hleft]
      rw [if_pos (by omega), if_pos (by omega), hpartner, Nat.add_assoc,
        hlater _ hpair (by omega)]
    by_cases hright : i = 2 * m + 1
    · have hpartner : w.partner i = 2 * m := by
        unfold partner
        rw [if_neg (by omega), if_neg (by omega), hright]
        rfl
      rw [if_neg (by omega), if_pos (by omega), if_pos (by omega), hpartner,
        hlater _ (by omega) (by omega)]
    · rw [if_neg (by omega), if_neg (by omega), ih (by omega) hi]
      congr 3
      rw [eq_iff_iff]
      omega

end Window

namespace Shaper

variable {s : Shaper} {waves : Array Wave} {i k : ℕ}

/-! ## What a step makes of a place -/

theorem place_step_rotate (h : s.effect = .rotate) (hi : i < s.window.size) :
    (s.step waves).place i = s.place ((i + 1) % s.window.size) := by
  have hstep : s.step waves = s.rewritten fun _ j => s.wave.byte (s.window.next j) := by
    simp only [step, h]
  rw [hstep, place_rewritten (fun _ _ _ => rfl) hi, Window.next_first_add hi]
  rfl

theorem place_step_negateByte (h : s.effect = .negateByte) (hi : i < s.window.size) :
    (s.step waves).place i =
      if s.window.first + i = s.cursor then negated (s.place i) else s.place i := by
  have hstep : s.step waves = (s.put s.cursor (negated (s.wave.byte s.cursor))).moved := by
    simp only [step, h]
  have hput : (s.step waves).place i = (s.wave.put s.cursor (negated (s.wave.byte s.cursor))).byte
      (s.window.first + i) := by
    rw [hstep]
    rfl
  rw [hput, Wave.byte_put _ _ _ (Window.first_add_lt hi)]
  by_cases hcursor : s.window.first + i = s.cursor
  · rw [if_pos hcursor, if_pos hcursor, place, hcursor]
  · rw [if_neg hcursor, if_neg hcursor]
    rfl

theorem place_step_negateRun (h : s.effect = .negateRun) (hi : i < s.window.size) :
    (s.step waves).place i = if s.window.first + i ≤ s.cursor
      then negated (s.initial.byte (s.window.first + i))
      else s.initial.byte (s.window.first + i) := by
  have hstep : s.step waves = (s.rewritten fun _ j =>
      if j ≤ s.cursor then negated (s.initial.byte j) else s.initial.byte j).moved := by
    simp only [step, h]
  rw [hstep]
  exact place_rewritten (fun _ _ _ => rfl) hi

/-- The byte before the cursor is restored, the one at the cursor is negated. -/
theorem place_step_negateOne (h : s.effect = .negateOne) (hi : i < s.window.size) :
    (s.step waves).place i = if s.window.first + i = s.cursor
      then negated (s.initial.byte (s.window.first + i))
      else if s.window.first + i = s.window.previous s.cursor
        then s.initial.byte (s.window.first + i) else s.place i := by
  have hstep : s.step waves = s.negatedAtCursor.moved := by
    simp only [step, h]
  have hput : (s.step waves).place i = ((s.wave.put (s.window.previous s.cursor)
      (s.initial.byte (s.window.previous s.cursor))).put s.cursor
        (negated (s.initial.byte s.cursor))).byte (s.window.first + i) := by
    rw [hstep]
    rfl
  rw [hput, Wave.byte_put _ _ _ (Window.first_add_lt hi),
    Wave.byte_put _ _ _ (Window.first_add_lt hi)]
  split_ifs with hcursor hprevious
  · rw [hcursor]
  · rw [hprevious]
  · rfl

theorem place_step_raise (h : s.effect = .raise) (hi : i < s.window.size) :
    (s.step waves).place i = s.place i + s.amount.toUInt8 := by
  have hstep : s.step waves = s.raisedBy s.amount.toUInt8 := by
    simp only [step, h]
  rw [hstep]
  exact place_rewritten_own (fun b _ => b + s.amount.toUInt8) hi

theorem place_step_blend (h : s.effect = .blend) (hi : i < s.window.size) :
    (s.step waves).place i = s.place i + (s.otherWave waves).byte (s.window.first + i) := by
  have hstep : s.step waves =
      s.rewritten fun v j => v.byte j + (s.otherWave waves).byte j := by
    simp only [step, h]
  rw [hstep]
  exact place_rewritten_own (fun b j => b + (s.otherWave waves).byte j) hi

theorem place_step_swapPairs (h : s.effect = .swapPairs) (hi : i < s.window.size) :
    (s.step waves).place i = s.place (s.window.partner i) := by
  have hstep : s.step waves = s.swappedPairs := by
    simp only [step, h]
  have hall : (if i / 2 < s.window.size / 2 then s.window.partner i else i) =
      s.window.partner i := by
    split
    · rfl
    · rename_i hend
      exact (if_pos (Nat.not_lt.1 hend)).symm
  rw [hstep]
  refine (Window.byte_foldl_swapped s.window s.wave le_rfl hi).trans ?_
  rw [hall]
  rfl

theorem step_of_flip (h : s.effect = .flip) : s.step waves =
    { s.rewritten fun _ j => if !s.flipped then negated (s.initial.byte j) else s.initial.byte j with
      flipped := !s.flipped } := by
  simp only [step, h]

theorem place_step_flip (h : s.effect = .flip) (hi : i < s.window.size) :
    (s.step waves).place i = if !s.flipped then negated (s.initial.byte (s.window.first + i))
      else s.initial.byte (s.window.first + i) := by
  rw [step_of_flip h]
  exact place_rewritten (fun _ _ _ => rfl) hi

/-! ## What the steps make of it -/

theorem place_stepped_rotate (h : s.effect = .rotate) (k : ℕ) (hi : i < s.window.size) :
    (s.stepped waves k).place i = s.place ((i + k) % s.window.size) := by
  induction k generalizing i with
  | zero =>
    rw [Nat.add_zero, Nat.mod_eq_of_lt hi]
    rfl
  | succ k ih =>
    have heffect : (s.stepped waves k).effect = .rotate := (effect_stepped waves s k).trans h
    have hwindow := window_stepped waves s k
    rw [stepped, place_step_rotate heffect (hwindow ▸ hi), hwindow,
      ih (Nat.mod_lt _ s.window.size_pos), Nat.mod_add_mod, Nat.add_right_comm, Nat.add_assoc]

/-- A place has its turn whenever the cursor comes round to it. -/
theorem place_stepped_negateByte (h : s.effect = .negateByte) (hfirst : s.cursor = s.window.first)
    (k : ℕ) (hi : i < s.window.size) :
    (s.stepped waves k).place i = negated^[k.count (· ≡ i [MOD s.window.size])] (s.place i) := by
  induction k with
  | zero => rfl
  | succ k ih =>
    have heffect : (s.stepped waves k).effect = .negateByte := (effect_stepped waves s k).trans h
    have hroams : s.effect.roams = true := by rw [h]; rfl
    have hwindow := window_stepped waves s k
    have hturn : s.window.first + i = s.window.first + k % s.window.size ↔
        k ≡ i [MOD s.window.size] := by
      rw [Nat.ModEq, Nat.mod_eq_of_lt hi]
      omega
    rw [stepped, place_step_negateByte heffect (hwindow ▸ hi), hwindow,
      cursor_stepped hroams hfirst, ih, Nat.count_succ]
    by_cases hnow : k ≡ i [MOD s.window.size]
    · rw [if_pos (hturn.2 hnow), if_pos hnow, Function.iterate_succ_apply']
    · rw [if_neg fun hplace => hnow (hturn.1 hplace), if_neg hnow, Nat.add_zero]

theorem place_stepped_negateRun (h : s.effect = .negateRun) (hfirst : s.cursor = s.window.first)
    (k : ℕ) (hi : i < s.window.size) :
    (s.stepped waves (k + 1)).place i = if i ≤ k % s.window.size
      then negated (s.initial.byte (s.window.first + i))
      else s.initial.byte (s.window.first + i) := by
  have heffect : (s.stepped waves k).effect = .negateRun := (effect_stepped waves s k).trans h
  have hroams : s.effect.roams = true := by rw [h]; rfl
  have hwindow := window_stepped waves s k
  rw [stepped, place_step_negateRun heffect (hwindow ▸ hi), hwindow, initial_stepped,
    cursor_stepped hroams hfirst]
  simp only [Nat.add_le_add_iff_left]

theorem place_stepped_negateOne (h : s.effect = .negateOne) (hfirst : s.cursor = s.window.first)
    (hinitial : s.wave = s.initial) (k : ℕ) (hi : i < s.window.size) :
    (s.stepped waves (k + 1)).place i = if i = k % s.window.size
      then negated (s.initial.byte (s.window.first + i))
      else s.initial.byte (s.window.first + i) := by
  have hroams : s.effect.roams = true := by rw [h]; rfl
  induction k with
  | zero =>
    have hplace : s.place i = s.initial.byte (s.window.first + i) := by rw [place, hinitial]
    rw [stepped, stepped, place_step_negateOne h hi, hfirst, hplace, ite_self, Nat.zero_mod]
    simp only [Nat.add_eq_left]
  | succ k ih =>
    have heffect : (s.stepped waves (k + 1)).effect = .negateOne :=
      (effect_stepped waves s (k + 1)).trans h
    have hwindow := window_stepped waves s (k + 1)
    have hprevious : s.window.previous (s.window.first + (k + 1) % s.window.size) =
        s.window.first + k % s.window.size := by
      have hmod := Nat.mod_lt k s.window.size_pos
      rw [← Window.next_first_add_mod]
      apply Window.previous_next
      rw [Window.contains_iff_size]
      omega
    rw [stepped, place_step_negateOne heffect (hwindow ▸ hi), hwindow, initial_stepped,
      cursor_stepped hroams hfirst, hprevious, ih]
    simp only [Nat.add_left_cancel_iff]
    split_ifs <;> rfl

/-- Whatever is added to a byte in every step. -/
theorem place_stepped_of_add {b : UInt8}
    (hstep : ∀ k, (s.stepped waves (k + 1)).place i = (s.stepped waves k).place i + b) (k : ℕ) :
    (s.stepped waves k).place i = s.place i + UInt8.ofNat k * b := by
  induction k with
  | zero =>
    change s.place i = s.place i + 0 * b
    rw [UInt8.zero_mul, UInt8.add_zero]
  | succ k ih => rw [hstep, ih, ofNat_succ_mul, UInt8.add_assoc]

theorem place_stepped_raise (h : s.effect = .raise) (k : ℕ) (hi : i < s.window.size) :
    (s.stepped waves k).place i = s.place i + UInt8.ofNat k * s.amount.toUInt8 := by
  refine place_stepped_of_add (fun k => ?_) k
  have heffect : (s.stepped waves k).effect = .raise := (effect_stepped waves s k).trans h
  rw [stepped, place_step_raise heffect (window_stepped waves s k ▸ hi), amount_stepped]

theorem place_stepped_blend (h : s.effect = .blend) (k : ℕ) (hi : i < s.window.size) :
    (s.stepped waves k).place i =
      s.place i + UInt8.ofNat k * (s.otherWave waves).byte (s.window.first + i) := by
  refine place_stepped_of_add (fun k => ?_) k
  have heffect : (s.stepped waves k).effect = .blend := (effect_stepped waves s k).trans h
  have hwindow := window_stepped waves s k
  rw [stepped, place_step_blend heffect (hwindow ▸ hi), hwindow, otherWave_stepped]

theorem place_stepped_swapPairs (h : s.effect = .swapPairs) (k : ℕ) (hi : i < s.window.size) :
    (s.stepped waves k).place i = s.place (if 2 ∣ k then i else s.window.partner i) := by
  induction k generalizing i with
  | zero => rfl
  | succ k ih =>
    have heffect : (s.stepped waves k).effect = .swapPairs := (effect_stepped waves s k).trans h
    have hwindow := window_stepped waves s k
    rw [stepped, place_step_swapPairs heffect (hwindow ▸ hi), hwindow, ih (Window.partner_lt hi),
      Window.partner_partner]
    by_cases heven : 2 ∣ k
    · rw [if_pos heven, if_neg (by omega)]
    · rw [if_neg heven, if_pos (by omega)]

theorem flipped_stepped (h : s.effect = .flip) (hstart : s.flipped = false) (k : ℕ) :
    (s.stepped waves k).flipped = !decide (2 ∣ k) := by
  induction k with
  | zero => exact hstart
  | succ k ih =>
    have heffect : (s.stepped waves k).effect = .flip := (effect_stepped waves s k).trans h
    have hturns : 2 ∣ k + 1 ↔ ¬ 2 ∣ k := by omega
    rw [stepped, step_of_flip heffect]
    change (!(s.stepped waves k).flipped) = _
    rw [ih, decide_eq_decide.2 hturns, decide_not]

theorem place_stepped_flip (h : s.effect = .flip) (hstart : s.flipped = false)
    (hinitial : s.wave = s.initial) (k : ℕ) (hi : i < s.window.size) :
    (s.stepped waves k).place i = if 2 ∣ k then s.initial.byte (s.window.first + i)
      else negated (s.initial.byte (s.window.first + i)) := by
  induction k with
  | zero =>
    rw [if_pos (dvd_zero 2), ← hinitial]
    rfl
  | succ k _ =>
    have heffect : (s.stepped waves k).effect = .flip := (effect_stepped waves s k).trans h
    have hwindow := window_stepped waves s k
    rw [stepped, place_step_flip heffect (hwindow ▸ hi), flipped_stepped h hstart, hwindow,
      initial_stepped, Bool.not_not]
    by_cases heven : 2 ∣ k
    · rw [if_pos (decide_eq_true heven), if_neg (by omega)]
    · rw [if_neg (by simpa using heven), if_pos (by omega)]

/-! ## Patterns -/

/-- What the effects that go by a pattern have made of a wave in so many steps. The other wave is the
one that the amount names, and a place is counted from the first position of the window. -/
structure Patterned (r : Reshaping) (w : Window) (wave other : Wave) (k : ℕ) (v : Wave) : Prop where
  /-- No effect writes outside of the window. -/
  outside : w.SameOutside wave v
  /-- The window is turned to the left, one place in each step. -/
  rotate : r.effect = .rotate →
    ∀ i < w.size, v.byte (w.first + i) = wave.byte (w.first + (i + k % w.size) % w.size)
  /-- A byte has been negated once for each of the steps whose turn it was. -/
  negateByte : r.effect = .negateByte → ∀ i < w.size,
    v.byte (w.first + i) = negated^[k.count (· ≡ i [MOD w.size])] (wave.byte (w.first + i))
  negateByte_restores : r.effect = .negateByte → 2 * w.size ∣ k → v = wave
  /-- The bytes of each pair are exchanged in every other step. -/
  swapPairs : r.effect = .swapPairs → ∀ i < w.size,
    v.byte (w.first + i) = wave.byte (w.first + if 2 ∣ k then i else w.partner i)
  swapPairs_restores : r.effect = .swapPairs → 2 ∣ k → v = wave
  flip : r.effect = .flip → ∀ i < w.size, v.byte (w.first + i) =
    if 2 ∣ k then wave.byte (w.first + i) else negated (wave.byte (w.first + i))
  flip_restores : r.effect = .flip → 2 ∣ k → v = wave
  raise : r.effect = .raise → ∀ i < w.size,
    v.byte (w.first + i) = wave.byte (w.first + i) + UInt8.ofNat k * r.amount.toUInt8
  raise_restores : r.effect = .raise → 256 ∣ k → v = wave
  /-- The bytes up to the one of the last step are negated. -/
  negateRun : r.effect = .negateRun → 0 < k → ∀ i < w.size, v.byte (w.first + i) =
    if i ≤ (k - 1) % w.size then negated (wave.byte (w.first + i)) else wave.byte (w.first + i)
  /-- The byte of the last step is negated. -/
  negateOne : r.effect = .negateOne → 0 < k → ∀ i < w.size, v.byte (w.first + i) =
    if i = (k - 1) % w.size then negated (wave.byte (w.first + i)) else wave.byte (w.first + i)
  blend : r.effect = .blend → ∀ i < w.size,
    v.byte (w.first + i) = wave.byte (w.first + i) + UInt8.ofNat k * other.byte (w.first + i)

/-- What the steps alone make. -/
theorem patterned_stepped (r : Reshaping) (wave : Wave) (seed : UInt64) (waves : Array Wave)
    (k : ℕ) :
    Patterned r (.between r.left.toNat r.right.toNat) wave
      (waves[r.amount.toNat]?.getD .silent) k ((start r wave seed).stepped waves k).wave := by
  let s := start r wave seed
  let w := Window.between r.left.toNat r.right.toNat
  have hwindow : (s.stepped waves k).window = w := window_stepped waves s k
  have hplace : ∀ i, ((s.stepped waves k).wave.byte (w.first + i)) = (s.stepped waves k).place i := by
    intro i
    rw [place, hwindow]
  have houtside : w.SameOutside wave (s.stepped waves k).wave :=
    hwindow ▸ ((within_start r wave seed).stepped waves k).outside
  have hrestored : (∀ i < w.size, (s.stepped waves k).place i = wave.byte (w.first + i)) →
      (s.stepped waves k).wave = wave := by
    intro hin
    apply houtside.eq
    intro i hi
    rw [hplace, hin i hi]
  constructor
  case outside => exact houtside
  case rotate =>
    intro h i hi
    rw [hplace, place_stepped_rotate h k hi, Nat.add_mod_mod]
    rfl
  case negateByte =>
    intro h i hi
    rw [hplace, place_stepped_negateByte h rfl k hi]
    rfl
  case negateByte_restores =>
    intro h hrounds
    apply hrestored
    intro i hi
    have heven := even_count_of_rounds w.size_pos hrounds i
    rw [place_stepped_negateByte h rfl k hi]
    exact congrFun (negated_involutive.iterate_even heven) _
  case swapPairs =>
    intro h i hi
    rw [hplace, place_stepped_swapPairs h k hi]
    rfl
  case swapPairs_restores =>
    intro h heven
    apply hrestored
    intro i hi
    rw [place_stepped_swapPairs h k hi, if_pos heven]
    rfl
  case flip =>
    intro h i hi
    rw [hplace]
    exact place_stepped_flip h rfl rfl k hi
  case flip_restores =>
    intro h heven
    apply hrestored
    intro i hi
    rw [place_stepped_flip h rfl rfl k hi, if_pos heven]
    rfl
  case raise =>
    intro h i hi
    rw [hplace, place_stepped_raise h k hi]
    rfl
  case raise_restores =>
    intro h hrounds
    apply hrestored
    intro i hi
    rw [place_stepped_raise h k hi, ofNat_mul_of_dvd hrounds, UInt8.add_zero]
    rfl
  case negateRun =>
    intro h hpos i hi
    obtain ⟨m, rfl⟩ := Nat.exists_eq_add_one_of_ne_zero hpos.ne'
    rw [hplace]
    exact place_stepped_negateRun h rfl m hi
  case negateOne =>
    intro h hpos i hi
    obtain ⟨m, rfl⟩ := Nat.exists_eq_add_one_of_ne_zero hpos.ne'
    rw [hplace]
    exact place_stepped_negateOne h rfl rfl m hi
  case blend =>
    intro h i hi
    rw [hplace, place_stepped_blend h k hi]
    rfl

/-- **Effects that go by a pattern, in closed form.** Take any effect with any arguments and any delay,
on any wave, and let it make any number of ticks. The steps made are the ticks over one more than the
delay, rounded up. In the window, rotating has turned the bytes to the left by as many places as steps,
negating byte by byte has negated each as often as its turn came, exchanging pairs and flipping depend
on whether the number of steps is even, and raising and blending have added as many times the same.
Negating a run or one byte shows where the last step was made, and all else is the wave at the start. So
a negator is back after two rounds, the exchange and the flip after two steps, raising after 256. Outside
of the window no byte changes. The negative of the lowest signed byte is the byte itself. -/
theorem goes_by_pattern (r : Reshaping) (wave : Wave) (seed : UInt64) (waves : Array Wave) (n : ℕ) :
    Patterned r (.between r.left.toNat r.right.toNat) wave
        (waves[r.amount.toNat]?.getD .silent) (n ⌈/⌉ (r.delay.toNat + 1))
        ((start r wave seed).after waves n).wave ∧
      ∀ b, (negated b).toInt8.toInt = if b.toInt8.toInt = -128 then -128 else -b.toInt8.toInt := by
  refine ⟨?_, toInt_negated⟩
  rw [after_start, ← r.steps_eq_ceilDiv]
  exact patterned_stepped r wave seed waves (r.steps n)

end Shaper

end Chiptune
