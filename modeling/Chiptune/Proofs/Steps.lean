import Mathlib
import Chiptune.Proofs.Offsets

/-!
# Ticks are steps and waiting

An effect makes a step, waits for its delay, and makes the next. So what it has made of a waveform after
some ticks is what its steps alone make of it, and a step can be looked at byte by byte: a rewriting from
left to right finds every byte from such as are not yet rewritten.

* `Wave.byte_rewritten`: a stretch rewritten in place, in closed form.
* `Shaper.stepped`, `Shaper.after_start`: **ticks are steps and waiting.**
* `Shaper.cursor_stepped`: a cursor goes round its window.
-/

namespace Chiptune

/-! ## Waves -/

theorem toInt8_toInt_inj {b c : UInt8} : b.toInt8.toInt = c.toInt8.toInt ↔ b = c := by
  rw [Int8.toInt_inj]
  exact ⟨congrArg Int8.toUInt8, congrArg UInt8.toInt8⟩

namespace Wave

variable {w : Wave} {f : Wave → ℕ → UInt8} {first count j : ℕ}

theorem rewritten_succ (w : Wave) (first count : ℕ) (f : Wave → ℕ → UInt8) :
    w.rewritten first (count + 1) f =
      (w.rewritten first count f).put (first + count)
        (f (w.rewritten first count f) (first + count)) := by
  unfold rewritten
  rw [List.range'_1_concat, List.foldl_append]
  rfl

/-- **A stretch rewritten in place**, by a rule that finds a byte from itself and those after it: they
are still those of the wave at the start when the byte is found. -/
theorem byte_rewritten (hf : ∀ v i, (∀ k, i ≤ k → v.byte k = w.byte k) → f v i = f w i)
    (hj : j < 128) : (w.rewritten first count f).byte j =
      if first ≤ j ∧ j < first + count then f w j else w.byte j := by
  induction count generalizing j with
  | zero =>
    rw [if_neg (by omega)]
    rfl
  | succ count ih =>
    have hlater : ∀ k, first + count ≤ k → (w.rewritten first count f).byte k = w.byte k := by
      intro k hk
      by_cases hinside : k < 128
      · rw [ih hinside, if_neg (by omega)]
      · rw [byte_of_ge _ (by omega), byte_of_ge _ (by omega)]
    rw [rewritten_succ, byte_put _ _ _ hj, hf _ _ hlater, ih hj]
    by_cases hlast : j = first + count
    · rw [if_pos hlast, if_pos (by omega), hlast]
    · rw [if_neg hlast]
      congr 1
      rw [eq_iff_iff]
      omega

end Wave

/-! ## Windows -/

namespace Window

variable {w : Window} {i k : ℕ}

theorem size_pos (w : Window) : 0 < w.size := by
  have := w.first_le_last
  unfold size
  omega

theorem contains_iff_size (w : Window) (i : ℕ) :
    w.contains i = true ↔ w.first ≤ i ∧ i < w.first + w.size := by
  have := w.first_le_last
  unfold size
  rw [contains_iff]
  omega

theorem first_add_lt (hi : i < w.size) : w.first + i < 128 := by
  have := w.last_lt
  unfold size at hi
  omega

/-- The next position of a ring is found modulo its size. -/
theorem next_first_add (hi : i < w.size) : w.next (w.first + i) = w.first + (i + 1) % w.size := by
  have hle := w.first_le_last
  unfold next
  by_cases hlast : i + 1 < w.size
  · rw [Nat.mod_eq_of_lt hlast, if_neg (by unfold size at hlast; omega)]
    omega
  · have hall : i + 1 = w.size := by omega
    rw [hall, Nat.mod_self, if_pos (by unfold size at hall; omega), Nat.add_zero]

/-- Two waves are one if they agree outside of a window and in it. -/
theorem SameOutside.eq {v v' : Wave} (h : w.SameOutside v v')
    (hin : ∀ i < w.size, v'.byte (w.first + i) = v.byte (w.first + i)) : v' = v := by
  apply Wave.ext_byte
  intro j hj
  by_cases hj' : w.contains j = true
  · obtain ⟨hfirst, hlast⟩ := (w.contains_iff_size j).1 hj'
    have hplace := hin (j - w.first) (by omega)
    rwa [Nat.add_sub_cancel' hfirst] at hplace
  · exact h j hj (Bool.eq_false_iff.2 hj')

theorem next_first_add_mod (w : Window) (k : ℕ) :
    w.next (w.first + k % w.size) = w.first + (k + 1) % w.size := by
  rw [next_first_add (Nat.mod_lt k w.size_pos), Nat.mod_add_mod]

theorem previous_next (hi : w.contains i) : w.previous (w.next i) = i := by
  have hle := w.first_le_last
  rw [contains_iff] at hi
  unfold next previous
  split_ifs <;> omega

end Window

/-! ## Steps -/

namespace Reshaping

theorem steps_zero (r : Reshaping) : r.steps 0 = 0 := by
  rw [steps, Nat.zero_add]
  exact Nat.div_eq_of_lt (Nat.lt_succ_self _)

/-- A step is made in the first tick, and in every tick that comes when the delay is over again. -/
theorem steps_eq_ceilDiv (r : Reshaping) (n : ℕ) : r.steps n = n ⌈/⌉ (r.delay.toNat + 1) := by
  rw [Nat.ceilDiv_eq_add_pred_div]
  rfl

end Reshaping

/-- Whether an effect works at a cursor. -/
def Effect.roams : Effect → Bool
  | .negateByte | .negateRun | .negateOne | .raiseByWave | .raiseAndNegate | .noiseByte => true
  | _ => false

namespace Shaper

variable {s s₀ : Shaper} {r : Reshaping} {wave : Wave} {seed : UInt64} {waves : Array Wave}
  {i k n : ℕ}

/-- The shaper after so many steps, without waiting. -/
def stepped (waves : Array Wave) (s : Shaper) : ℕ → Shaper
  | 0 => s
  | k + 1 => (s.stepped waves k).step waves

/-- The shaper with so many ticks to wait. -/
def resting (s : Shaper) (ticks : ℕ) : Shaper :=
  { s with waiting := ticks }

/-- No step looks at the time to wait. -/
theorem step_resting (waves : Array Wave) (s : Shaper) (ticks : ℕ) :
    (s.resting ticks).step waves = (s.step waves).resting ticks := by
  obtain ⟨effect, amount, limit, delay, window, initial, wave, waiting, cursor, offset, overflowed, steps,
    flipped, noise⟩ := s
  cases effect with
  | sweep =>
    by_cases hlt : steps < limit
    · simp only [step, resting, hlt, if_true]
      rfl
    · simp only [step, resting, hlt, if_false]
  | _ => rfl

theorem advance_eq (waves : Array Wave) (s : Shaper) : s.advance waves =
    if s.isDue then (s.step waves).resting s.delay else s.resting (s.waiting - 1) :=
  rfl

theorem after_add (waves : Array Wave) (s : Shaper) (n m : ℕ) :
    s.after waves (n + m) = (s.after waves n).after waves m := by
  induction m with
  | zero => rfl
  | succ m ih => exact congrArg (·.advance waves) ih

theorem paced_after (r : Reshaping) (wave : Wave) (seed : UInt64) (waves : Array Wave) (n : ℕ) :
    ((start r wave seed).after waves n).Paced r n := by
  induction n with
  | zero => exact paced_start r wave seed
  | succ n ih => exact ih.advance waves

/-- **Ticks are steps and waiting.** -/
theorem after_start (r : Reshaping) (wave : Wave) (seed : UInt64) (waves : Array Wave) (n : ℕ) :
    (start r wave seed).after waves n =
      ((start r wave seed).stepped waves (r.steps n)).resting
        (r.steps n * (r.delay.toNat + 1) - n) := by
  induction n with
  | zero =>
    rw [r.steps_zero, Nat.zero_mul]
    rfl
  | succ n ih =>
    have hpaced := paced_after r wave seed waves n
    have hwaiting := hpaced.waiting
    rw [after, advance_eq, hpaced.steps_succ]
    by_cases hdue : ((start r wave seed).after waves n).isDue = true
    · have hzero : ((start r wave seed).after waves n).waiting = 0 := of_decide_eq_true hdue
      have hrests : (r.steps n + 1) * (r.delay.toNat + 1) - (n + 1) = r.delay.toNat := by
        rw [Nat.add_one_mul]
        omega
      have hstep : ((start r wave seed).after waves n).step waves =
          ((start r wave seed).stepped waves (r.steps n + 1)).resting
            (r.steps n * (r.delay.toNat + 1) - n) := by
        rw [ih, step_resting]
        rfl
      rw [if_pos hdue, if_pos hdue, hstep, hpaced.delay, hrests]
      rfl
    · have hrests : ((start r wave seed).after waves n).waiting - 1 =
          r.steps n * (r.delay.toNat + 1) - (n + 1) := by omega
      rw [if_neg hdue, if_neg hdue, hrests, ih]
      rfl

/-- A step is made in the ticks that come after whole rounds of waiting. -/
theorem isDue_after (r : Reshaping) (wave : Wave) (seed : UInt64) (waves : Array Wave) (n : ℕ) :
    ((start r wave seed).after waves n).isDue = true ↔ r.delay.toNat + 1 ∣ n := by
  have hwaiting := (paced_after r wave seed waves n).waiting
  rw [isDue, decide_eq_true_iff]
  constructor
  · intro hzero
    rw [hzero, Nat.add_zero] at hwaiting
    exact ⟨r.steps n, hwaiting.trans (Nat.mul_comm _ _)⟩
  · rintro ⟨m, rfl⟩
    have hsteps : r.steps ((r.delay.toNat + 1) * m) = m := by
      rw [Reshaping.steps_eq_ceilDiv, ← smul_eq_mul]
      exact smul_ceilDiv (Nat.succ_pos _) m
    rw [hsteps, Nat.mul_comm m] at hwaiting
    omega

/-! ## What every step keeps -/

theorem settings_stepped (waves : Array Wave) (s : Shaper) (k : ℕ) :
    (s.stepped waves k).settings = s.settings := by
  induction k with
  | zero => rfl
  | succ k ih => exact (settings_step waves _).trans ih

theorem effect_stepped (waves : Array Wave) (s : Shaper) (k : ℕ) :
    (s.stepped waves k).effect = s.effect :=
  congrArg (·.1) (settings_stepped waves s k)

theorem amount_stepped (waves : Array Wave) (s : Shaper) (k : ℕ) :
    (s.stepped waves k).amount = s.amount :=
  congrArg (·.2.1) (settings_stepped waves s k)

theorem initial_stepped (waves : Array Wave) (s : Shaper) (k : ℕ) :
    (s.stepped waves k).initial = s.initial :=
  congrArg (·.2.2.2.2) (settings_stepped waves s k)

theorem otherWave_stepped (waves : Array Wave) (s : Shaper) (k : ℕ) :
    (s.stepped waves k).otherWave waves = s.otherWave waves := by
  unfold otherWave
  rw [amount_stepped]

theorem Within.stepped (h : s₀.Within s) (waves : Array Wave) (k : ℕ) :
    s₀.Within (s.stepped waves k) := by
  induction k with
  | zero => exact h
  | succ k ih => exact ih.step waves

theorem window_step (waves : Array Wave) (s : Shaper) : (s.step waves).window = s.window := by
  obtain ⟨effect, amount, limit, delay, window, initial, wave, waiting, cursor, offset, overflowed, steps,
    flipped, noise⟩ := s
  cases effect with
  | sweep =>
    simp only [step]
    split <;> rfl
  | _ => rfl

theorem window_stepped (waves : Array Wave) (s : Shaper) (k : ℕ) :
    (s.stepped waves k).window = s.window := by
  induction k with
  | zero => rfl
  | succ k ih => exact (window_step waves _).trans ih

theorem window_after_start (r : Reshaping) (wave : Wave) (seed : UInt64) (waves : Array Wave)
    (n : ℕ) : ((start r wave seed).after waves n).window =
      Window.between r.left.toNat r.right.toNat := by
  rw [after_start]
  exact window_stepped waves _ _

/-! ## The window -/

/-- The byte at a place of the window, counted from its first position. -/
def place (s : Shaper) (i : ℕ) : UInt8 :=
  s.wave.byte (s.window.first + i)

/-- A window rewritten in place, by a rule that finds a byte from itself and those after it. -/
theorem place_rewritten {f : Wave → ℕ → UInt8}
    (hf : ∀ v j, (∀ k, j ≤ k → v.byte k = s.wave.byte k) → f v j = f s.wave j)
    (hi : i < s.window.size) : (s.rewritten f).place i = f s.wave (s.window.first + i) := by
  have hwindow : s.window.first ≤ s.window.first + i ∧
      s.window.first + i < s.window.first + s.window.size := by omega
  exact (Wave.byte_rewritten hf (Window.first_add_lt hi)).trans (if_pos hwindow)

/-- A rule that finds a byte from itself, or from another wave. -/
theorem place_rewritten_own (f : UInt8 → ℕ → UInt8) (hi : i < s.window.size) :
    (s.rewritten fun v j => f (v.byte j) j).place i = f (s.place i) (s.window.first + i) := by
  refine place_rewritten (fun v j hv => ?_) hi
  rw [hv j le_rfl]

/-! ## The cursor -/

theorem cursor_step (waves : Array Wave) (s : Shaper) : (s.step waves).cursor =
    if s.effect.roams then s.window.next s.cursor else s.cursor := by
  obtain ⟨effect, amount, limit, delay, window, initial, wave, waiting, cursor, offset, overflowed, steps,
    flipped, noise⟩ := s
  cases effect with
  | sweep =>
    simp only [step]
    split <;> rfl
  | _ => rfl

/-- A cursor goes round its window. -/
theorem cursor_stepped (hroams : s.effect.roams = true) (hfirst : s.cursor = s.window.first)
    (waves : Array Wave) (k : ℕ) :
    (s.stepped waves k).cursor = s.window.first + k % s.window.size := by
  induction k with
  | zero => exact hfirst
  | succ k ih =>
    rw [stepped, cursor_step, effect_stepped, window_stepped, if_pos hroams, ih,
      Window.next_first_add_mod]

end Shaper

end Chiptune
