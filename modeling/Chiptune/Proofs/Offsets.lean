import Mathlib
import Chiptune.Proofs.Windows

/-!
# Period offsets

Two effects move the period by an amount in each step: one for a limited number of steps, the other
without end. The offset is held by a 32-bit register, and what is left of it there is the sum of all
amounts, as long as the sum fits.

* `Reshaping.steps`: how many steps are made in some ticks.
* `Shaper.gathered_start`: **the exact sum of all amounts**, told by the ticks.
* `Shaper.offset_run`: the register holds this sum, modulo its width.
* `Shaper.overflowed_run_start`: **a check for overflow fails exactly if the sum does not fit.**
* `Reshaping.tame_total`: when the sum stays far enough from the ends of the register for a period to
  be added to it.
-/

namespace Chiptune

namespace Word

/-- Whether a number fits a two's complement register of some bits. -/
def Fits (bits : ℕ) (n : ℤ) : Prop :=
  -2 ^ (bits - 1) ≤ n ∧ n < 2 ^ (bits - 1)

instance (bits : ℕ) (n : ℤ) : Decidable (Fits bits n) :=
  inferInstanceAs (Decidable (_ ∧ _))

theorem fits_32 (n : ℤ) : Fits 32 n ↔ -0x80000000 ≤ n ∧ n < 0x80000000 :=
  Iff.rfl

theorem fits32_iff (n : ℤ) : fits32 n = true ↔ Fits 32 n := by
  rw [fits32, fits_32, Bool.and_eq_true, decide_eq_true_iff, decide_eq_true_iff]

theorem fits_signed32 (n : ℤ) : Fits 32 (signed32 n) := by
  have hlo : -(0x100000000 / 2 : ℤ) ≤ n.bmod 0x100000000 := Int.le_bmod (by norm_num)
  have hhi : n.bmod 0x100000000 < (0x100000000 + 1) / 2 := Int.bmod_lt (by norm_num)
  exact ⟨hlo, hhi⟩

theorem signed32_eq_iff {n : ℤ} : signed32 n = n ↔ Fits 32 n := by
  constructor
  · intro h
    rw [← h]
    exact fits_signed32 n
  · rintro ⟨hlo, hhi⟩
    exact signed32_of_fits hlo hhi

theorem signed32_add (a b : ℤ) : signed32 (signed32 a + b) = signed32 (a + b) :=
  Int.bmod_add_bmod

end Word

open Word (Fits fits32 signed32)

namespace Reshaping

variable (r : Reshaping)

/-- The steps that are made in so many ticks: one at once, and then one whenever the delay is over. -/
def steps (ticks : ℕ) : ℕ :=
  (ticks + r.delay.toNat) / (r.delay.toNat + 1)

/-- The period offset of a step. -/
def unit : ℤ :=
  r.amount.toInt16.toInt

/-- How many of them move the period. -/
def moves (ticks : ℕ) : ℕ :=
  match r.effect with
  | .sweep => min (r.steps ticks) r.right.toNat
  | .drift => r.steps ticks
  | _ => 0

/-- The period offset of so many ticks. -/
def total (ticks : ℕ) : ℤ :=
  r.moves ticks * r.unit

/-- Only a drift of very many steps leads far. -/
def IsTame (ticks : ℕ) : Prop :=
  r.effect = .drift → r.steps ticks ≤ 65535

theorem unit_bounds : -32768 ≤ r.unit ∧ r.unit ≤ 32767 := by
  have hlo := r.amount.toInt16.le_toInt
  have hhi := r.amount.toInt16.toInt_lt
  unfold unit
  omega

theorem moves_zero : r.moves 0 = 0 := by
  have hnone : r.steps 0 = 0 := by
    rw [steps, Nat.zero_add]
    exact Nat.div_eq_of_lt (Nat.lt_succ_self _)
  unfold moves
  rw [hnone, Nat.zero_min]
  split <;> rfl

variable {r} in
/-- No sweep has a limit of more than 65535 steps. -/
theorem moves_le {ticks : ℕ} (h : r.IsTame ticks) : r.moves ticks ≤ 65535 := by
  unfold moves
  split
  · have hright := r.right.toNat_lt
    omega
  · rename_i hdrift
    exact h hdrift
  · omega

variable {r} in
/-- **Every offset is tame, but for a drift of more than 65535 steps.** -/
theorem tame_total {ticks : ℕ} (h : r.IsTame ticks) :
    -2147450880 ≤ r.total ticks ∧ r.total ticks ≤ 2147450880 := by
  obtain ⟨hlo, hhi⟩ := r.unit_bounds
  have hmoves := moves_le h
  have hsome : (0 : ℤ) ≤ r.moves ticks := Int.natCast_nonneg _
  unfold total
  constructor
  · calc (-2147450880 : ℤ) ≤ r.moves ticks * -32768 := by omega
      _ ≤ r.moves ticks * r.unit := Int.mul_le_mul_of_nonneg_left hlo hsome
  · calc r.moves ticks * r.unit ≤ r.moves ticks * 32767 :=
          Int.mul_le_mul_of_nonneg_left hhi hsome
      _ ≤ 2147450880 := by omega

variable {r} in
theorem fits_total {ticks : ℕ} (h : r.IsTame ticks) : Fits 32 (r.total ticks) := by
  obtain ⟨hlo, hhi⟩ := tame_total h
  rw [Word.fits_32]
  omega

theorem steps_le (ticks : ℕ) : r.steps ticks ≤ ticks := by
  have hticks : ticks ≤ ticks * r.delay.toNat.succ := Nat.le_mul_of_pos_right _ (Nat.succ_pos _)
  apply Nat.le_of_lt_succ
  rw [steps, Nat.div_lt_iff_lt_mul (Nat.succ_pos _), Nat.succ_mul]
  omega

theorem moves_mono : Monotone r.moves := by
  intro m n hmn
  have hsteps : r.steps m ≤ r.steps n := Nat.div_le_div_right (by omega)
  unfold moves
  split <;> omega

/-- The sum leads away from zero, so it does not come back into its register. -/
theorem fits_total_of_le {m n : ℕ} (hmn : m ≤ n) (h : Fits 32 (r.total n)) : Fits 32 (r.total m) := by
  have hmoves : (r.moves m : ℤ) ≤ r.moves n := Int.ofNat_le.2 (r.moves_mono hmn)
  have hsome : (0 : ℤ) ≤ r.moves m := Int.natCast_nonneg _
  rw [Word.fits_32] at h ⊢
  unfold total at h ⊢
  rcases le_total 0 r.unit with hup | hdown
  · have hle : r.moves m * r.unit ≤ r.moves n * r.unit := Int.mul_le_mul_of_nonneg_right hmoves hup
    have hpos : 0 ≤ r.moves m * r.unit := Int.mul_nonneg hsome hup
    omega
  · have hle : r.moves n * r.unit ≤ r.moves m * r.unit := Int.mul_le_mul_of_nonpos_right hmoves hdown
    have hneg : r.moves m * r.unit ≤ 0 := mul_nonpos_of_nonneg_of_nonpos hsome hdown
    omega

variable {r} in
/-- The next step comes when the delay after the last one is over. -/
theorem steps_succ_of_due {ticks : ℕ} (h : r.steps ticks * (r.delay.toNat + 1) = ticks) :
    r.steps (ticks + 1) = r.steps ticks + 1 := by
  have hsum : ticks + 1 + r.delay.toNat = (r.steps ticks + 1) * (r.delay.toNat + 1) := by
    rw [Nat.add_mul, h]
    omega
  rw [steps, hsum, Nat.mul_div_cancel _ (Nat.succ_pos _)]

variable {r} in
theorem steps_succ_of_waiting {ticks : ℕ} (h : ticks < r.steps ticks * (r.delay.toNat + 1)) :
    r.steps (ticks + 1) = r.steps ticks := by
  apply Nat.le_antisymm
  · rw [← Nat.lt_succ_iff]
    change (ticks + 1 + r.delay.toNat) / (r.delay.toNat + 1) < r.steps ticks + 1
    have hroom : ticks + 1 + r.delay.toNat < (r.steps ticks + 1) * (r.delay.toNat + 1) := by
      rw [Nat.add_mul]
      omega
    exact (Nat.div_lt_iff_lt_mul (Nat.succ_pos _)).2 hroom
  · exact Nat.div_le_div_right (by omega)

end Reshaping

namespace Shaper

variable {s : Shaper} {waves : Array Wave} {tables : List (Array Wave)}

/-! ## What a tick adds -/

/-- The part of a shaper that stays. -/
def settings (s : Shaper) : Effect × UInt16 × ℕ × ℕ × Wave :=
  (s.effect, s.amount, s.limit, s.delay, s.initial)

/-- Whether a step moves the period: only a drift does, and a sweep up to its limit. -/
def IsMoving (s : Shaper) : Prop :=
  s.effect = .drift ∨ s.effect = .sweep ∧ s.steps < s.limit

instance (s : Shaper) : Decidable s.IsMoving :=
  inferInstanceAs (Decidable (_ ∨ _))

/-- What the next tick adds to the offset. -/
def added (s : Shaper) : ℤ :=
  if s.isDue = true ∧ s.IsMoving then s.amount.toInt16.toInt else 0

/-- What the next ticks add to it. -/
def gathered (s : Shaper) : List (Array Wave) → ℤ
  | [] => 0
  | waves :: tables => s.added + (s.advance waves).gathered tables

/-- The register of the offset, and whether a check of it has failed. -/
def register (s : Shaper) : ℤ × Bool :=
  (s.offset, s.overflowed)

/-- All that an effect on the bytes of the wave leaves as it is. -/
def kept (s : Shaper) : (Effect × UInt16 × ℕ × ℕ × Wave) × (ℤ × Bool) × ℕ :=
  (s.settings, s.register, s.steps)

theorem kept_moved (s : Shaper) : s.moved.kept = s.kept :=
  rfl

theorem kept_negatedAtCursor (s : Shaper) : s.negatedAtCursor.kept = s.kept :=
  rfl

theorem kept_step_of_bytes (waves : Array Wave) (hsweep : s.effect ≠ .sweep)
    (hdrift : s.effect ≠ .drift) : (s.step waves).kept = s.kept := by
  unfold step
  split
  case h_7 => exact (kept_moved _).trans (kept_negatedAtCursor _)
  case h_9 => exact ((kept_moved _).trans (kept_negatedAtCursor _)).trans rfl
  case h_11 he => exact absurd he hsweep
  case h_18 he => exact absurd he hdrift
  all_goals rfl

theorem step_of_sweep (waves : Array Wave) (h : s.effect = .sweep) : s.step waves =
    if s.steps < s.limit then { s.shifted with steps := s.steps + 1 } else s := by
  simp only [step, h]

theorem step_of_drift (waves : Array Wave) (h : s.effect = .drift) : s.step waves = s.shifted := by
  simp only [step, h]

theorem settings_step (waves : Array Wave) (s : Shaper) : (s.step waves).settings = s.settings := by
  by_cases hsweep : s.effect = .sweep
  · rw [step_of_sweep waves hsweep]
    split <;> rfl
  by_cases hdrift : s.effect = .drift
  · rw [step_of_drift waves hdrift]
    rfl
  · exact congrArg (·.1) (kept_step_of_bytes waves hsweep hdrift)

/-- Only a sweep counts its steps, up to its limit. -/
theorem steps_step (waves : Array Wave) (s : Shaper) : (s.step waves).steps =
    if s.effect = .sweep ∧ s.steps < s.limit then s.steps + 1 else s.steps := by
  by_cases hsweep : s.effect = .sweep
  · rw [step_of_sweep waves hsweep]
    simp only [hsweep, true_and]
    split <;> rfl
  rw [if_neg fun h => hsweep h.1]
  by_cases hdrift : s.effect = .drift
  · rw [step_of_drift waves hdrift]
    rfl
  · exact congrArg (·.2.2) (kept_step_of_bytes waves hsweep hdrift)

theorem register_step (waves : Array Wave) (s : Shaper) : (s.step waves).register =
    if s.IsMoving then s.shifted.register else s.register := by
  by_cases hsweep : s.effect = .sweep
  · rw [step_of_sweep waves hsweep]
    simp only [IsMoving, hsweep, reduceCtorEq, false_or, true_and]
    split <;> rfl
  by_cases hdrift : s.effect = .drift
  · rw [step_of_drift waves hdrift]
    exact (if_pos (Or.inl hdrift)).symm
  · have hstill : ¬ s.IsMoving := by
      rintro (h | ⟨h, -⟩)
      · exact hdrift h
      · exact hsweep h
    rw [if_neg hstill]
    exact congrArg (·.2.1) (kept_step_of_bytes waves hsweep hdrift)

theorem settings_advance (waves : Array Wave) (s : Shaper) :
    (s.advance waves).settings = s.settings := by
  unfold advance
  split
  · exact settings_step waves s
  · rfl

/-- **A tick adds to what the register holds**, modulo its width, and a check of the sum may fail. -/
theorem register_advance (waves : Array Wave) (h : Fits 32 s.offset) : (s.advance waves).register =
    (signed32 (s.offset + s.added), s.overflowed || !fits32 (s.offset + s.added)) := by
  have hkept : s.register = (signed32 (s.offset + 0), s.overflowed || !fits32 (s.offset + 0)) := by
    rw [add_zero, Word.signed32_eq_iff.2 h, (Word.fits32_iff _).2 h, Bool.not_true, Bool.or_false]
    rfl
  have hwaits (ticks : ℕ) (s : Shaper) : register { s with waiting := ticks } = s.register := rfl
  unfold advance added
  by_cases hdue : s.isDue = true
  · rw [if_pos hdue, hwaits, register_step]
    by_cases hmoving : s.IsMoving
    · rw [if_pos hmoving, if_pos ⟨hdue, hmoving⟩]
      rfl
    · rw [if_neg hmoving, if_neg fun hadds => hmoving hadds.2]
      exact hkept
  · rw [if_neg hdue, if_neg fun hadds => hdue hadds.1, hwaits]
    exact hkept

theorem run_concat (s : Shaper) (tables : List (Array Wave)) (waves : Array Wave) :
    s.run (tables ++ [waves]) = (s.run tables).advance waves := by
  rw [run, List.foldl_append]
  rfl

theorem gathered_concat (s : Shaper) (tables : List (Array Wave)) (waves : Array Wave) :
    s.gathered (tables ++ [waves]) = s.gathered tables + (s.run tables).added := by
  induction tables generalizing s with
  | nil =>
    change s.added + 0 = 0 + s.added
    omega
  | cons waves' tables ih =>
    change s.added + (s.advance waves').gathered (tables ++ [waves]) =
      s.added + (s.advance waves').gathered tables + ((s.advance waves').run tables).added
    rw [ih, add_assoc]

/-- **The register holds the sum of all amounts**, modulo its width. -/
theorem offset_run (h : Fits 32 s.offset) (tables : List (Array Wave)) :
    (s.run tables).offset = signed32 (s.offset + s.gathered tables) := by
  induction tables using List.reverseRecOn with
  | nil =>
    change s.offset = signed32 (s.offset + 0)
    rw [add_zero]
    exact (Word.signed32_eq_iff.2 h).symm
  | append_singleton tables waves ih =>
    have hfits : Fits 32 (s.run tables).offset := by
      rw [ih]
      exact Word.fits_signed32 _
    have hregister := congrArg Prod.fst (register_advance waves hfits)
    dsimp only [register] at hregister
    rw [run_concat, gathered_concat, hregister, ih, Word.signed32_add, add_assoc]

/-! ## The sum -/

/-- A shaper of an effect after so many ticks: the next step comes when the delay is over, and the steps
of a sweep are counted up to its limit. -/
structure Paced (r : Reshaping) (ticks : ℕ) (s : Shaper) : Prop where
  effect : s.effect = r.effect
  amount : s.amount = r.amount
  limit : s.limit = r.right.toNat
  delay : s.delay = r.delay.toNat
  waiting : ticks + s.waiting = r.steps ticks * (r.delay.toNat + 1)
  steps : s.steps = if r.effect = .sweep then min (r.steps ticks) r.right.toNat else 0

variable {r : Reshaping} {ticks : ℕ}

theorem paced_start (r : Reshaping) (wave : Wave) (seed : UInt64) :
    Paced r 0 (start r wave seed) := by
  have hnone : r.steps 0 = 0 := by
    rw [Reshaping.steps, Nat.zero_add]
    exact Nat.div_eq_of_lt (Nat.lt_succ_self _)
  refine ⟨rfl, rfl, rfl, rfl, ?_, ?_⟩
  · rw [hnone, Nat.zero_mul]
    rfl
  · rw [hnone, Nat.zero_min, ite_self]
    rfl

/-- A tick is due exactly when one more step is made in it. -/
theorem Paced.steps_succ (h : s.Paced r ticks) :
    r.steps (ticks + 1) = if s.isDue then r.steps ticks + 1 else r.steps ticks := by
  have hwaiting := h.waiting
  by_cases hdue : s.isDue = true
  · rw [if_pos hdue]
    apply Reshaping.steps_succ_of_due
    have hzero : s.waiting = 0 := by simpa [isDue] using hdue
    omega
  · rw [if_neg hdue]
    apply Reshaping.steps_succ_of_waiting
    have hsome : s.waiting ≠ 0 := by simpa [isDue] using hdue
    omega

theorem Paced.advance (h : s.Paced r ticks) (waves : Array Wave) :
    (s.advance waves).Paced r (ticks + 1) := by
  obtain ⟨heffect, hamount, hlimit, hdelay, -⟩ :
      (s.advance waves).effect = s.effect ∧ (s.advance waves).amount = s.amount ∧
        (s.advance waves).limit = s.limit ∧ (s.advance waves).delay = s.delay ∧
        (s.advance waves).initial = s.initial := by
    simpa only [settings, Prod.mk.injEq] using settings_advance waves s
  refine ⟨heffect.trans h.effect, hamount.trans h.amount, hlimit.trans h.limit,
    hdelay.trans h.delay, ?_, ?_⟩
  · have hwaiting := h.waiting
    rw [h.steps_succ]
    unfold Shaper.advance
    by_cases hdue : s.isDue = true
    · have hzero : s.waiting = 0 := by simpa [isDue] using hdue
      have hset : s.delay = r.delay.toNat := h.delay
      rw [if_pos hdue, if_pos hdue, Nat.add_mul]
      dsimp only
      omega
    · have hsome : s.waiting ≠ 0 := by simpa [isDue] using hdue
      rw [if_neg hdue, if_neg hdue]
      dsimp only
      omega
  · have hsteps := h.steps
    rw [h.steps_succ]
    unfold Shaper.advance
    by_cases hdue : s.isDue = true
    · rw [if_pos hdue, if_pos hdue]
      dsimp only
      rw [steps_step, h.effect, h.limit, hsteps]
      by_cases hsweep : r.effect = .sweep
      · simp only [hsweep, true_and, if_true]
        split <;> omega
      · simp only [hsweep, false_and, if_false]
    · rw [if_neg hdue, if_neg hdue]
      exact hsteps

theorem Paced.run (h : s.Paced r ticks) (tables : List (Array Wave)) :
    (s.run tables).Paced r (ticks + tables.length) := by
  induction tables generalizing s ticks with
  | nil => exact h
  | cons waves tables ih =>
    have hrest := ih (h.advance waves)
    rwa [Nat.add_right_comm] at hrest

theorem Paced.moves_succ (h : s.Paced r ticks) :
    r.moves (ticks + 1) = r.moves ticks + if s.isDue = true ∧ s.IsMoving then 1 else 0 := by
  have hmoving : s.IsMoving ↔
      r.effect = .drift ∨ r.effect = .sweep ∧ r.steps ticks < r.right.toNat := by
    unfold IsMoving
    rw [h.effect, h.limit, h.steps]
    constructor
    · rintro (hdrift | ⟨hsweep, hlt⟩)
      · exact Or.inl hdrift
      · rw [if_pos hsweep] at hlt
        exact Or.inr ⟨hsweep, by omega⟩
    · rintro (hdrift | ⟨hsweep, hlt⟩)
      · exact Or.inl hdrift
      · refine Or.inr ⟨hsweep, ?_⟩
        rw [if_pos hsweep]
        omega
  unfold Reshaping.moves
  rw [h.steps_succ]
  by_cases hdue : s.isDue = true
  · simp only [hdue, if_true, true_and, hmoving]
    split <;> rename_i he
    · simp only [he, reduceCtorEq, false_or, true_and]
      split <;> omega
    · rw [if_pos (Or.inl he)]
    · rename_i hsweep
      have hstill : ¬ (r.effect = .drift ∨ r.effect = .sweep ∧ r.steps ticks < r.right.toNat) := by
        rintro (hd | ⟨hs, -⟩)
        · exact he hd
        · exact hsweep hs
      rw [if_neg hstill]
  · simp only [hdue, Bool.false_eq_true, if_false, false_and, Nat.add_zero]

/-- **The sum of all amounts, told by the ticks.** -/
theorem gathered_start (r : Reshaping) (wave : Wave) (seed : UInt64) (tables : List (Array Wave)) :
    (start r wave seed).gathered tables = r.total tables.length := by
  induction tables using List.reverseRecOn with
  | nil =>
    rw [Reshaping.total, List.length_nil, r.moves_zero, Nat.cast_zero, zero_mul]
    rfl
  | append_singleton tables waves ih =>
    have hpaced := (paced_start r wave seed).run tables
    rw [Nat.zero_add] at hpaced
    have hunit : ((start r wave seed).run tables).amount.toInt16.toInt = r.unit := by
      rw [hpaced.amount, Reshaping.unit]
    rw [gathered_concat, ih, List.length_append, List.length_singleton]
    unfold Reshaping.total added
    rw [hpaced.moves_succ, hunit]
    split
    · rw [Nat.cast_add, Nat.cast_one, Int.add_mul, one_mul]
    · rw [Nat.add_zero, add_zero]

/-- From the start on, the register holds the sum. -/
theorem offset_run_start (r : Reshaping) (wave : Wave) (seed : UInt64) (tables : List (Array Wave)) :
    ((start r wave seed).run tables).offset = signed32 ((start r wave seed).gathered tables) := by
  have hzero : (start r wave seed).offset = 0 := rfl
  have hfits : Fits 32 0 := by decide
  have hrun := offset_run (hzero ▸ hfits) tables
  rwa [hzero, zero_add] at hrun

/-- As long as it is tame, the offset is the sum. -/
theorem offset_run_of_tame (h : r.IsTame tables.length) (wave : Wave) (seed : UInt64) :
    ((start r wave seed).run tables).offset = r.total tables.length := by
  rw [offset_run_start, gathered_start]
  exact Word.signed32_eq_iff.2 (Reshaping.fits_total h)

/-- **A check for overflow fails exactly if the sum does not fit.** -/
theorem overflowed_run_start (r : Reshaping) (wave : Wave) (seed : UInt64)
    (tables : List (Array Wave)) : ((start r wave seed).run tables).overflowed = true ↔
      ¬ Fits 32 ((start r wave seed).gathered tables) := by
  induction tables using List.reverseRecOn with
  | nil =>
    have hfits : Fits 32 0 := by decide
    exact iff_of_false Bool.false_ne_true (not_not_intro hfits)
  | append_singleton tables waves ih =>
    have hoffset := offset_run_start r wave seed tables
    have hfits : Fits 32 ((start r wave seed).run tables).offset := by
      rw [hoffset]
      exact Word.fits_signed32 _
    have hregister := congrArg Prod.snd (register_advance waves hfits)
    dsimp only [register] at hregister
    rw [run_concat, gathered_concat, hregister, Bool.or_eq_true, Bool.not_eq_true',
      ← Bool.not_eq_true, Word.fits32_iff, ih]
    by_cases hbefore : Fits 32 ((start r wave seed).gathered tables)
    · -- so far the register holds the sum itself
      rw [hoffset, Word.signed32_eq_iff.2 hbefore, or_iff_right (not_not_intro hbefore)]
    · refine iff_of_true (Or.inl hbefore) fun hafter => hbefore ?_
      rw [← gathered_concat _ tables waves, gathered_start] at hafter
      rw [gathered_start]
      exact r.fits_total_of_le (by simp) hafter

/-! ## The numbers of a step -/

theorem level_towards (b target : UInt8) : (towards b target).toInt8.toInt =
    b.toInt8.toInt + (target.toInt8.toInt - b.toInt8.toInt).sign := by
  have hlo := b.toInt8.le_toInt
  have hhi := b.toInt8.toInt_lt
  have hlo' := target.toInt8.le_toInt
  have hhi' := target.toInt8.toInt_lt
  unfold towards
  split
  · rw [Int.sign_eq_one_of_pos (by omega), UInt8.toInt8_add, Int8.toInt_add]
    exact Int.bmod_eq_of_le (by simp; omega) (by simp; omega)
  split
  · rw [Int.sign_eq_neg_one_of_neg (by omega), UInt8.toInt8_sub, Int8.toInt_sub]
    exact Int.bmod_eq_of_le (by simp; omega) (by simp; omega)
  · have hsame : target.toInt8.toInt - b.toInt8.toInt = 0 := by omega
    rw [hsame, Int.sign_zero, add_zero]

/-- An average of bytes is one. -/
theorem fits_tdiv {n k : ℤ} (hk : 0 < k) (hlo : -128 * k ≤ n) (hhi : n ≤ 127 * k) :
    Fits 8 (n.tdiv k) := by
  have hlowest : (-128 * k).tdiv k = -128 := Int.mul_tdiv_cancel _ hk.ne'
  have hhighest : (127 * k).tdiv k = 127 := Int.mul_tdiv_cancel _ hk.ne'
  have hle := Int.tdiv_le_tdiv hk hlo
  have hge := Int.tdiv_le_tdiv hk hhi
  unfold Fits
  norm_num
  omega

/-- The numbers of a step fit their registers: the counters 16 bits, the positions the wave, the sums of
bytes 16 bits, and what becomes a byte again 8. -/
structure NumbersFit (s : Shaper) : Prop where
  waiting : s.waiting ≤ s.delay ∧ s.delay < 2 ^ 16
  steps : s.steps < s.limit → s.steps + 1 < 2 ^ 16
  cursor : s.cursor < 128 ∧ s.window.next s.cursor < 128 ∧ s.window.previous s.cursor < 128
  nearer : ∀ (v w : Wave) (i : ℕ), Fits 16 (w.level i - v.level i) ∧
    (towards (v.byte i) (w.byte i)).toInt8.toInt = v.level i + (w.level i - v.level i).sign
  half : ∀ (v : Wave) (i : ℕ), Fits 16 (v.level i + v.level (i + 1)) ∧
    Fits 8 ((v.level i + v.level (i + 1)).tdiv 2)
  quarter : ∀ (v : Wave) (i : ℕ), Fits 16 (2 * v.level i) ∧
    Fits 16 (v.level (i - 1) + 2 * v.level i) ∧
    Fits 16 (v.level (i - 1) + 2 * v.level i + v.level (i + 1)) ∧
    Fits 8 ((v.level (i - 1) + 2 * v.level i + v.level (i + 1)).tdiv 4)

theorem Paced.numbersFit (h : s.Paced r ticks) {s₀ : Shaper} (hs : s₀.Within s) :
    s.NumbersFit := by
  have hdelay := r.delay.toNat_lt
  have hright := r.right.toNat_lt
  refine ⟨⟨?_, ?_⟩, ?_, ?_, ?_, ?_, ?_⟩
  · -- the last step was made no longer ago than the delay
    have hwaiting := h.waiting
    have hsteps : r.steps ticks * (r.delay.toNat + 1) ≤ ticks + r.delay.toNat :=
      Nat.div_mul_le_self _ _
    rw [h.delay]
    omega
  · rw [h.delay]
    exact hdelay
  · rw [h.limit]
    intro hlt
    omega
  · have hlast := s.window.last_lt
    have hcursor := (s.window.contains_iff _).1 hs.cursor
    have hnext := (s.window.contains_iff _).1 (Window.next_mem hs.cursor)
    have hprevious := (s.window.contains_iff _).1 (Window.previous_mem hs.cursor)
    omega
  · intro v w i
    have hv := v.level_bounds i
    have hw := w.level_bounds i
    refine ⟨⟨?_, ?_⟩, level_towards _ _⟩ <;> norm_num <;> omega
  · intro v i
    have hv := v.level_bounds i
    have hv' := v.level_bounds (i + 1)
    refine ⟨⟨?_, ?_⟩, fits_tdiv (by norm_num) ?_ ?_⟩ <;> norm_num <;> omega
  · intro v i
    have hv := v.level_bounds (i - 1)
    have hv' := v.level_bounds i
    have hv'' := v.level_bounds (i + 1)
    refine ⟨⟨?_, ?_⟩, ⟨?_, ?_⟩, ⟨?_, ?_⟩, fits_tdiv (by norm_num) ?_ ?_⟩ <;> norm_num <;> omega

end Shaper

end Chiptune
