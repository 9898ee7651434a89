import Mathlib
import Chiptune.Play.Progress

/-!
# Passes of a song

Between two loops a song only goes forward: a directive that leads to an earlier place, or to the
same one, closes the pass. So a pass has no more rows than the steps up to the last one hold, and
under a loop limit few rows are left.

* `rowsLeft_turn`: **each row leaves fewer rows to play**, whatever its directives say.
* `OnTrack`: where a song can be before its end; a song may start past its last step, but then its
  first row closes a pass.
-/

namespace Chiptune.Progress

variable {song : Song} {p : Progress} {goal : Option Place} {looping : Bool}

/-- Rows of a step as they are played: a step without rows is left after one. -/
def stepRows (song : Song) : ℕ :=
  max 1 song.rows.toNat

/-- Rows of the steps up to the last one. -/
def passRows (song : Song) : ℕ :=
  (song.last.toNat + 1) * stepRows song

/-- Rows before a place. -/
def rank (song : Song) (place : Place) : ℕ :=
  place.step * stepRows song + place.row

/-- Where a song can be before its end. -/
structure OnTrack (song : Song) (p : Progress) : Prop where
  row : p.place.row < stepRows song
  step : p.place.step ≤ song.last.toNat ∨ p.place = ⟨song.first.toNat, 0⟩

/-- No more rows than these are played before the end, if the loops are limited. -/
def rowsLeft (song : Song) (limit : ℕ) (p : Progress) : ℕ :=
  (limit - p.loops) * passRows song + max 1 (passRows song - rank song p.place)

theorem onTrack_start (song : Song) : (start song).OnTrack song :=
  ⟨Nat.lt_of_lt_of_le Nat.one_pos (Nat.le_max_left _ _), Or.inr rfl⟩

theorem passRows_pos (song : Song) : 0 < passRows song :=
  Nat.mul_pos (Nat.succ_pos _) (Nat.lt_of_lt_of_le Nat.one_pos (Nat.le_max_left _ _))

/-- The limit allows one more pass than there are loops. -/
theorem rowsLeft_start_le (song : Song) (limit : ℕ) :
    (start song).rowsLeft song limit ≤ (limit + 1) * passRows song := by
  have := passRows_pos song
  change limit * passRows song + max 1 (passRows song - _) ≤ _
  rw [Nat.add_mul, Nat.one_mul]
  omega

theorem rank_lt_of_step_lt {a b : Place} (ha : a.row < stepRows song) (h : a.step < b.step) :
    rank song a < rank song b := by
  have : (a.step + 1) * stepRows song ≤ b.step * stepRows song := Nat.mul_le_mul_right _ h
  rw [Nat.add_mul] at this
  unfold rank
  omega

theorem rank_lt_passRows {a : Place} (ha : a.row < stepRows song) (h : a.step ≤ song.last.toNat) :
    rank song a < passRows song := by
  have := rank_lt_of_step_lt (b := ⟨song.last.toNat + 1, 0⟩) ha (Nat.lt_succ_of_le h)
  exact this.trans_le (Nat.add_zero _).le

/-- A row that closes no pass goes forward, to a place in the song. -/
theorem rank_nextPlace (h : p.OnTrack song) (hopen : p.closesPass song goal = false) :
    (p.nextPlace song goal).step ≤ song.last.toNat ∧
      rank song p.place < rank song (p.nextPlace song goal) := by
  simp only [closesPass, Bool.or_eq_false_iff, isPast, decide_eq_false_iff_not, not_lt] at hopen
  obtain ⟨hstep, hback⟩ := hopen
  refine ⟨hstep, ?_⟩
  cases goal with
  | none =>
    have hrow := h.row
    unfold nextPlace
    simp only [Option.getD_none, Option.map_none]
    split
    · exact Nat.add_lt_add_left (Nat.lt_succ_self _) _
    · exact rank_lt_of_step_lt hrow (Nat.lt_succ_self _)
  | some g =>
    -- a goal that is not ahead would have closed the pass
    simp only [Option.isSome_some, Bool.true_and, Place.notAfter, Bool.or_eq_false_iff,
      decide_eq_false_iff_not, Bool.and_eq_false_imp, decide_eq_true_eq, not_lt, not_le] at hback
    rcases Nat.lt_or_ge p.place.step (p.nextPlace song (some g)).step with hlt | hge
    · exact rank_lt_of_step_lt h.row hlt
    · have hsame := Nat.le_antisymm hge hback.1
      have := hback.2 hsame
      unfold rank
      rw [hsame]
      omega

theorem mayLoop_iff {limit : ℕ} (hlimit : p.loopLimit = some limit) :
    p.mayLoop looping = true ↔ looping = true ∧ p.loops < limit := by
  simp [mayLoop, hlimit]

/-- A row that does not end the song goes on in the pass, or takes a loop to a step of the song. -/
theorem turn_cases (hgo : p.ends song looping goal = false) :
    (p.closesPass song goal = false ∧
      p.turn song looping goal = { p with place := p.nextPlace song goal }) ∨
    ∃ step ≤ song.last.toNat, p.mayLoop looping = true ∧
      p.turn song looping goal =
        { p with place := { p.nextPlace song goal with step }, loops := p.loops + 1 } := by
  unfold turn
  cases hclose : p.closesPass song goal with
  | false => exact Or.inl ⟨rfl, rfl⟩
  | true =>
    have hmay : p.mayLoop looping = true := by simpa [ends, hclose] using hgo
    rw [hmay]
    refine Or.inr ⟨_, ?_, rfl, rfl⟩
    split
    · exact song.loopTarget_le
    · rename_i hpast
      simpa [isPast] using hpast

/-- **Each row leaves fewer rows to play**, unless it ends the song, and leaves the song on its
track. -/
theorem rowsLeft_turn (h : p.OnTrack song) (hgo : p.ends song looping goal = false) :
    (p.turn song looping goal).OnTrack song ∧
      ∀ limit, p.loopLimit = some limit →
        (p.turn song looping goal).rowsLeft song limit < p.rowsLeft song limit := by
  have hrow := p.row_nextPlace_lt song goal
  obtain ⟨hclose, hturn⟩ | ⟨step, hstep, hmay, hturn⟩ := turn_cases hgo <;> rw [hturn]
  · obtain ⟨hstep, hrank⟩ := rank_nextPlace h hclose
    have hlt : rank song (p.nextPlace song goal) < passRows song := rank_lt_passRows hrow hstep
    refine ⟨⟨hrow, Or.inl hstep⟩, fun limit _ => ?_⟩
    simp only [rowsLeft]
    omega
  · refine ⟨⟨hrow, Or.inl hstep⟩, fun limit hlimit => ?_⟩
    -- a loop is used up, which pays for all rows of the next pass
    have hloops := ((mayLoop_iff hlimit).1 hmay).2
    obtain ⟨k, hk⟩ : ∃ k, limit - p.loops = k + 1 := ⟨limit - p.loops - 1, by omega⟩
    have hk' : limit - (p.loops + 1) = k := by omega
    have := passRows_pos song
    simp only [rowsLeft, hk, hk', Nat.add_mul]
    omega

/-- A row ends a song that loops only when all loops were taken. -/
theorem limit_le_of_ends {limit : ℕ} (hlimit : p.loopLimit = some limit)
    (hend : p.ends song true goal = true) : limit ≤ p.loops := by
  have hmay := ((p.ends_iff song true goal).1 hend).2
  by_contra hlt
  rw [(mayLoop_iff hlimit).2 ⟨rfl, not_le.1 hlt⟩] at hmay
  cases hmay

/-- Loops are taken only below the limit. -/
theorem loops_turn_le {limit : ℕ} (hlimit : p.loopLimit = some limit) (h : p.loops ≤ limit) :
    (p.turn song looping goal).loops ≤ limit := by
  unfold turn
  dsimp only
  split
  · rename_i hturn
    exact ((mayLoop_iff hlimit).1 (Bool.and_eq_true_iff.1 hturn).2).2
  · exact h

theorem loops_turn_of_ends (hend : p.ends song looping goal = true) :
    (p.turn song looping goal).loops = p.loops := by
  have hmay := ((p.ends_iff song looping goal).1 hend).2
  rw [turn, hmay, Bool.and_false]
  rfl

/-! ## Interrupts between rows -/

/-- Interrupts until the next row. -/
def wait (p : Progress) : ℕ :=
  (p.speed - p.interrupts % p.speed) % p.speed

theorem wait_turn (song : Song) (looping : Bool) (p : Progress) (goal : Option Place) :
    (p.turn song looping goal).wait = p.wait := by
  obtain ⟨hspeed, hinterrupts⟩ := p.speed_turn song looping goal
  rw [wait, wait, hspeed, hinterrupts]

/-- With the interrupt that is being counted, a row and the wait after it come to the next multiple of
the speed. -/
theorem wait_counted (hspeed : 0 < p.speed) :
    p.counted.wait + 1 = p.speed - p.interrupts % p.speed := by
  have hlt := Nat.mod_lt p.interrupts hspeed
  have hnext : (p.interrupts + 1) % p.speed = (p.interrupts % p.speed + 1) % p.speed :=
    (Nat.mod_add_mod p.interrupts p.speed 1).symm
  change (p.speed - (p.interrupts + 1) % p.speed) % p.speed + 1 = _
  rw [hnext]
  rcases Nat.lt_or_ge (p.interrupts % p.speed + 1) p.speed with hmore | hlast
  · rw [Nat.mod_eq_of_lt hmore, Nat.mod_eq_of_lt (by omega)]
    omega
  · rw [show p.interrupts % p.speed + 1 = p.speed by omega, Nat.mod_self, Nat.sub_zero,
      Nat.mod_self]
    omega

/-- A row that is due is not waited for. -/
theorem wait_of_isDue (h : p.isDue = true) : p.wait = 0 := by
  have hzero : p.interrupts % p.speed = 0 := by simpa [isDue] using h
  rw [wait, hzero, Nat.sub_zero, Nat.mod_self]

/-- In the middle of a row every interrupt brings the next row nearer by one. -/
theorem wait_of_not_isDue (hspeed : 0 < p.speed) (h : p.isDue = false) :
    p.wait = p.counted.wait + 1 := by
  have hpos : p.interrupts % p.speed ≠ 0 := by simpa [isDue] using h
  rw [wait_counted hspeed, wait, Nat.mod_eq_of_lt (by omega)]

end Chiptune.Progress
