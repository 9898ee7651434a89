import Mathlib
import Chiptune.Proofs.Finish

/-!
# How long a row lasts

Rows are due at the interrupts whose number is a multiple of the speed. So a row that keeps the speed
lasts as many interrupts as the speed says, but a row that sets it lasts up to the next multiple of
the new speed, which may come sooner.

* `Abreast`: until the end is known every interrupt is counted in the progress of the song.
* `exists_nextRow`: the next row comes after just the interrupts that are waited for.
* `next_row`: **when the row after a row is played.**
-/

namespace Chiptune.Sequencer

variable {looping : Bool} {s s' : Sequencer} {f : Frame}

/-- The number of the interrupt at which the next row is played, if that comes to pass under given
loop flags. -/
def nextRow? : List Bool → Sequencer → Option ℕ
  | [], _ => none
  | looping :: flags, s =>
    if s.playsRow then some s.interrupts
    else match s.renderFrame looping with
      | none => none
      | some (_, s') => nextRow? flags s'

theorem nextRow?_of_playsRow (hrow : s.playsRow = true) {flags : List Bool}
    (hflags : 0 < flags.length) : nextRow? flags s = some s.interrupts := by
  obtain ⟨looping, flags, rfl⟩ := List.exists_cons_of_length_pos hflags
  rw [nextRow?, if_pos hrow]

theorem nextRow?_cons_of_some (hrow : s.playsRow = false) (hr : s.renderFrame looping = some (f, s'))
    (flags : List Bool) : nextRow? (looping :: flags) s = nextRow? flags s' := by
  rw [nextRow?, hrow, if_neg Bool.false_ne_true, hr]

/-- A song whose progress has counted all of its interrupts, if its end is open. -/
def Abreast (s : Sequencer) : Prop :=
  s.endFrame = none → s.progress.interrupts = s.interrupts

theorem Abreast.follows (h : s.Abreast) (hf : Follows looping s f s') : s'.Abreast := by
  have hmove := hf.move
  unfold Abreast
  rw [hf.interrupts]
  generalize s'.progress = p at hmove ⊢
  generalize s'.endFrame = o at hmove ⊢
  intro ho
  cases hmove with
  | stay hstay =>
    have hi := hstay.resolve_right (not_not.2 ho)
    rw [hi, h ho]
    rfl
  | count hi he hd =>
    rw [hi, ← h he]
    rfl
  | turn hi he hd hgo =>
    rw [hi, ← h he]
    exact (Progress.speed_turn _ _ _ _).2
  | finish => cases ho

theorem Abreast.run (h : s.Abreast) (flags : List Bool) : (run flags s).2.Abreast :=
  run_induction (fun hf hs => hs.follows hf) h

/-- A row is played at a multiple of the speed. -/
theorem Abreast.mod_speed (h : s.Abreast) (hrow : s.playsRow = true) :
    s.interrupts % s.progress.speed = 0 := by
  obtain ⟨-, hopen, hdue⟩ := playsRow_iff.1 hrow
  rw [← h hopen]
  simpa [Progress.isDue] using hdue

/-! ## Waiting for the next row -/

/-- What a frame leaves to wait for, if it plays no row. -/
theorem waits_follows (h : s.Steady) (hopen : s.endFrame = none) (hrow : s.playsRow = false)
    (hf : Follows looping s f s') :
    s'.endFrame = none ∧ s'.interrupts + s'.progress.wait = s.interrupts + s.progress.wait ∧
      Nearer (0, s'.progress.wait, s'.lag) (0, s.progress.wait, s.lag) := by
  have hmove := hf.move
  have hlag := lag_follows h.toSound hf
  rw [hf.interrupts]
  generalize s'.progress = p at hmove ⊢
  generalize s'.endFrame = o at hmove ⊢
  cases hmove with
  | stay hstay =>
    have hi := hstay.resolve_right (not_not.2 hopen)
    refine ⟨hopen, ?_, .right _ (.right _ (hlag hi))⟩
    rw [hi]
    rfl
  | count hi he hd =>
    have hwait := Progress.wait_of_not_isDue h.speed_pos hd
    refine ⟨rfl, ?_, .right _ (.left _ _ (by omega))⟩
    rw [hi, hwait, Bool.toNat_true]
    omega
  | turn hi he hd | finish hi he hd =>
    rw [playsRow_iff.2 ⟨hi, he, hd⟩] at hrow
    cases hrow

/-- **The next row comes** after the interrupts that are waited for, under any loop flags. -/
theorem exists_nextRow (h : s.Steady) (hopen : s.endFrame = none) :
    ∃ n, ∀ flags : List Bool, n ≤ flags.length →
      nextRow? flags s = some (s.interrupts + s.progress.wait) := by
  induction hd : ((0, s.progress.wait, s.lag) : ℕ × ℕ × ℕ) using wellFounded_nearer.induction
    generalizing s with
  | _ d ih =>
    cases hrow : s.playsRow with
    | true =>
      obtain ⟨-, -, hdue⟩ := playsRow_iff.1 hrow
      refine ⟨1, fun flags hflags => ?_⟩
      rw [nextRow?_of_playsRow hrow hflags, Progress.wait_of_isDue hdue, Nat.add_zero]
    | false =>
      have hstep (looping : Bool) : ∃ n, ∀ flags : List Bool, n ≤ flags.length →
          nextRow? (looping :: flags) s = some (s.interrupts + s.progress.wait) := by
        cases hr : s.renderFrame looping with
        | none =>
          have hend := (renderFrame_eq_none_iff looping s).1 hr
          simp [isFinished, hopen] at hend
        | some r =>
          have hf := follows_of_renderFrame hr
          obtain ⟨hopen', hsum, hnearer⟩ := waits_follows h hopen hrow hf
          obtain ⟨n, hn⟩ := ih _ (hd ▸ hnearer) (h.follows hf) hopen' rfl
          refine ⟨n, fun flags hlen => ?_⟩
          rw [nextRow?_cons_of_some hrow hr, ← hsum]
          exact hn flags hlen
      -- the flag of the frame has no part in the wait, but it leads to another song
      choose n hn using hstep
      refine ⟨max (n true) (n false) + 1, fun flags hlen => ?_⟩
      obtain ⟨looping, flags, rfl⟩ := List.exists_cons_of_length_pos (Nat.zero_lt_of_lt hlen)
      refine hn looping flags ?_
      rw [List.length_cons] at hlen
      cases looping <;> omega

/-- After a row the wait is for the next multiple of the speed that it has set. -/
theorem waits_of_playsRow (h : s.Steady) (habreast : s.Abreast) (hrow : s.playsRow = true)
    (hf : Follows looping s f s') (hgo : s'.endFrame = none) :
    s'.interrupts + s'.progress.wait =
      s.interrupts + (s'.progress.speed - s.interrupts % s'.progress.speed) := by
  have hspeed := (h.toSound.follows hf).speed_pos
  obtain ⟨-, hturn⟩ := hf.turn_of_playsRow hrow hgo
  obtain ⟨hi, he, -⟩ := playsRow_iff.1 hrow
  rw [hturn] at hspeed ⊢
  have hrowSpeed := (s.rowProgress.speed_turn s.song looping s.goal?).1
  have hwait := Progress.wait_counted (p := { s.progress with speed := s.rowProgress.speed })
    (hrowSpeed ▸ hspeed)
  change s.rowProgress.wait + 1 = _ - s.progress.interrupts % _ at hwait
  rw [habreast he] at hwait
  rw [hf.interrupts, hi, Progress.wait_turn, hrowSpeed, ← hwait, Bool.toNat_true]
  omega

/-! ## The length of a row -/

variable {score : Score} {index : ℕ} {setup : Setup} {s₀ q q' : Sequencer}

theorem exists_nextRow_of_playsRow (h : q.Steady) (habreast : q.Abreast) (hrow : q.playsRow = true)
    (hf : Follows looping q f q') (hgo : q'.endFrame = none) :
    ∃ n, ∀ later : List Bool, n ≤ later.length →
      nextRow? later q' =
        some (q.interrupts + (q'.progress.speed - q.interrupts % q'.progress.speed)) := by
  rw [← waits_of_playsRow h habreast hrow hf hgo]
  exact exists_nextRow (h.follows hf) hgo

theorem abreast_start (h₀ : start score index setup = .ok s₀) (limit : Option ℕ) :
    (s₀.setLoopLimit limit).Abreast := by
  obtain ⟨-, song, -, rfl⟩ := start_eq_ok h₀
  intro _
  rfl

/-- **The row after a row.** If a row is played at an interrupt and does not end the song, then the
next row is played at the first later interrupt whose number is a multiple of the speed that the row
has left, whatever the loop flags. So no row lasts more interrupts than its speed; a row lasts just
as many exactly if it began at a multiple of that speed, as every row does that keeps the speed. -/
theorem next_row (h₀ : start score index setup = .ok s₀) (limit : Option ℕ) (flags : List Bool)
    (hq : (run flags (s₀.setLoopLimit limit)).2 = q) (hrow : q.playsRow = true)
    (hr : q.renderFrame looping = some (f, q')) (hgo : q'.endFrame = none) :
    let speed := q'.progress.speed
    let next := q.interrupts + (speed - q.interrupts % speed)
    (∃ n, ∀ later : List Bool, n ≤ later.length → nextRow? later q' = some next) ∧
      q.interrupts < next ∧ next ≤ q.interrupts + speed ∧ speed ∣ next ∧
      (next = q.interrupts + speed ↔ speed ∣ q.interrupts) ∧
      (speed = q.progress.speed → next = q.interrupts + speed) := by
  intro speed next
  obtain ⟨hstart, -⟩ := start_eq_ok h₀
  have hsteady : q.Steady := hq ▸ (hstart.setLoopLimit limit).run flags
  have habreast : q.Abreast := hq ▸ (abreast_start h₀ limit).run flags
  have hf := follows_of_renderFrame hr
  have hpos : 0 < speed := (hsteady.follows hf).speed_pos
  have hlt : q.interrupts % speed < speed := Nat.mod_lt _ hpos
  have hfull : next = q.interrupts + speed ↔ speed ∣ q.interrupts := by
    rw [Nat.dvd_iff_mod_eq_zero]
    omega
  refine ⟨exists_nextRow_of_playsRow hsteady habreast hrow hf hgo, by omega, by omega, ?_, hfull,
    ?_⟩
  · -- the interrupts since the last multiple are made up for
    have hsum : next = q.interrupts - q.interrupts % speed + speed := by
      have := Nat.mod_le q.interrupts speed
      omega
    rw [hsum]
    exact (Nat.dvd_sub_mod _).add (dvd_refl _)
  · intro hkeep
    obtain ⟨-, hopen, hdue⟩ := playsRow_iff.1 hrow
    rw [hfull, ← habreast hopen, hkeep]
    exact Nat.dvd_of_mod_eq_zero (by simpa [Progress.isDue] using hdue)

/-- A song of four rows, the second of which slows it down. -/
def stagger : Score :=
  { songs := #[⟨1, 4, 0, 0, 0, 200⟩]
    parts := #[⟨0, 0, 0⟩, ⟨4, 0, 0⟩, ⟨4, 0, 0⟩, ⟨4, 0, 0⟩]
    notes := #[⟨0, 0, 0, 0⟩, ⟨0, 0, 0x0F, 2⟩, ⟨0, 0, 0, 0⟩, ⟨0, 0, 0, 0⟩] }

def staggering : Sequencer :=
  .atStart stagger ⟨1, 4, 0, 0, 0, 200⟩ { rate := 2000 }

theorem start_stagger : start stagger 0 { rate := 2000 } = .ok staggering := rfl

/-- The third row keeps the speed of two, and so it lasts for two interrupts. -/
theorem stagger_next_row :
    start stagger 0 { rate := 2000 } = .ok staggering ∧
      ∃ q f q', (run (List.replicate 20 false) (staggering.setLoopLimit none)).2 = q ∧
        q.playsRow = true ∧ q.renderFrame false = some (f, q') ∧ q'.endFrame = none ∧
        ∃ n, ∀ later : List Bool, n ≤ later.length → nextRow? later q' = some 4 := by
  set q := (run (List.replicate 20 false) (staggering.setLoopLimit none)).2 with hq
  obtain ⟨hrow, htwo, hafter⟩ : q.playsRow = true ∧ q.interrupts = 2 ∧
      (q.renderFrame false).map (fun r => (r.2.endFrame, r.2.progress.speed)) = some (none, 2) := by
    decide +kernel
  obtain ⟨⟨f, q'⟩, hr, hq'⟩ := Option.map_eq_some_iff.1 hafter
  obtain ⟨hgo, hspeed⟩ := Prod.mk.inj hq'
  have hnext := (next_row start_stagger none _ hq.symm hrow hr hgo).1
  rw [htwo, hspeed] at hnext
  exact ⟨start_stagger, q, f, q', rfl, hrow, hr, hgo, hnext⟩

/-- The second row sets the speed to two at interrupt 1, but interrupt 2 brings the next row. -/
theorem stagger_short_row :
    start stagger 0 { rate := 2000 } = .ok staggering ∧
      ∃ q f q', (run (List.replicate 10 false) (staggering.setLoopLimit none)).2 = q ∧
        q.playsRow = true ∧ q.renderFrame false = some (f, q') ∧ q'.endFrame = none ∧
        q.interrupts = 1 ∧ q'.progress.speed = 2 ∧
        nextRow? (List.replicate 10 false) q' = some 2 ∧
        ¬ ∃ n, ∀ later : List Bool, n ≤ later.length →
          nextRow? later q' = some (q.interrupts + q'.progress.speed) := by
  set q := (run (List.replicate 10 false) (staggering.setLoopLimit none)).2 with hq
  obtain ⟨hrow, hone, hafter⟩ : q.playsRow = true ∧ q.interrupts = 1 ∧
      (q.renderFrame false).map (fun r =>
        (r.2.endFrame, r.2.progress.speed, nextRow? (List.replicate 10 false) r.2)) =
        some (none, 2, some 2) := by decide +kernel
  obtain ⟨⟨f, q'⟩, hr, hq'⟩ := Option.map_eq_some_iff.1 hafter
  obtain ⟨hgo, hq'⟩ := Prod.mk.inj hq'
  obtain ⟨hspeed, hten⟩ := Prod.mk.inj hq'
  obtain ⟨hstart, -⟩ := start_eq_ok start_stagger
  obtain ⟨n, hn⟩ := exists_nextRow_of_playsRow ((hstart.setLoopLimit none).run _)
    ((abreast_start start_stagger none).run _) hrow (follows_of_renderFrame hr) hgo
  refine ⟨start_stagger, q, f, q', rfl, hrow, hr, hgo, hone, hspeed, hten, ?_⟩
  rintro ⟨m, hm⟩
  -- a run that is long enough for both would have its next row at two interrupts
  have htwo := hn (List.replicate (max n m) false) (by simp)
  have hthree := hm (List.replicate (max n m) false) (by simp)
  rw [hthree, hone, hspeed] at htwo
  cases htwo

end Chiptune.Sequencer
