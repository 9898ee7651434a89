import Mathlib
import Chiptune.Tone.Contour

/-!
# Contours in closed form

A contour waits on its first entry, walks through its entries and then goes round its loop, or stays on
the last entry. Once it may pause, on an entry that it is told. So the entry it is on is a function of
its ticks, and no run of the contour is needed to find it.

* `Walk.place`: the place of a walk that ends in a loop.
* `Envelope.entryAt`: the entry after so many ticks, if there is no pause.
* `Contour.after_contourAt`: **every tick keeps to the closed form**.
* `Contour.after_pausing`: a pause puts off what comes after it, and nothing else.
* `Contour.entry_reached`: all of this for every envelope, with a walk that stays inside its table
  whatever tables it is put on.
-/

namespace Chiptune

/-! ## Loops -/

namespace Walk

variable {start total k : ℕ}

/-- The place after so many steps of a walk through so many places, which after the last one goes round
from one of them on. -/
def place (start total k : ℕ) : ℕ :=
  if k < total then k else start + (k - start) % (total - start)

/-- In the loop the place is found modulo its size, in the first round as in all others. -/
theorem place_of_le (hloop : start < total) (hk : start ≤ k) :
    place start total k = start + (k - start) % (total - start) := by
  unfold place
  by_cases hfirst : k < total
  · rw [if_pos hfirst, Nat.mod_eq_of_lt (by omega)]
    omega
  · exact if_neg hfirst

theorem place_lt (hloop : start < total) (k : ℕ) : place start total k < total := by
  unfold place
  split
  · assumption
  · have hround := Nat.mod_lt (k - start) (show 0 < total - start by omega)
    omega

/-- **A step leads to the next place**, and from the last one back to the loop. -/
theorem place_succ (hloop : start < total) (k : ℕ) : place start total (k + 1) =
    if place start total k + 1 < total then place start total k + 1 else start := by
  by_cases hk : k + 1 < total
  · have hbefore : place start total k = k := if_pos (by omega)
    rw [hbefore, if_pos hk]
    exact if_pos hk
  · -- both places are in the loop, and the round may end between them
    rw [place_of_le hloop (by omega), place_of_le hloop (by omega)]
    have hround := Nat.mod_lt (k - start) (show 0 < total - start by omega)
    have hnext : k + 1 - start = k - start + 1 := by omega
    rw [hnext, ← Nat.mod_add_mod]
    generalize (k - start) % (total - start) = j at hround ⊢
    by_cases hlast : j + 1 < total - start
    · rw [Nat.mod_eq_of_lt hlast, if_pos (by omega)]
      omega
    · have hall : j + 1 = total - start := by omega
      rw [hall, Nat.mod_self, if_neg (by omega), Nat.add_zero]

end Walk

/-! ## Without a pause -/

namespace Envelope

variable {e : Envelope} {n k p : ℕ}

/-- Entries of the envelope, as far as a table has them. -/
def total (e : Envelope) : ℕ :=
  min 128 (e.length.toNat + e.loop.toNat)

/-- The entry that the loop begins with. Without a loop it lies past the last. -/
def loopStart (e : Envelope) : ℕ :=
  min e.length.toNat e.total

/-- The entry after so many steps. -/
def entryOfSteps (e : Envelope) (k : ℕ) : ℕ :=
  if k < e.total then k
  else if e.loopStart < e.total then
    e.loopStart + (k - e.loopStart) % (e.total - e.loopStart)
  else e.total - 1

/-- The entry after so many ticks, the first of which are spent waiting. -/
def entryAt (e : Envelope) (n : ℕ) : ℕ :=
  if n ≤ e.delay.toNat then 0 else e.entryOfSteps (n - e.delay.toNat)

theorem loopStart_le (e : Envelope) : e.loopStart ≤ e.total :=
  Nat.min_le_right _ _

theorem entryOfSteps_of_loop (hloop : e.loopStart < e.total) (k : ℕ) :
    e.entryOfSteps k = Walk.place e.loopStart e.total k := by
  unfold entryOfSteps
  rw [if_pos hloop]
  rfl

/-- **A step leads to the next entry**; from the last one back to the loop, or nowhere if there is
none. -/
theorem entryOfSteps_succ (e : Envelope) (k : ℕ) :
    e.entryOfSteps (k + 1) =
      if e.entryOfSteps k + 1 < e.total then e.entryOfSteps k + 1
      else if e.loopStart < e.total then e.loopStart
      else e.total - 1 := by
  by_cases hloop : e.loopStart < e.total
  · rw [entryOfSteps_of_loop hloop, entryOfSteps_of_loop hloop, if_pos hloop, Walk.place_succ hloop]
  by_cases hk : k + 1 < e.total
  · have hbefore : e.entryOfSteps k = k := if_pos (by omega)
    rw [hbefore, if_pos hk]
    exact if_pos hk
  · have hstays : e.entryOfSteps (k + 1) = e.total - 1 := by
      unfold entryOfSteps
      rw [if_neg hk, if_neg hloop]
    have hlast : ¬ e.entryOfSteps k + 1 < e.total := by
      unfold entryOfSteps
      rw [if_neg hloop]
      split <;> omega
    rw [hstays, if_neg hlast, if_neg hloop]

/-- Before the first step a walk is on the first entry, so that waiting is taking no step. -/
theorem entryAt_eq (e : Envelope) (n : ℕ) : e.entryAt n = e.entryOfSteps (n - e.delay.toNat) := by
  unfold entryAt
  by_cases hwaits : n ≤ e.delay.toNat
  · have hstart := e.loopStart_le
    rw [if_pos hwaits, Nat.sub_eq_zero_of_le hwaits, entryOfSteps]
    split
    · rfl
    · rw [if_neg (by omega)]
      omega
  · exact if_neg hwaits

/-- The ticks until an entry is reached first. -/
def arrival (e : Envelope) (p : ℕ) : ℕ :=
  if p = 0 then 0 else e.delay.toNat + p

theorem entryAt_arrival (h : p < e.total) : e.entryAt (e.arrival p) = p := by
  unfold arrival entryAt
  by_cases hp : p = 0
  · rw [if_pos hp, if_pos (Nat.zero_le _), hp]
  · have hsteps : e.delay.toNat + p - e.delay.toNat = p := by omega
    rw [if_neg hp, if_neg (by omega), hsteps]
    exact if_pos h

theorem entryAt_ne_of_lt_arrival (h : p < e.total) (hn : n < e.arrival p) : e.entryAt n ≠ p := by
  have hp : p ≠ 0 := by
    rintro rfl
    exact Nat.not_lt_zero n hn
  rw [arrival, if_neg hp] at hn
  unfold entryAt
  split
  · exact hp.symm
  · have hsteps : e.entryOfSteps (n - e.delay.toNat) = n - e.delay.toNat := if_pos (by omega)
    omega

end Envelope

namespace Contour

variable {e : Envelope} {n p s : ℕ}

/-- The walk of an envelope after so many ticks, if there is no pause. -/
def contourAt (e : Envelope) (n : ℕ) : Contour where
  wave := e.wave.toNat
  delay := e.delay.toNat
  length := e.loopStart
  total := e.total
  position := e.entryAt n
  waiting := e.delay.toNat - n
  pause := none

theorem ofEnvelope?_eq (h : 0 < e.total) : ofEnvelope? e = some (contourAt e 0) := by
  have hfirst : e.entryAt 0 = 0 := if_pos (Nat.zero_le _)
  unfold ofEnvelope?
  dsimp only
  rw [if_neg (by unfold Envelope.total at h; omega), contourAt, hfirst]
  rfl

/-- **Every tick keeps to the closed form.** -/
theorem advance_contourAt (e : Envelope) (n : ℕ) :
    (contourAt e n).advance = contourAt e (n + 1) := by
  have hunpaused : (contourAt e n).paused? = none := rfl
  rw [advance, hunpaused]
  change (if 0 < e.delay.toNat - n then { contourAt e n with waiting := e.delay.toNat - n - 1 }
    else { contourAt e n with position := (contourAt e n).next }) = _
  by_cases hwaits : n < e.delay.toNat
  · have hstill : e.entryAt n = e.entryAt (n + 1) := by
      rw [Envelope.entryAt, Envelope.entryAt, if_pos (by omega), if_pos (by omega)]
    have hleft : e.delay.toNat - n - 1 = e.delay.toNat - (n + 1) := by omega
    rw [if_pos (by omega), hleft, contourAt, hstill]
    rfl
  · have hmoves : (contourAt e n).next = e.entryAt (n + 1) := by
      have hsteps : n + 1 - e.delay.toNat = n - e.delay.toNat + 1 := by omega
      rw [Envelope.entryAt_eq, hsteps, Envelope.entryOfSteps_succ, ← Envelope.entryAt_eq]
      rfl
    have hleft : e.delay.toNat - n = e.delay.toNat - (n + 1) := by omega
    rw [if_neg (by omega), hmoves, contourAt, hleft]
    rfl

theorem after_contourAt (e : Envelope) (n : ℕ) : (contourAt e 0).after n = contourAt e n := by
  induction n with
  | zero => rfl
  | succ n ih => rw [after, ih, advance_contourAt]

/-! ## With a pause -/

/-- Away from its pause a walk goes on as if there were none. -/
theorem advance_with_pause {c : Contour} (hnone : c.pause = none) (haway : c.position ≠ p) (s : ℕ) :
    { c with pause := some (p, s) }.advance = { c.advance with pause := some (p, s) } := by
  have hpaused : { c with pause := some (p, s) }.paused? = none := by
    simp [paused?, haway]
  have hunpaused : c.paused? = none := by rw [paused?, hnone]; rfl
  rw [advance, hpaused, advance, hunpaused]
  dsimp only
  split <;> rfl

/-- A walk on the entry of its pause stays there, and one tick less of the pause is left. -/
theorem advance_of_pausing {c : Contour} (hat : c.position = p) (s : ℕ) :
    { c with pause := some (p, s) }.advance =
      { c with pause := if 1 < s then some (p, s - 1) else none } := by
  have hpaused : { c with pause := some (p, s) }.paused? = some (p, s) := by
    simp [paused?, hat]
  rw [advance, hpaused]

/-- **A pause puts off what comes after it**, by its ticks, and nothing else. -/
theorem after_pausing (hp : p < e.total) (hs : 0 < s) (n : ℕ) :
    ((contourAt e 0).pausing p s).after n =
      if n < e.arrival p then { contourAt e n with pause := some (p, s) }
      else if n < e.arrival p + s then
        { contourAt e (e.arrival p) with pause := some (p, s - (n - e.arrival p)) }
      else contourAt e (n - s) := by
  have hpausing : (contourAt e 0).pausing p s = { contourAt e 0 with pause := some (p, s) } :=
    if_pos ⟨hs, hp⟩
  have hat : (contourAt e (e.arrival p)).position = p := Envelope.entryAt_arrival hp
  rw [hpausing]
  induction n with
  | zero =>
    rw [after]
    by_cases hfirst : 0 < e.arrival p
    · rw [if_pos hfirst]
    · have hzero : e.arrival p = 0 := by omega
      rw [if_neg hfirst, hzero, if_pos (by omega)]
      rfl
  | succ n ih =>
    rw [after, ih]
    by_cases hbefore : n < e.arrival p
    · -- on its way to the entry of the pause
      have haway : (contourAt e n).position ≠ p := Envelope.entryAt_ne_of_lt_arrival hp hbefore
      rw [if_pos hbefore, advance_with_pause rfl haway, advance_contourAt]
      by_cases hthere : n + 1 < e.arrival p
      · rw [if_pos hthere]
      · have harrives : n + 1 = e.arrival p := by omega
        rw [if_neg hthere, if_pos (by omega), harrives, Nat.sub_self, Nat.sub_zero]
    by_cases hpauses : n < e.arrival p + s
    · rw [if_neg hbefore, if_pos hpauses, advance_of_pausing hat,
        if_neg (show ¬ n + 1 < e.arrival p by omega)]
      by_cases hmore : 1 < s - (n - e.arrival p)
      · have hleft : s - (n - e.arrival p) - 1 = s - (n + 1 - e.arrival p) := by omega
        rw [if_pos hmore, if_pos (by omega), hleft]
      · have hover : n + 1 - s = e.arrival p := by omega
        rw [if_neg hmore, if_neg (by omega), hover]
        rfl
    · have hthen : n - s + 1 = n + 1 - s := by omega
      rw [if_neg hbefore, if_neg hpauses, advance_contourAt, if_neg (by omega), if_neg (by omega),
        hthen]

/-- The entry that a walk with a pause is on. A pause on the first entry is made at once and the delay
follows it, which comes to the same. -/
theorem position_after_pausing (hp : p < e.total) (hs : 0 < s) (n : ℕ) :
    (((contourAt e 0).pausing p s).after n).position =
      if n ≤ e.delay.toNat + p then e.entryAt n
      else if n ≤ e.delay.toNat + p + s then p
      else e.entryAt (n - s) := by
  have hat : e.entryAt (e.arrival p) = p := Envelope.entryAt_arrival hp
  have hposition : (((contourAt e 0).pausing p s).after n).position =
      if n < e.arrival p then e.entryAt n
      else if n < e.arrival p + s then p
      else e.entryAt (n - s) := by
    rw [after_pausing hp hs]
    split
    · rfl
    · split
      · exact hat
      · rfl
  rw [hposition]
  by_cases hfirst : p = 0
  · have hstill (m : ℕ) (hm : m ≤ e.delay.toNat) : e.entryAt m = 0 := if_pos hm
    rw [Envelope.arrival, if_pos hfirst, if_neg (Nat.not_lt_zero n), hfirst, Nat.zero_add,
      Nat.add_zero]
    by_cases hlate : e.delay.toNat + s < n
    · rw [if_neg (by omega), if_neg (by omega), if_neg (by omega)]
    · -- on the first entry, pausing or waiting
      have hleft : (if n < s then 0 else e.entryAt (n - s)) = 0 := by
        split
        · rfl
        · exact hstill _ (by omega)
      rw [hleft, if_pos (show n ≤ e.delay.toNat + s by omega)]
      split
      · exact (hstill n (by assumption)).symm
      · rfl
  · have harrival : e.arrival p = e.delay.toNat + p := if_neg hfirst
    rw [harrival] at hat ⊢
    rcases lt_trichotomy n (e.delay.toNat + p) with hn | rfl | hn
    · rw [if_pos hn, if_pos hn.le]
    · rw [if_neg (lt_irrefl _), if_pos (by omega), if_pos le_rfl, hat]
    rw [if_neg hn.asymm, if_neg hn.not_ge]
    by_cases hend : n = e.delay.toNat + p + s
    · have hback : n - s = e.delay.toNat + p := by omega
      rw [if_neg (by omega), if_pos hend.le, hback, hat]
    · by_cases hpauses : n < e.delay.toNat + p + s
      · rw [if_pos hpauses, if_pos hpauses.le]
      · rw [if_neg hpauses, if_neg (by omega)]

/-! ## Put on other tables -/

/-- What can be done with a walk. -/
inductive Turn where
  | tick
  /-- It is put on another table. -/
  | along (wave : ℕ)

/-- The walk after a turn. -/
def turned (c : Contour) : Turn → Contour
  | .tick => c.advance
  | .along wave => c.along wave

theorem total_advance (c : Contour) : c.advance.total = c.total := by
  unfold advance
  split
  · rfl
  · split <;> rfl

/-- **No turn leads out of the entries.** -/
theorem position_turned_lt {c : Contour} (h : c.position < c.total) (t : Turn) :
    (c.turned t).position < c.total ∧ (c.turned t).total = c.total := by
  cases t with
  | tick =>
    have hinside := position_advance_lt h
    have htotal := c.total_advance
    exact ⟨htotal ▸ hinside, htotal⟩
  | along wave => exact ⟨Nat.zero_lt_of_lt h, rfl⟩

theorem position_foldl_turned_lt {c : Contour} (h : c.position < c.total) (turns : List Turn) :
    (turns.foldl turned c).position < c.total := by
  induction turns generalizing c with
  | nil => exact h
  | cons t turns ih =>
    obtain ⟨hinside, htotal⟩ := position_turned_lt h t
    rw [List.foldl_cons, ← htotal]
    exact ih (htotal ▸ hinside)

/-- **The entry that a contour has reached.** Every envelope that has entries has a contour. Let `total`
be their number, at most the 128 of a table, `start` the entry that the loop begins with, and let the
entry after `n` ticks be found by the rule `free`: the first one during the delay, then one after the
other, then round the loop, or the last one for good if there is no loop.

That is where the contour is if it has no pause, also if it was told one of no ticks or past its
entries. A pause of `s` ticks at the entry `p` is made when that is reached, once; from then on the
contour is where it would have been `s` ticks before. And however ticks alternate with other tables,
the contour stays below `total`, so that it finds an entry in every table. -/
theorem entry_reached (e : Envelope) (h : 0 < e.length.toNat + e.loop.toNat) :
    let delay := e.delay.toNat
    let total := min 128 (e.length.toNat + e.loop.toNat)
    let start := min e.length.toNat total
    let free (n : ℕ) : ℕ :=
      if n ≤ delay then 0
      else
        let k := n - delay
        if k < total then k
        else if start < total then start + (k - start) % (total - start)
        else total - 1
    ∃ c, ofEnvelope? e = some c ∧ (∀ n, (c.after n).position = free n) ∧
      ∀ p s : ℕ,
        (¬ (0 < s ∧ p < total) → ∀ n, ((c.pausing p s).after n).position = free n) ∧
        (0 < s ∧ p < total → ∀ n, ((c.pausing p s).after n).position =
          if n ≤ delay + p then free n else if n ≤ delay + p + s then p else free (n - s)) ∧
        ∀ turns : List Turn, let q := (turns.foldl turned (c.pausing p s)).position
          q < total ∧ ∀ table : Wave, table[q]? = some (table.byte q) := by
  intro delay total start free
  have htotal : 0 < e.total := by
    unfold Envelope.total
    omega
  have hfree (n : ℕ) : e.entryAt n = free n := rfl
  have hplain (n : ℕ) : ((contourAt e 0).after n).position = free n := by
    rw [after_contourAt]
    rfl
  refine ⟨contourAt e 0, ofEnvelope?_eq htotal, hplain, fun p s => ⟨?_, ?_, ?_⟩⟩
  · intro hnone n
    have hpausing : (contourAt e 0).pausing p s = contourAt e 0 := if_neg hnone
    rw [hpausing]
    exact hplain n
  · rintro ⟨hs, hp⟩ n
    exact position_after_pausing hp hs n
  · intro turns q
    have hpausing : ((contourAt e 0).pausing p s).position = e.entryAt 0 ∧
        ((contourAt e 0).pausing p s).total = e.total := by
      unfold pausing
      split <;> exact ⟨rfl, rfl⟩
    have hfirst : e.entryAt 0 = 0 := if_pos (Nat.zero_le _)
    have hinside : q < e.total := by
      rw [← hpausing.2]
      apply position_foldl_turned_lt
      rwa [hpausing.1, hpausing.2, hfirst]
    have hwide : q < 128 := hinside.trans_le (Nat.min_le_left _ _)
    refine ⟨hinside, fun table => ?_⟩
    rw [Wave.byte_of_lt table hwide]
    exact Vector.getElem?_eq_getElem hwide

/-- Two entries, then a loop of two; a pause of three ticks on the last. -/
def hesitant : Envelope :=
  ⟨0, 1, 2, 2⟩

theorem hesitant_reached :
    0 < hesitant.length.toNat + hesitant.loop.toNat ∧
      ∃ c, ofEnvelope? hesitant = some c ∧ (c.after 7).position = 2 ∧ (0 < 3 ∧ 3 < 4) ∧
        ((c.pausing 3 3).after 7).position = 3 ∧ ((c.pausing 3 3).after 10).position = 2 ∧
        ([.tick, .along 5, .tick, .tick, .tick, .tick].foldl turned (c.pausing 3 3)).position < 4 := by
  obtain ⟨c, hc, hfree, hpause⟩ := entry_reached hesitant (by decide)
  obtain ⟨-, hpaused, hinside⟩ := hpause 3 3
  exact ⟨by decide, c, hc, hfree 7, by decide, hpaused (by decide) 7, hpaused (by decide) 10,
    (hinside _).1⟩

end Contour

end Chiptune
