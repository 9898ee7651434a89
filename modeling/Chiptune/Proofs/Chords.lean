import Mathlib
import Chiptune.Proofs.Walks
import Chiptune.Tone.Chord

/-!
# Chords in closed form

A broken chord plays the steps of a preset one after the other and then goes round its loop, or round
all its steps if there is none. Length and loop are any bytes, so that the steps they ask for may be
more than a preset has, and the loop may begin past the last one. What is heard is a function of the ticks
all the same.

* `Arpeggio.slotAt`: the step after so many ticks.
* `Chord.after_ofArpeggio`: **every tick keeps to the closed form**.
* `Chord.current_in_turn`: what is heard of every preset, and of none.
-/

namespace Chiptune

namespace Arpeggio

variable {a a' : Arpeggio} {i n : ℕ}

/-- How many steps of the preset are played. -/
def count (a : Arpeggio) : ℕ :=
  min 14 (a.length.toNat + a.loop.toNat)

/-- The step that follows the last one: the first of the loop, or the first of all without a loop. -/
def restart (a : Arpeggio) : ℕ :=
  if min a.length.toNat a.count < a.count then min a.length.toNat a.count else 0

/-- The step after so many ticks. -/
def slotAt (a : Arpeggio) (n : ℕ) : ℕ :=
  Walk.place a.restart a.count n

theorem size_active_eq (a : Arpeggio) : a.active.size = a.count := by
  rw [size_active, Nat.min_comm]
  rfl

theorem getElem?_active (hi : i < a.count) : a.active[i]? = a.steps[i]? := by
  unfold count at hi
  have hroom : i < min (a.length.toNat + a.loop.toNat) a.steps.toArray.size - 0 := by
    rw [Vector.size_toArray]
    omega
  unfold active
  rw [Array.take_eq_extract, Array.getElem?_extract, if_pos hroom, Nat.zero_add]
  exact Vector.getElem?_toArray

theorem restart_lt (h : 0 < a.count) : a.restart < a.count := by
  unfold restart
  split <;> omega

theorem slotAt_lt (h : 0 < a.count) (n : ℕ) : a.slotAt n < a.count :=
  Walk.place_lt (restart_lt h) n

/-- The step in the words of the preset. -/
theorem slotAt_eq (a : Arpeggio) (n : ℕ) : a.slotAt n =
    if n < a.count then n
    else if min a.length.toNat a.count < a.count then
      min a.length.toNat a.count +
        (n - min a.length.toNat a.count) % (a.count - min a.length.toNat a.count)
    else n % a.count := by
  unfold slotAt Walk.place restart
  split_ifs
  · rfl
  · rfl
  · rw [Nat.zero_add, Nat.sub_zero, Nat.sub_zero]

/-- Only the steps that are played matter. -/
theorem active_congr (hlength : a'.length = a.length) (hloop : a'.loop = a.loop)
    (hsteps : ∀ i < a.count, a'.steps[i]? = a.steps[i]?) : a'.active = a.active := by
  have hcount : a'.count = a.count := by
    unfold count
    rw [hlength, hloop]
  apply Array.ext_getElem?
  intro i
  by_cases hi : i < a.count
  · rw [getElem?_active (hcount ▸ hi), getElem?_active hi, hsteps i hi]
  · rw [Array.getElem?_eq_none (by rw [size_active_eq]; omega),
      Array.getElem?_eq_none (by rw [size_active_eq]; omega)]

end Arpeggio

namespace Chord

variable {a : Arpeggio} {c : Chord}

/-- From the last step a chord goes back to the loop, or to the first step. -/
theorem next_ofArpeggio (a : Arpeggio) (p : ℕ) : next { ofArpeggio a with position := p } =
    if p + 1 < a.count then p + 1 else a.restart := by
  unfold next ofArpeggio Arpeggio.restart
  simp only [a.size_active_eq]

/-- **Every tick keeps to the closed form.** -/
theorem after_ofArpeggio (h : 0 < a.count) (n : ℕ) :
    (ofArpeggio a).after n = { ofArpeggio a with position := a.slotAt n } := by
  induction n with
  | zero =>
    have hfirst : a.slotAt 0 = 0 := if_pos h
    rw [hfirst]
    rfl
  | succ n ih =>
    have hmoves : next { ofArpeggio a with position := a.slotAt n } = a.slotAt (n + 1) := by
      rw [next_ofArpeggio, Arpeggio.slotAt, Arpeggio.slotAt, Walk.place_succ (Arpeggio.restart_lt h)]
    rw [after, ih, advance, hmoves]

theorem current_eq_of_step {step : Int8} (h : c.steps[c.position]? = some step) :
    c.current = step.toInt := by
  unfold current
  rw [h]

/-- A chord without steps is silent, whatever its position. -/
theorem current_of_empty (h : c.steps.size = 0) : c.current = 0 := by
  unfold current
  rw [Array.getElem?_eq_none (by omega)]

/-- **What is heard of a chord.** Take any preset. Let `size` be the number of its steps that are
played, at most the fourteen that it has, and `start` the one that its loop begins with. If there are any,
then after `n` ticks the chord is at the step `n` in its first round, and from then on at a step found
modulo the size of the loop, or modulo `size` if there is no loop. This step is one of those that are
played, and its pitch offset is heard. The steps past them are never read: a preset that differs in
them alone is heard the same. A preset that plays no step and a missing preset are heard as no offset. -/
theorem current_in_turn (a : Arpeggio) (n : ℕ) :
    let size := min 14 (a.length.toNat + a.loop.toNat)
    let start := min a.length.toNat size
    let slot := if n < size then n
      else if start < size then start + (n - start) % (size - start)
      else n % size
    let c := (ofSelection (some a)).after n
    (0 < size → c.position = slot ∧ slot < size ∧
      ∃ step, a.steps[slot]? = some step ∧ c.current = step.toInt) ∧
    (∀ a' : Arpeggio, a'.length = a.length → a'.loop = a.loop →
      (∀ i < size, a'.steps[i]? = a.steps[i]?) →
      ((ofSelection (some a')).after n).current = c.current) ∧
    (size = 0 → c.current = 0) ∧
    ((ofSelection none).after n).current = 0 := by
  intro size start slot c
  have hslot : a.slotAt n = slot := a.slotAt_eq n
  refine ⟨?_, ?_, ?_, ?_⟩
  · intro hsome
    have hplayed : slot < a.count := hslot ▸ Arpeggio.slotAt_lt hsome n
    have hc : c = { ofArpeggio a with position := slot } := by
      rw [← hslot]
      exact after_ofArpeggio hsome n
    have hstep : ∃ step, a.steps[slot]? = some step :=
      ⟨_, Vector.getElem?_eq_getElem (hplayed.trans_le (Nat.min_le_left _ _))⟩
    obtain ⟨step, hstep⟩ := hstep
    refine ⟨congrArg position hc, hplayed, step, hstep, ?_⟩
    rw [hc]
    exact current_eq_of_step ((Arpeggio.getElem?_active hplayed).trans hstep)
  · intro a' hlength hloop hsteps
    have hsame : ofArpeggio a' = ofArpeggio a := by
      unfold ofArpeggio
      rw [Arpeggio.active_congr hlength hloop hsteps, hlength]
    change ((ofArpeggio a').after n).current = ((ofArpeggio a).after n).current
    rw [hsame]
  · intro hnone
    apply current_of_empty
    rw [steps_after]
    exact a.size_active_eq.trans hnone
  · apply current_of_empty
    rw [steps_after]
    rfl

/-- Ten steps, then a loop that asks for more steps than are left. -/
def cascade : Arpeggio :=
  ⟨10, 200, #v[0, 4, 7, 12, 16, 19, 24, 28, 31, 36, -5, 3, 0, -12]⟩

/-- Two steps of it, then a loop of one. -/
def chime : Arpeggio :=
  { cascade with length := 2, loop := 1 }

theorem cascade_in_turn :
    let heard := fun preset n => ((ofSelection preset).after n).current
    let shorn : Arpeggio := { chime with steps := #v[0, 4, 7, 0, 0, 0, 0, 0, 0, 0, 0, 0, 0, 0] }
    let still : Arpeggio := { chime with length := 0, loop := 0 }
    (0 < min 14 (10 + 200) ∧ heard (some cascade) 15 = 3) ∧
      ((∀ i < 3, shorn.steps[i]? = chime.steps[i]?) ∧
        heard (some shorn) 5 = heard (some chime) 5) ∧
      (min 14 (0 + 0) = 0 ∧ heard (some still) 5 = 0) ∧ heard none 5 = 0 := by
  intro heard shorn still
  obtain ⟨hplayed, -⟩ := current_in_turn cascade 15
  obtain ⟨-, hshorn, -⟩ := current_in_turn chime 5
  obtain ⟨-, -, hstill, hmissing⟩ := current_in_turn still 5
  obtain ⟨-, -, step, hstep, hheard⟩ := hplayed (by decide)
  have hoffset : step = 3 := Option.some.inj (hstep.symm.trans (by decide))
  have hagree : ∀ i < 3, shorn.steps[i]? = chime.steps[i]? := by decide
  refine ⟨⟨by decide, ?_⟩, ⟨hagree, hshorn shorn rfl rfl hagree⟩, ⟨rfl, hstill rfl⟩, hmissing⟩
  rw [hoffset] at hheard
  exact hheard

end Chord

end Chiptune
