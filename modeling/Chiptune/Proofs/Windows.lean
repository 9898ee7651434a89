import Mathlib
import Chiptune.Tone.Shaper

/-!
# Shapers keep to their window

An effect rewrites the wave of its voice in place: at a cursor, next to it, or all through a window. The
cursor never leaves the window, and so no byte outside of it is ever written.

* `Shaper.Within.step`: what every effect does in a step, one case for each.
* `Shaper.keeps_to_window`: the same of any run, with a wave that stays as it is whenever no change is
  told.
-/

namespace Chiptune

namespace Window

variable {w : Window} {v v' v'' : Wave}

/-- A wave that is another outside the window. -/
def SameOutside (w : Window) (v v' : Wave) : Prop :=
  ∀ i < 128, w.contains i = false → v'.byte i = v.byte i

theorem SameOutside.refl (w : Window) (v : Wave) : w.SameOutside v v :=
  fun _ _ _ => rfl

theorem SameOutside.trans (h : w.SameOutside v v') (h' : w.SameOutside v' v'') :
    w.SameOutside v v'' := by
  intro i hi hout
  rw [h' i hi hout, h i hi hout]

/-- A byte is written in the window. -/
theorem SameOutside.put {i : ℕ} (hi : w.contains i) (v : Wave) (b : UInt8) :
    w.SameOutside v (v.put i b) := by
  intro j hj hout
  have hne : j ≠ i := by
    rintro rfl
    rw [hi] at hout
    cases hout
  rw [Wave.byte_put _ _ _ hj, if_neg hne]

theorem SameOutside.foldl {f : Wave → ℕ → Wave} (l : List ℕ)
    (hf : ∀ i ∈ l, ∀ v, w.SameOutside v (f v i)) (v : Wave) : w.SameOutside v (l.foldl f v) := by
  induction l generalizing v with
  | nil => exact .refl w v
  | cons i l ih =>
    obtain ⟨hi, hrest⟩ := List.forall_mem_cons.1 hf
    exact (hi v).trans (ih hrest _)

/-- A stretch of the window is rewritten. -/
theorem SameOutside.rewritten {first count : ℕ}
    (h : ∀ i, first ≤ i → i < first + count → w.contains i) (v : Wave) (f : Wave → ℕ → UInt8) :
    w.SameOutside v (v.rewritten first count f) := by
  refine foldl _ ?_ v
  intro i hi v
  obtain ⟨hfirst, hlast⟩ := List.mem_range'_1.1 hi
  exact put (h i hfirst hlast) v _

end Window

namespace Shaper

variable {s s₀ : Shaper} {waves : Array Wave}

/-- A shaper that has kept to the window of another: the cursor is in it, and the wave is the other's
outside of it. -/
structure Within (s₀ s : Shaper) : Prop where
  window : s.window = s₀.window
  cursor : s.window.contains s.cursor
  outside : s.window.SameOutside s₀.wave s.wave

theorem within_start (r : Reshaping) (wave : Wave) (seed : UInt64) :
    (start r wave seed).Within (start r wave seed) :=
  ⟨rfl, Window.first_mem _, .refl _ _⟩

theorem Within.put (h : s₀.Within s) {i : ℕ} (hi : s.window.contains i) (b : UInt8) :
    s₀.Within (s.put i b) :=
  ⟨h.window, h.cursor, h.outside.trans (.put hi _ _)⟩

theorem Within.moved (h : s₀.Within s) : s₀.Within s.moved :=
  ⟨h.window, Window.next_mem h.cursor, h.outside⟩

/-- Any part of the window is rewritten. -/
theorem Within.stretch (h : s₀.Within s) {first count : ℕ} (hfirst : s.window.first ≤ first)
    (hlast : first + count ≤ s.window.first + s.window.size) (f : Wave → ℕ → UInt8) :
    s₀.Within (s.stretch first count f) := by
  refine ⟨h.window, h.cursor, h.outside.trans (.rewritten ?_ _ _)⟩
  intro i hi hi'
  rw [Window.contains_iff]
  have := s.window.first_le_last
  unfold Window.size at hlast
  omega

theorem Within.rewritten (h : s₀.Within s) (f : Wave → ℕ → UInt8) : s₀.Within (s.rewritten f) :=
  h.stretch le_rfl le_rfl f

theorem Within.negatedAtCursor (h : s₀.Within s) : s₀.Within s.negatedAtCursor :=
  (h.put (Window.previous_mem h.cursor) _).put h.cursor _

theorem Within.swappedPairs (h : s₀.Within s) : s₀.Within s.swappedPairs := by
  refine ⟨h.window, h.cursor, h.outside.trans (.foldl _ ?_ _)⟩
  intro k hk v
  -- both bytes of a pair are in the window
  have hpair : s.window.contains (s.window.first + 2 * k) ∧
      s.window.contains (s.window.first + 2 * k + 1) := by
    rw [List.mem_range] at hk
    unfold Window.size at hk
    simp only [Window.contains_iff]
    omega
  exact (Window.SameOutside.put hpair.1 v _).trans (.put hpair.2 _ _)

/-- **Every step keeps to the window.** -/
theorem Within.step (h : s₀.Within s) (waves : Array Wave) : s₀.Within (s.step waves) := by
  unfold Shaper.step
  cases s.effect with
  | none => exact h
  | negateByte => exact (h.put h.cursor _).moved
  | negateRun => exact (h.rewritten _).moved
  | raise => exact h.rewritten _
  | rotate => exact h.rewritten _
  | blend => exact h.rewritten _
  | negateOne => exact h.negatedAtCursor.moved
  | raiseByWave => exact (h.rewritten _).moved
  | raiseAndNegate => exact (Within.negatedAtCursor (h.rewritten _)).moved
  | approach => exact h.rewritten _
  | sweep =>
    dsimp only
    split
    · exact ⟨h.window, h.cursor, h.outside⟩
    · exact h
  | swapPairs => exact h.swappedPairs
  | noiseByte =>
    have hmoved := (h.put h.cursor s.noise.byte.1).moved
    exact ⟨hmoved.window, hmoved.cursor, hmoved.outside⟩
  | smooth =>
    apply h.stretch le_rfl
    omega
  | smoothWide =>
    -- a window of one byte has no inner bytes, and the stretch is empty then
    by_cases hone : s.window.size < 2
    · have hcount : s.window.size - 2 = 0 := by omega
      rw [hcount]
      exact ⟨h.window, h.cursor, h.outside⟩
    · apply h.stretch <;> omega
  | flip =>
    have hall := h.rewritten fun _ i =>
      if !s.flipped then negated (s.initial.byte i) else s.initial.byte i
    exact ⟨hall.window, hall.cursor, hall.outside⟩
  | noise =>
    have hall := h.rewritten fun _ i => s.noise.wave.1.byte i
    exact ⟨hall.window, hall.cursor, hall.outside⟩
  | drift => exact ⟨h.window, h.cursor, h.outside⟩
  | other => exact h

theorem Within.advance (h : s₀.Within s) (waves : Array Wave) : s₀.Within (s.advance waves) := by
  unfold Shaper.advance
  split
  · have hstep := h.step waves
    exact ⟨hstep.window, hstep.cursor, hstep.outside⟩
  · exact ⟨h.window, h.cursor, h.outside⟩

/-- The shaper after a tick with each of these wave tables. -/
def run (s : Shaper) (tables : List (Array Wave)) : Shaper :=
  tables.foldl (fun s waves => s.advance waves) s

theorem Within.run (h : s₀.Within s) (tables : List (Array Wave)) : s₀.Within (s.run tables) := by
  induction tables generalizing s with
  | nil => exact h
  | cons waves tables ih => exact ih (h.advance waves)

/-- **Shapers keep to their window and tell every change.** Take any effect with any arguments and any
delay, on any wave with any seed, and let it make ticks, each with wave tables of its own. Then
every byte outside of the window is still that of the wave at the start, where the window reaches from
one argument to the other, each capped at the last position. The cursor is in the window. And a
tick that tells no change leaves the whole wave as it is. -/
theorem keeps_to_window (r : Reshaping) (wave : Wave) (seed : UInt64) (tables : List (Array Wave)) :
    let s := (start r wave seed).run tables
    let left := min r.left.toNat 127
    let right := min r.right.toNat 127
    (∀ i < 128, ¬ (min left right ≤ i ∧ i ≤ max left right) → s.wave.byte i = wave.byte i) ∧
      (min left right ≤ s.cursor ∧ s.cursor ≤ max left right) ∧
      ∀ waves, s.changed waves = false → (s.advance waves).wave = s.wave := by
  intro s left right
  have hs : (start r wave seed).Within s := (within_start r wave seed).run tables
  have hwindow : s.window = Window.between r.left.toNat r.right.toNat := hs.window
  have hmem : ∀ i, s.window.contains i = true ↔ min left right ≤ i ∧ i ≤ max left right := by
    intro i
    rw [hwindow, Window.contains_iff]
    rfl
  refine ⟨?_, (hmem _).1 hs.cursor, fun waves => wave_advance_of_unchanged⟩
  intro i hi hout
  exact hs.outside i hi (Bool.eq_false_iff.2 fun hin => hout ((hmem i).1 hin))

end Shaper

end Chiptune
