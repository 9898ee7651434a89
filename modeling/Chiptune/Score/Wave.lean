import Chiptune.Bytes.Word

/-!
# Wave tables

A wave table holds 128 bytes. It serves as the waveform of a synthetic voice, read as signed samples,
or as the course of an envelope over time.
-/

namespace Chiptune

/-- A table of 128 bytes. -/
abbrev Wave := Vector UInt8 128

namespace Wave

/-- The table of zeros. -/
def silent : Wave :=
  Vector.replicate 128 0

/-- The entry at a position; past the end every entry is zero. -/
def byte (w : Wave) (i : Nat) : UInt8 :=
  w[i]?.getD 0

/-- The entry at a position, read as a signed sample. -/
def level (w : Wave) (i : Nat) : Int :=
  (w.byte i).toInt8.toInt

/-- The table whose entry at each position is given. -/
def tabulate (f : Nat → UInt8) : Wave :=
  Vector.ofFn fun i => f i

/-- The table with one entry replaced. -/
def put (w : Wave) (i : Nat) (b : UInt8) : Wave :=
  w.setIfInBounds i b

/-- The entries at so many positions from one on replaced in turn, each by a byte that is found from the
table as it is by then. -/
def rewritten (w : Wave) (first count : Nat) (f : Wave → Nat → UInt8) : Wave :=
  (List.range' first count).foldl (fun v i => v.put i (f v i)) w

/-- The table with the entry at a position and the next exchanged. -/
def swapped (w : Wave) (i : Nat) : Wave :=
  (w.put i (w.byte (i + 1))).put (i + 1) (w.byte i)

theorem byte_of_lt (w : Wave) {i : Nat} (h : i < 128) : w.byte i = w[i] := by
  simp [byte, h]

theorem byte_of_ge (w : Wave) {i : Nat} (h : 128 ≤ i) : w.byte i = 0 := by
  simp [byte, h]

@[simp]
theorem byte_silent (i : Nat) : silent.byte i = 0 := by
  by_cases h : i < 128 <;> simp [byte, silent, h]

theorem byte_tabulate (f : Nat → UInt8) {i : Nat} (h : i < 128) : (tabulate f).byte i = f i := by
  simp [byte, tabulate, h]

theorem ext_byte {v w : Wave} (h : ∀ i < 128, v.byte i = w.byte i) : v = w := by
  apply Vector.ext
  intro i hi
  simpa [byte_of_lt _ hi] using h i hi

theorem byte_put (w : Wave) (i : Nat) (b : UInt8) {j : Nat} (h : j < 128) :
    (w.put i b).byte j = if j = i then b else w.byte j := by
  rw [byte_of_lt _ h, byte_of_lt _ h, put, Vector.getElem_setIfInBounds]
  simp only [eq_comm]

theorem put_byte (w : Wave) (i : Nat) : w.put i (w.byte i) = w := by
  apply ext_byte
  intro j hj
  rw [byte_put _ _ _ hj]
  split <;> simp_all

/-- Entries that are replaced by themselves leave the table as it is. -/
theorem rewritten_of_eq {w : Wave} {f : Wave → Nat → UInt8} {first count : Nat}
    (h : ∀ i, first ≤ i → i < first + count → f w i = w.byte i) :
    w.rewritten first count f = w := by
  have hall : ∀ l : List Nat, (∀ i ∈ l, f w i = w.byte i) →
      l.foldl (fun v i => v.put i (f v i)) w = w := by
    intro l hl
    induction l with
    | nil => rfl
    | cons i l ih =>
      obtain ⟨hi, hrest⟩ := List.forall_mem_cons.1 hl
      rw [List.foldl_cons, hi, put_byte]
      exact ih hrest
  refine hall _ fun i hi => ?_
  obtain ⟨hfirst, hlast⟩ := List.mem_range'_1.1 hi
  exact h i hfirst hlast

theorem level_bounds (w : Wave) (i : Nat) : -128 ≤ w.level i ∧ w.level i ≤ 127 := by
  have h1 := (w.byte i).toInt8.le_toInt
  have h2 := (w.byte i).toInt8.toInt_lt
  unfold level
  omega

end Wave

end Chiptune
