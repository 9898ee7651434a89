/-!
# Decimal text with one place

A double is a whole number times a power of two. It is written to the nearest tenth of that exact
value, and a value halfway between two tenths goes to the even one.

* `roundDiv_near`: the rounded quotient is within half a unit of the exact one.
* `roundDiv_even`: a quotient halfway between two whole numbers goes to the even one.
-/

namespace Chiptune.Decimal

/-- The whole number nearest to `num / den`; of two equally near, the even one. -/
def roundDiv (num den : Nat) : Nat :=
  let low := num / den
  let rest := 2 * (num % den)
  if rest < den ∨ (rest = den ∧ low % 2 = 0) then low else low + 1

/-- The rounded quotient is within half a unit of the exact one. -/
theorem roundDiv_near (num : Nat) {den : Nat} (h : 0 < den) :
    2 * num ≤ 2 * den * roundDiv num den + den ∧ 2 * den * roundDiv num den ≤ 2 * num + den := by
  have hdiv := Nat.div_add_mod num den
  have hlt := Nat.mod_lt num h
  have hx : 2 * den * (num / den) = 2 * (den * (num / den)) := Nat.mul_assoc 2 den _
  have hy : 2 * den * (num / den + 1) = 2 * (den * (num / den)) + 2 * den := by
    rw [Nat.mul_add, hx, Nat.mul_one]
  simp only [roundDiv]
  split
  · rw [hx]; constructor <;> omega
  · rw [hy]; constructor <;> omega

/-- A quotient halfway between two whole numbers goes to the even one. -/
theorem roundDiv_even {num den : Nat} (h : 2 * (num % den) = den) :
    roundDiv num den % 2 = 0 := by
  simp only [roundDiv, h, Nat.lt_irrefl, false_or, true_and]
  generalize num / den = low
  split <;> omega

/-- The tenths of a value given as `m * 2 ^ e`. -/
def tenths (m : Nat) (e : Int) : Nat :=
  if 0 ≤ e then (m * 10) <<< e.toNat else roundDiv (m * 10) (1 <<< (-e).toNat)

/-- The text of a finite double's magnitude from its exponent field and fraction field. -/
def magnitude (exponent fraction : Nat) : String :=
  let n :=
    if exponent = 0 then tenths fraction (-1074)
    else tenths (0x10000000000000 + fraction) ((exponent : Int) - 1075)
  Nat.repr (n / 10) ++ "." ++ Nat.repr (n % 10)

/-- A double with one place after the point. -/
def onePlace (x : Float) : String :=
  let bits := x.toBits.toNat
  -- one bit of sign, eleven of exponent, fifty-two of fraction
  let exponent := (bits >>> 52) % 2048
  let fraction := bits % 0x10000000000000
  let sign := if bits >>> 63 = 0 then "" else "-"
  if exponent = 2047 then
    if fraction = 0 then sign ++ "inf" else "NaN"
  else sign ++ magnitude exponent fraction

end Chiptune.Decimal
