import Mathlib.Tactic.Ring

/-!
# Soceteer.Lib.Round — division rounded to the closest number

* `divRoundClosest`: the quotient, halves rounded up.
* `divRoundClosest_mul_le`, `le_divRoundClosest_mul`: it is at most half a divisor off.
* `divRoundClosest_twice_le`, `le_divRoundClosest_twice`: a number turned into a quotient and back.
-/

namespace Soceteer.Round

/-- `x / d`, rounded to the closest number. -/
def divRoundClosest (x d : ℕ) : ℕ := (x + d / 2) / d

variable {x d : ℕ}

theorem divRoundClosest_mul_le (x d : ℕ) : divRoundClosest x d * d ≤ x + d / 2 := Nat.div_mul_le_self ..

theorem le_divRoundClosest_mul (x : ℕ) (hd : 0 < d) : x ≤ divRoundClosest x d * d + d / 2 := by
  have hlt : x + d / 2 < divRoundClosest x d * d + d := Nat.lt_div_mul_add hd
  omega

theorem le_divRoundClosest_iff (hd : 0 < d) {q : ℕ} : q ≤ divRoundClosest x d ↔ q * d ≤ x + d / 2 :=
  Nat.le_div_iff_mul_le hd

theorem divRoundClosest_lt_iff (hd : 0 < d) {q : ℕ} : divRoundClosest x d < q ↔ x + d / 2 < q * d :=
  Nat.div_lt_iff_lt_mul hd

/-- `a` comes back at most half of itself and half of its quotient, over the quotient, too large. -/
theorem divRoundClosest_twice_le (x : ℕ) {a : ℕ} (ha : 0 < a) :
    divRoundClosest x (divRoundClosest x a) * divRoundClosest x a ≤
      a * divRoundClosest x a + a / 2 + divRoundClosest x a / 2 := by
  have h1 := divRoundClosest_mul_le x (divRoundClosest x a)
  have h2 := le_divRoundClosest_mul x ha
  rw [Nat.mul_comm] at h2
  omega

/-- And at most as much too small. -/
theorem le_divRoundClosest_twice (x : ℕ) {a : ℕ} (hp : 0 < divRoundClosest x a) :
    a * divRoundClosest x a ≤
      divRoundClosest x (divRoundClosest x a) * divRoundClosest x a + a / 2 + divRoundClosest x a / 2 := by
  have h1 := divRoundClosest_mul_le x a
  have h2 := le_divRoundClosest_mul x hp
  rw [Nat.mul_comm] at h1
  omega

end Soceteer.Round
