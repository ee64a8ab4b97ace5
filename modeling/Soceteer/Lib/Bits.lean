import Mathlib.Data.Nat.Bitwise
import Mathlib.Data.Nat.Log
import Mathlib.Tactic.Ring

/-!
# Soceteer.Lib.Bits — runs of bits in natural numbers

Facts about binary representations, free of any program.

* `lowestSetBit n`: index of the lowest one of `n ≠ 0` (`lowestSetBit_testBit`, `lowestSetBit_low`).
* `eq_two_pow_sub_one_of_and_succ`: `n &&& (n + 1) = 0` says that `n` is a block of ones from bit `0` up.
* `HoleMask m l k n`: the ones of `m` are exactly `[0, l)` and `[l + k, n)`; agreement of two numbers outside
  such a mask is agreement of the field `[l, l + k)` and of the bits from `n` up (`HoleMask.agree_iff`).
* `dropField l k a`: `a` with the `k` bits from bit `l` removed and the upper part shifted down; with the
  removed field given it is injective (`dropField_inj`) and it maps the numbers below `m * 2 ^ (l + k)` with a
  given field onto the numbers below `m * 2 ^ l` (`dropField_surj`, `dropField_lt`).
* `slice v lo w` reads `w` bits of `v`, `setSlice old lo w v` overwrites them.
-/

namespace Soceteer.Bits

/-! ## The lowest one -/

/-- Number of trailing zeros of `n`, looking at no more than `fuel` bits. -/
def trailingZeros : ℕ → ℕ → ℕ
  | 0, _ => 0
  | fuel + 1, n => if n % 2 = 1 then 0 else trailingZeros fuel (n / 2) + 1

/-- Index of the lowest one of `n` (for `n ≠ 0`). -/
def lowestSetBit (n : ℕ) : ℕ := trailingZeros (n.log2 + 1) n

theorem trailingZeros_spec : ∀ (fuel n : ℕ), n ≠ 0 → n < 2 ^ fuel →
    n.testBit (trailingZeros fuel n) = true ∧ ∀ i < trailingZeros fuel n, n.testBit i = false
  | 0, n, hn, hlt => by simp at hlt; exact absurd hlt hn
  | fuel + 1, n, hn, hlt => by
    rw [trailingZeros]
    by_cases hodd : n % 2 = 1
    · rw [if_pos hodd]
      exact ⟨by simp [Nat.testBit_zero, hodd], fun i hi => absurd hi (by omega)⟩
    · rw [if_neg hodd]
      have hpow : 2 ^ (fuel + 1) = 2 * 2 ^ fuel := by ring
      obtain ⟨hset, hlow⟩ := trailingZeros_spec fuel (n / 2) (by omega) (by omega)
      refine ⟨by rw [Nat.testBit_succ]; exact hset, fun i hi => ?_⟩
      cases i with
      | zero => simp [Nat.testBit_zero, hodd]
      | succ j =>
        rw [Nat.testBit_succ]
        exact hlow j (by omega)

theorem lowestSetBit_testBit {n : ℕ} (hn : n ≠ 0) : n.testBit (lowestSetBit n) = true :=
  (trailingZeros_spec _ n hn Nat.lt_log2_self).1

theorem lowestSetBit_low {n i : ℕ} (hn : n ≠ 0) (hi : i < lowestSetBit n) : n.testBit i = false :=
  (trailingZeros_spec _ n hn Nat.lt_log2_self).2 i hi

/-- The zeros of `n` below its lowest zero: bit `i` of `n + 1` differs from bit `i` of `n` exactly up to there. -/
theorem testBit_of_lt_lowestSetBit_succ {n i : ℕ} (hi : i < lowestSetBit (n + 1)) : n.testBit i = true := by
  have hdvd : 2 ^ lowestSetBit (n + 1) ∣ n + 1 := by
    refine Nat.dvd_of_mod_eq_zero (Nat.eq_of_testBit_eq fun j => ?_)
    rw [Nat.testBit_mod_two_pow, Nat.zero_testBit]
    by_cases hj : j < lowestSetBit (n + 1)
    · simp [lowestSetBit_low (Nat.succ_ne_zero n) hj]
    · simp [hj]
  obtain ⟨c, hc⟩ := hdvd
  have hc0 : c ≠ 0 := by rintro rfl; simp at hc
  have hpos : 0 < 2 ^ lowestSetBit (n + 1) := Nat.two_pow_pos _
  have hn : n = 2 ^ lowestSetBit (n + 1) * (c - 1) + (2 ^ lowestSetBit (n + 1) - 1) := by
    obtain ⟨c, rfl⟩ := Nat.exists_eq_succ_of_ne_zero hc0
    have : 2 ^ lowestSetBit (n + 1) * (c + 1) = 2 ^ lowestSetBit (n + 1) * c + 2 ^ lowestSetBit (n + 1) := by ring
    simp only [Nat.succ_eq_add_one, Nat.add_sub_cancel] at *
    omega
  rw [hn, Nat.testBit_two_pow_mul_add _ (by omega), if_pos hi, Nat.testBit_two_pow_sub_one]
  simpa using hi

theorem testBit_lowestSetBit_succ (n : ℕ) : n.testBit (lowestSetBit (n + 1)) = false := by
  set l := lowestSetBit (n + 1) with hl
  have hset : (n + 1).testBit l = true := lowestSetBit_testBit (Nat.succ_ne_zero n)
  -- below `l` all bits of `n` are one, so `n = 2 ^ l * (n / 2 ^ l) + (2 ^ l - 1)` and `n + 1` carries into bit `l`
  have hmod : n % 2 ^ l = 2 ^ l - 1 := by
    refine Nat.eq_of_testBit_eq fun j => ?_
    rw [Nat.testBit_mod_two_pow, Nat.testBit_two_pow_sub_one]
    by_cases hj : j < l
    · simp [hj, testBit_of_lt_lowestSetBit_succ hj]
    · simp [hj]
  have hpos : 0 < 2 ^ l := Nat.two_pow_pos _
  have hsucc : (n + 1) / 2 ^ l = n / 2 ^ l + 1 := by
    have hdiv := Nat.div_add_mod n (2 ^ l)
    have : n + 1 = 2 ^ l * (n / 2 ^ l + 1) := by rw [Nat.mul_add]; omega
    rw [this, Nat.mul_div_cancel_left _ hpos]
  rw [Nat.testBit_eq_decide_div_mod_eq] at hset ⊢
  rw [hsucc] at hset
  simp only [decide_eq_true_eq, decide_eq_false_iff_not] at hset ⊢
  omega

theorem eq_two_pow_sub_one_of_and_succ {n : ℕ} (h : n &&& (n + 1) = 0) : ∃ k, n = 2 ^ k - 1 := by
  have h' : (n + 1) &&& (n + 1 - 1) = 0 := by rw [Nat.add_sub_cancel, Nat.and_comm]; exact h
  obtain ⟨k, hk⟩ := (Nat.and_sub_one_eq_zero_iff_isPowerOfTwo (Nat.succ_ne_zero n)).mp h'
  exact ⟨k, by omega⟩

/-! ## Masks with one hole -/

/-- The ones of `m` are exactly the bits `[0, l)` and `[l + k, n)`. -/
structure HoleMask (m l k n : ℕ) : Prop where
  le : l + k ≤ n
  testBit : ∀ i, m.testBit i = (decide (i < l) || decide (l + k ≤ i ∧ i < n))

/-- Agreement outside a mask with one hole: the hole and everything above the mask agree. -/
theorem HoleMask.agree_iff {m l k n : ℕ} (h : HoleMask m l k n) (a b : ℕ) :
    (∀ i, m.testBit i = false → a.testBit i = b.testBit i) ↔
      a / 2 ^ l % 2 ^ k = b / 2 ^ l % 2 ^ k ∧ a / 2 ^ n = b / 2 ^ n := by
  constructor
  · intro hab
    refine ⟨Nat.eq_of_testBit_eq fun j => ?_, Nat.eq_of_testBit_eq fun j => ?_⟩
    · simp only [Nat.testBit_mod_two_pow, Nat.testBit_div_two_pow]
      by_cases hj : j < k
      · rw [hab (j + l) (by rw [h.testBit]; simp; omega)]
      · simp [hj]
    · simp only [Nat.testBit_div_two_pow]
      have := h.le
      exact hab (j + n) (by rw [h.testBit]; simp; omega)
  · rintro ⟨hmid, htop⟩ i hi
    rw [h.testBit] at hi
    simp only [Bool.or_eq_false_iff, decide_eq_false_iff_not, not_and, not_lt] at hi
    by_cases hik : i < l + k
    · have := congrArg (fun x => x.testBit (i - l)) hmid
      simpa [Nat.testBit_mod_two_pow, Nat.testBit_div_two_pow, show i - l < k by omega,
        show i - l + l = i by omega] using this
    · have hn : n ≤ i := hi.2 (by omega)
      have := congrArg (fun x => x.testBit (i - n)) htop
      simpa [Nat.testBit_div_two_pow, show i - n + n = i by omega] using this

/-- A number disjoint from a mask with one hole has no bits below the hole. -/
theorem HoleMask.mod_eq_zero {m l k n b : ℕ} (h : HoleMask m l k n) (hb : b &&& m = 0) : b % 2 ^ l = 0 := by
  refine Nat.eq_of_testBit_eq fun j => ?_
  have := congrArg (fun x => x.testBit j) hb
  simp only [Nat.testBit_and, Nat.zero_testBit, Bool.and_eq_false_iff, h.testBit] at this
  simp only [Nat.testBit_mod_two_pow, Nat.zero_testBit, Bool.and_eq_false_iff]
  by_cases hj : j < l
  · right; simpa [hj] using this
  · left; simp [hj]

/-- A number disjoint from a mask with one hole is determined above the hole by its bits above the mask. -/
theorem HoleMask.div_eq {m l k n b : ℕ} (h : HoleMask m l k n) (hb : b &&& m = 0) :
    b / 2 ^ (l + k) = b / 2 ^ n * 2 ^ (n - (l + k)) := by
  refine Nat.eq_of_testBit_eq fun j => ?_
  have hle := h.le
  have := congrArg (fun x => x.testBit (j + (l + k))) hb
  simp only [Nat.testBit_and, Nat.zero_testBit, Bool.and_eq_false_iff, h.testBit] at this
  simp only [Nat.testBit_div_two_pow, Nat.testBit_mul_two_pow]
  by_cases hj : n - (l + k) ≤ j
  · simp [hj, show j - (n - (l + k)) + n = j + (l + k) by omega]
  · have hm : ¬ j + (l + k) < l := by omega
    have hm' : j + (l + k) < n := by omega
    simp [hj]
    simpa [hm, hm'] using this

/-- A mask with one hole contains the bit above its hole. -/
theorem HoleMask.two_pow_le {m l k n : ℕ} (h : HoleMask m l k n) (hn : l + k < n) : 2 ^ (l + k) ≤ m :=
  Nat.ge_two_pow_of_testBit (by rw [h.testBit]; simp; omega)

theorem two_pow_sub_one_and_succ (k : ℕ) : (2 ^ k - 1) &&& (2 ^ k - 1 + 1) = 0 := by
  rw [Nat.sub_add_cancel Nat.one_le_two_pow]
  refine Nat.eq_of_testBit_eq fun i => ?_
  rw [Nat.testBit_and, Nat.testBit_two_pow_sub_one, Nat.testBit_two_pow, Nat.zero_testBit]
  by_cases hi : i < k <;> simp [hi]
  omega

/-- Nothing is left above the lowest zero exactly of a block of ones. -/
theorem rest_eq_zero_iff {m : ℕ} : m >>> lowestSetBit (m + 1) = 0 ↔ m &&& (m + 1) = 0 := by
  constructor
  · intro hrest
    have hm : m = 2 ^ lowestSetBit (m + 1) - 1 := by
      refine Nat.eq_of_testBit_eq fun i => ?_
      rw [Nat.testBit_two_pow_sub_one]
      by_cases hi : i < lowestSetBit (m + 1)
      · rw [testBit_of_lt_lowestSetBit_succ hi, decide_eq_true hi]
      · have hbit := congrArg (fun x => x.testBit (i - lowestSetBit (m + 1))) hrest
        simp only [Nat.testBit_shiftRight, Nat.zero_testBit] at hbit
        rw [show lowestSetBit (m + 1) + (i - lowestSetBit (m + 1)) = i by omega] at hbit
        rw [hbit, decide_eq_false hi]
    rw [hm]
    exact two_pow_sub_one_and_succ _
  · intro h
    obtain ⟨k, hk⟩ := eq_two_pow_sub_one_of_and_succ h
    have hbit := testBit_lowestSetBit_succ m
    rw [hk, Nat.testBit_two_pow_sub_one, decide_eq_false_iff_not, not_lt, ← hk] at hbit
    rw [Nat.shiftRight_eq_div_pow, Nat.div_eq_zero_iff]
    have hpow : 2 ^ k ≤ 2 ^ lowestSetBit (m + 1) := Nat.pow_le_pow_right (by omega) hbit
    have hpos := Nat.two_pow_pos k
    omega

/-- The bit at the lowest zero is not one. -/
theorem lowestSetBit_rest_ne_zero {m : ℕ} (h : m >>> lowestSetBit (m + 1) ≠ 0) :
    lowestSetBit (m >>> lowestSetBit (m + 1)) ≠ 0 := by
  intro hzero
  have hbit := lowestSetBit_testBit h
  rw [hzero, Nat.testBit_shiftRight, Nat.add_zero, testBit_lowestSetBit_succ] at hbit
  exact nomatch hbit

/-- A hole starts at the lowest zero. -/
theorem HoleMask.lowestSetBit_succ {m l k n : ℕ} (h : HoleMask m l k n) (hk : 1 ≤ k) :
    lowestSetBit (m + 1) = l := by
  rcases lt_trichotomy (lowestSetBit (m + 1)) l with hlt | heq | hgt
  · have hbit := testBit_lowestSetBit_succ m
    rw [h.testBit] at hbit
    simp [hlt] at hbit
  · exact heq
  · have hbit := testBit_of_lt_lowestSetBit_succ hgt
    rw [h.testBit] at hbit
    simp only [Bool.or_eq_true, decide_eq_true_eq] at hbit
    omega

/-- And it ends at the lowest one above that. -/
theorem HoleMask.lowestSetBit_rest {m l k n : ℕ} (h : HoleMask m l k n) (hn : l + k < n) :
    m >>> l ≠ 0 ∧ lowestSetBit (m >>> l) = k := by
  have htop : (m >>> l).testBit k = true := by
    rw [Nat.testBit_shiftRight, h.testBit]
    simp only [Bool.or_eq_true, decide_eq_true_eq]
    omega
  have hne : m >>> l ≠ 0 := by
    intro hzero
    rw [hzero, Nat.zero_testBit] at htop
    exact nomatch htop
  refine ⟨hne, ?_⟩
  rcases lt_trichotomy (lowestSetBit (m >>> l)) k with hlt | heq | hgt
  · have hbit := lowestSetBit_testBit hne
    rw [Nat.testBit_shiftRight, h.testBit] at hbit
    simp only [Bool.or_eq_true, decide_eq_true_eq] at hbit
    omega
  · exact heq
  · rw [lowestSetBit_low hne hgt] at htop
    exact nomatch htop

/-- With the hole filled, the mask is a block of ones. -/
theorem HoleMask.filled {m l k n : ℕ} (h : HoleMask m l k n) : m ||| ((2 ^ k - 1) <<< l) = 2 ^ n - 1 := by
  have hle := h.le
  refine Nat.eq_of_testBit_eq fun i => ?_
  rw [Nat.testBit_or, h.testBit, Nat.testBit_shiftLeft, Nat.testBit_two_pow_sub_one, Nat.testBit_two_pow_sub_one,
    ← Bool.decide_and, ← Bool.decide_or, ← Bool.decide_or]
  refine decide_eq_decide.mpr ?_
  omega

/-- A mask with a hole in it is not a block of ones. -/
theorem HoleMask.and_succ_ne_zero {m l k n : ℕ} (h : HoleMask m l k n) (hk : 1 ≤ k) (hn : l + k < n) :
    m &&& (m + 1) ≠ 0 := by
  rw [ne_eq, ← rest_eq_zero_iff, h.lowestSetBit_succ hk]
  exact (h.lowestSetBit_rest hn).1

theorem HoleMask.ext {m m' l k n : ℕ} (h : HoleMask m l k n) (h' : HoleMask m' l k n) : m = m' :=
  Nat.eq_of_testBit_eq fun i => by rw [h.testBit, h'.testBit]

/-! ## Removing a field of bits -/

/-- `a` without the `k` bits from bit `l`: the upper part moves down by `k`. -/
def dropField (l k a : ℕ) : ℕ := a / 2 ^ (l + k) * 2 ^ l + a % 2 ^ l

theorem dropField_div (l k a : ℕ) : dropField l k a / 2 ^ l = a / 2 ^ (l + k) := by
  have hlt : a % 2 ^ l < 2 ^ l := Nat.mod_lt _ (Nat.two_pow_pos _)
  rw [dropField, Nat.mul_comm, Nat.mul_add_div (Nat.two_pow_pos _), Nat.div_eq_of_lt hlt, Nat.add_zero]

theorem dropField_mod (l k a : ℕ) : dropField l k a % 2 ^ l = a % 2 ^ l := by
  rw [dropField, Nat.mul_comm, Nat.mul_add_mod, Nat.mod_mod]

/-- A number from its three parts around the field `[l, l + k)`. -/
theorem eq_parts (l k a : ℕ) : a = a / 2 ^ (l + k) * 2 ^ (l + k) + a / 2 ^ l % 2 ^ k * 2 ^ l + a % 2 ^ l := by
  have h1 := Nat.div_add_mod a (2 ^ l)
  have h2 := Nat.div_add_mod (a / 2 ^ l) (2 ^ k)
  rw [Nat.div_div_eq_div_mul, ← pow_add] at h2
  calc a = 2 ^ l * (a / 2 ^ l) + a % 2 ^ l := h1.symm
    _ = 2 ^ l * (2 ^ k * (a / 2 ^ (l + k)) + a / 2 ^ l % 2 ^ k) + a % 2 ^ l := by rw [h2]
    _ = _ := by rw [pow_add]; ring

theorem dropField_le (l k a : ℕ) : dropField l k a ≤ a := by
  have hle : a / 2 ^ (l + k) * 2 ^ l ≤ a / 2 ^ (l + k) * 2 ^ (l + k) :=
    Nat.mul_le_mul_left _ (Nat.pow_le_pow_right (by omega) (by omega))
  have := eq_parts l k a
  unfold dropField
  omega

theorem dropField_eq_iff {l k a b : ℕ} :
    dropField l k a = dropField l k b ↔ a / 2 ^ (l + k) = b / 2 ^ (l + k) ∧ a % 2 ^ l = b % 2 ^ l := by
  constructor
  · intro h
    exact ⟨by rw [← dropField_div, h, dropField_div], by rw [← dropField_mod l k a, h, dropField_mod]⟩
  · rintro ⟨h1, h2⟩
    rw [dropField, dropField, h1, h2]

theorem dropField_inj {l k a b : ℕ} (hfield : a / 2 ^ l % 2 ^ k = b / 2 ^ l % 2 ^ k)
    (h : dropField l k a = dropField l k b) : a = b := by
  obtain ⟨htop, hlow⟩ := dropField_eq_iff.mp h
  rw [eq_parts l k a, htop, hfield, hlow, ← eq_parts]

theorem dropField_lt {l k a m : ℕ} (h : a < m * 2 ^ (l + k)) : dropField l k a < m * 2 ^ l := by
  have htop : a / 2 ^ (l + k) < m := Nat.div_lt_of_lt_mul (by rw [Nat.mul_comm]; exact h)
  have hlow : a % 2 ^ l < 2 ^ l := Nat.mod_lt _ (Nat.two_pow_pos _)
  have : (a / 2 ^ (l + k) + 1) * 2 ^ l ≤ m * 2 ^ l := Nat.mul_le_mul_right _ htop
  rw [Nat.add_mul, Nat.one_mul] at this
  unfold dropField
  omega

/-- Every number below `m * 2 ^ l` is a number below `m * 2 ^ (l + k)` with field `f`, the field removed. -/
theorem dropField_surj {l k f d m : ℕ} (hf : f < 2 ^ k) (hd : d < m * 2 ^ l) :
    ∃ a < m * 2 ^ (l + k), a / 2 ^ l % 2 ^ k = f ∧ dropField l k a = d := by
  have hlow : d % 2 ^ l < 2 ^ l := Nat.mod_lt _ (Nat.two_pow_pos _)
  have htop : d / 2 ^ l < m := Nat.div_lt_of_lt_mul (by rw [Nat.mul_comm]; exact hd)
  have hdiv : (d / 2 ^ l * 2 ^ (l + k) + f * 2 ^ l + d % 2 ^ l) / 2 ^ l = d / 2 ^ l * 2 ^ k + f := by
    have : d / 2 ^ l * 2 ^ (l + k) + f * 2 ^ l + d % 2 ^ l = 2 ^ l * (d / 2 ^ l * 2 ^ k + f) + d % 2 ^ l := by
      rw [pow_add]; ring
    rw [this, Nat.mul_add_div (Nat.two_pow_pos _), Nat.div_eq_of_lt hlow, Nat.add_zero]
  have hmod : (d / 2 ^ l * 2 ^ (l + k) + f * 2 ^ l + d % 2 ^ l) % 2 ^ l = d % 2 ^ l := by
    have : d / 2 ^ l * 2 ^ (l + k) + f * 2 ^ l + d % 2 ^ l = 2 ^ l * (d / 2 ^ l * 2 ^ k + f) + d % 2 ^ l := by
      rw [pow_add]; ring
    rw [this, Nat.mul_add_mod, Nat.mod_mod]
  have hdivk : (d / 2 ^ l * 2 ^ (l + k) + f * 2 ^ l + d % 2 ^ l) / 2 ^ (l + k) = d / 2 ^ l := by
    rw [pow_add, ← Nat.div_div_eq_div_mul, ← pow_add, hdiv, Nat.mul_comm, Nat.mul_add_div (Nat.two_pow_pos _),
      Nat.div_eq_of_lt hf, Nat.add_zero]
  refine ⟨d / 2 ^ l * 2 ^ (l + k) + f * 2 ^ l + d % 2 ^ l, ?_, ?_, ?_⟩
  · rw [← Nat.div_lt_iff_lt_mul (Nat.two_pow_pos _), hdivk]
    exact htop
  · rw [hdiv, Nat.mul_comm, Nat.mul_add_mod, Nat.mod_eq_of_lt hf]
  · rw [dropField, hdivk, hmod, Nat.mul_comm]
    exact Nat.div_add_mod d (2 ^ l)

/-- Subtracting a multiple of `2 ^ (l + k)` leaves the field alone and lowers the upper part. -/
theorem sub_aligned {l k a b : ℕ} (hb : b % 2 ^ (l + k) = 0) (hab : b ≤ a) :
    (a - b) / 2 ^ (l + k) = a / 2 ^ (l + k) - b / 2 ^ (l + k) ∧
      (a - b) / 2 ^ l % 2 ^ k = a / 2 ^ l % 2 ^ k ∧ (a - b) % 2 ^ l = a % 2 ^ l := by
  obtain ⟨c, rfl⟩ := Nat.dvd_of_mod_eq_zero hb
  obtain ⟨d, rfl⟩ := Nat.exists_eq_add_of_le hab
  have hpos : 0 < 2 ^ (l + k) := Nat.two_pow_pos _
  have hsub : 2 ^ (l + k) * c + d - 2 ^ (l + k) * c = d := by omega
  have hl : 2 ^ (l + k) * c + d = 2 ^ l * (2 ^ k * c) + d := by rw [pow_add]; ring
  rw [hsub]
  refine ⟨?_, ?_, ?_⟩
  · rw [Nat.mul_add_div hpos, Nat.mul_div_cancel_left _ hpos, Nat.add_sub_cancel_left]
  · rw [hl, Nat.mul_add_div (Nat.two_pow_pos _), Nat.mul_add_mod]
  · rw [hl, Nat.mul_add_mod]

/-! ## Slices -/

/-- The `w` bits of `v` from bit `lo` up. -/
def slice (v lo w : ℕ) : ℕ := v / 2 ^ lo % 2 ^ w

/-- `old` with the `w` bits from bit `lo` up replaced by the low bits of `v`. -/
def setSlice (old lo w v : ℕ) : ℕ := (old / 2 ^ (lo + w) * 2 ^ w + v % 2 ^ w) * 2 ^ lo + old % 2 ^ lo

@[simp] theorem testBit_slice (v lo w i : ℕ) :
    (slice v lo w).testBit i = (decide (i < w) && v.testBit (lo + i)) := by
  rw [slice, Nat.testBit_mod_two_pow, Nat.testBit_div_two_pow, Nat.add_comm]

theorem testBit_setSlice (old lo w v i : ℕ) :
    (setSlice old lo w v).testBit i = if lo ≤ i ∧ i < lo + w then v.testBit (i - lo) else old.testBit i := by
  have hlow : old % 2 ^ lo < 2 ^ lo := Nat.mod_lt _ (Nat.two_pow_pos _)
  have hmid : v % 2 ^ w < 2 ^ w := Nat.mod_lt _ (Nat.two_pow_pos _)
  rw [setSlice, Nat.mul_comm _ (2 ^ lo), Nat.testBit_two_pow_mul_add _ hlow, Nat.mul_comm _ (2 ^ w),
    Nat.testBit_two_pow_mul_add _ hmid]
  rcases lt_or_ge i lo with hi | hi
  · rw [if_pos hi, if_neg (by omega), Nat.testBit_mod_two_pow]
    simp [hi]
  · rw [if_neg (by omega)]
    rcases lt_or_ge i (lo + w) with hi' | hi'
    · rw [if_pos (by omega), if_pos ⟨hi, hi'⟩, Nat.testBit_mod_two_pow]
      simp [show i - lo < w by omega]
    · rw [if_neg (by omega), if_neg (by omega), Nat.testBit_div_two_pow]
      congr 1
      omega

end Soceteer.Bits
