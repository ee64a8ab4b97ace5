import Soceteer.Video.Timing

/-!
# Soceteer.Video.Cvt — reduced blanking, exactly

The VESA CVT reduced blanking of a mode over the natural numbers, and the generator's computation of it.

* `vsync`, `vbi`, `clock`: the sync width, the number of blank lines and the pixel clock of a mode.
* `isLeast_lines`: the line count computed from an estimated line period is the least one whose blank lasts more
  than 460 µs at the line rate that results.
* `cvtReducedBlanking_exact`: `cvtReducedBlanking` computes them, whenever the clock fits 32 bits.
-/

namespace Soceteer.Video

namespace Cvt

/-! ## The standard -/

/-- The vertical sync width of an aspect ratio; 10 marks all the others. -/
def vsync (w h : ℕ) : ℕ :=
  if w * 3 = h * 4 then 4
  else if w * 9 = h * 16 then 5
  else if w * 10 = h * 16 then 6
  else if w * 4 = h * 5 then 7
  else if w * 9 = h * 15 then 7
  else 10

/-- `floor(460 * v * fps / (1e6 - 460 * fps)) + 1`, the lines in 460 µs. -/
def lines (h fps : ℕ) : ℕ := 460 * h * fps / (1000000 - 460 * fps) + 1

/-- The lines of the vertical blank. -/
def vbi (w h fps : ℕ) : ℕ := max (lines h fps) (3 + vsync w h + 6)

/-- The pixel clock in Hz; the horizontal blank is 160 pixels. -/
def clock (w h fps : ℕ) : ℕ := (w + 160) * (h + vbi w h fps) * fps

/-- The line period in µs of `h` active and `n` blank lines, `fps` times a second. -/
def linePeriodUs (h fps n : ℕ) : ℚ := 1000000 / ((h + n) * fps)

/-- `n` blank lines last more than 460 µs. -/
def Blanks (h fps n : ℕ) : Prop := 460 < n * linePeriodUs h fps n

theorem blanks_iff {h fps n : ℕ} (hh : 0 < h) (hf : 0 < fps) :
    Blanks h fps n ↔ 460 * fps * (h + n) < 1000000 * n := by
  have hpos : (0 : ℚ) < (h + n) * fps := by positivity
  unfold Blanks linePeriodUs
  rw [← mul_div_assoc, lt_div_iff₀ hpos]
  constructor
  · intro hlt
    have hlt' : ((460 * ((h + n) * fps) : ℕ) : ℚ) < ((n * 1000000 : ℕ) : ℚ) := by push_cast; exact hlt
    have := Nat.cast_lt.mp hlt'
    linarith
  · intro hlt
    have hlt' : ((460 * fps * (h + n) : ℕ) : ℚ) < ((1000000 * n : ℕ) : ℚ) := Nat.cast_lt.mpr hlt
    push_cast at hlt'
    linarith

/-- The estimate divides by the period the active lines have left, not by the one that results. -/
theorem lines_le_iff {h fps n : ℕ} (hf : 460 * fps < 1000000) :
    lines h fps ≤ n ↔ 460 * fps * (h + n) < 1000000 * n := by
  have hleft : 0 < 1000000 - 460 * fps := by omega
  have hsplit : 1000000 * n = (1000000 - 460 * fps) * n + 460 * fps * n := by
    rw [← Nat.add_mul, Nat.sub_add_cancel hf.le]
  have hmul : 460 * fps * (h + n) = 460 * h * fps + 460 * fps * n := by ring
  unfold lines
  rw [Nat.add_one_le_iff, Nat.div_lt_iff_lt_mul hleft, hmul, hsplit, Nat.mul_comm n]
  omega

/-- **The line count is the least that blanks long enough**, at the line rate it gives. -/
theorem isLeast_lines {h fps : ℕ} (hh : 0 < h) (hpos : 0 < fps) (hf : 460 * fps < 1000000) :
    IsLeast {n | Blanks h fps n} (lines h fps) := by
  constructor
  · exact (blanks_iff hh hpos).mpr ((lines_le_iff hf).mp le_rfl)
  · intro n hn
    exact (lines_le_iff hf).mpr ((blanks_iff hh hpos).mp hn)

theorem vbi_blanks {w h fps : ℕ} (hh : 0 < h) (hpos : 0 < fps) (hf : 460 * fps < 1000000) :
    Blanks h fps (vbi w h fps) :=
  (blanks_iff hh hpos).mpr ((lines_le_iff hf).mp (le_max_left _ _))

theorem vsync_bounds (w h : ℕ) : 4 ≤ vsync w h ∧ vsync w h ≤ 10 := by
  unfold vsync
  split_ifs <;> omega

theorem clock_pos {w h fps : ℕ} (hf : 0 < fps) (hh : 0 < h) : 0 < clock w h fps := by
  unfold clock
  positivity

end Cvt

/-! ## The generator -/

namespace VideoTiming

open Cvt

theorem toInt_ofNat_small {n : ℕ} (hn : n < 2 ^ 31) : (Int32.ofNat n).toInt = n :=
  Int32.toInt_ofNat_of_lt hn

theorem ofNat_lt_iff {a b : ℕ} (ha : a < 2 ^ 31) (hb : b < 2 ^ 31) : Int32.ofNat a < Int32.ofNat b ↔ a < b := by
  rw [Int32.lt_iff_toInt_lt, toInt_ofNat_small ha, toInt_ofNat_small hb]
  exact Nat.cast_lt

theorem ofNat_mul_eq_iff {a b i j : ℕ} (ha : a < 2 ^ 24) (hb : b < 2 ^ 24) (hi : i < 2 ^ 7) (hj : j < 2 ^ 7) :
    Int32.ofNat a * Int32.ofNat i = Int32.ofNat b * Int32.ofNat j ↔ a * i = b * j := by
  have hai : a * i < 2 ^ 31 := lt_of_lt_of_eq (Nat.mul_lt_mul'' ha hi) (by norm_num)
  have hbj : b * j < 2 ^ 31 := lt_of_lt_of_eq (Nat.mul_lt_mul'' hb hj) (by norm_num)
  rw [← Int32.ofNat_mul, ← Int32.ofNat_mul, ← Int32.toInt_inj, toInt_ofNat_small hai, toInt_ofNat_small hbj]
  exact Nat.cast_inj

theorem max_ofNat {a b : ℕ} (ha : a < 2 ^ 31) (hb : b < 2 ^ 31) :
    max (Int32.ofNat a) (Int32.ofNat b) = Int32.ofNat (max a b) := by
  have hle : Int32.ofNat a ≤ Int32.ofNat b ↔ a ≤ b := by
    rw [Int32.le_iff_toInt_le, toInt_ofNat_small ha, toInt_ofNat_small hb]
    exact Nat.cast_le
  change (if Int32.ofNat a ≤ Int32.ofNat b then Int32.ofNat b else Int32.ofNat a) = _
  rw [Nat.max_def, apply_ite Int32.ofNat]
  exact if_congr hle rfl rfl

theorem vSyncOf_exact {w h : ℕ} (hw : w < 2 ^ 24) (hh : h < 2 ^ 24) :
    vSyncOf (Int32.ofNat w) (Int32.ofNat h) = Int32.ofNat (vsync w h) := by
  unfold vSyncOf vsync
  simp only [apply_ite Int32.ofNat]
  refine if_congr (ofNat_mul_eq_iff hw hh (i := 3) (j := 4) (by omega) (by omega)) rfl ?_
  refine if_congr (ofNat_mul_eq_iff hw hh (i := 9) (j := 16) (by omega) (by omega)) rfl ?_
  refine if_congr (ofNat_mul_eq_iff hw hh (i := 10) (j := 16) (by omega) (by omega)) rfl ?_
  refine if_congr (ofNat_mul_eq_iff hw hh (i := 4) (j := 5) (by omega) (by omega)) rfl ?_
  exact if_congr (ofNat_mul_eq_iff hw hh (i := 9) (j := 15) (by omega) (by omega)) rfl rfl

/-- The estimated period is a rational, its quotient the one of the standard. -/
theorem blankLines_exact {h fps : ℕ} (hh : 0 < h) (hh' : h < 2 ^ 24) (hpos : 0 < fps) (hf : 460 * fps < 1000000) :
    blankLines (Int32.ofNat h) (Int32.ofNat fps) = (460 * h * fps / (1000000 - 460 * fps) : ℕ) := by
  have hleft : (0 : ℚ) < ((1000000 - 460 * fps : ℕ) : ℚ) := by
    rw [Nat.cast_pos]
    omega
  have hcast : ((1000000 - 460 * fps : ℕ) : ℚ) = 1000000 - 460 * fps := by
    rw [Nat.cast_sub hf.le]
    push_cast
    rfl
  have hquot : (460 : ℚ) / ((1000000 / fps - 460) / h) = (460 * h * fps : ℕ) / (1000000 - 460 * fps : ℕ) := by
    have hh0 : (h : ℚ) ≠ 0 := by positivity
    have hf0 : (fps : ℚ) ≠ 0 := by positivity
    rw [hcast] at hleft ⊢
    have hne : (1000000 : ℚ) - 460 * fps ≠ 0 := hleft.ne'
    push_cast
    field_simp
  unfold blankLines
  rw [toInt_ofNat_small (by omega), toInt_ofNat_small (by omega)]
  simp only [Int.cast_natCast]
  rw [hquot, Rat.floor_natCast_div_natCast]
  rfl

/-- The timing of the standard. -/
def exact (w h fps : ℕ) : VideoTiming where
  hActive := Int32.ofNat w
  hFrontPorch := 48
  hSyncLen := 32
  hBackPorch := 80
  vActive := Int32.ofNat h
  vFrontPorch := 3
  vSyncLen := Int32.ofNat (vsync w h)
  vBackPorch := Int32.ofNat (vbi w h fps - 3 - vsync w h)
  hSyncPositive := true
  vSyncPositive := false
  fps := Int32.ofNat fps

section Exact

variable {w h fps : ℕ}

/-- A clock below 32 bits leaves every total far from the end of an `Int`. -/
theorem vtotal_lt (hpos : 0 < fps) (hclock : clock w h fps < 2 ^ 32) : h + vbi w h fps < 2 ^ 25 := by
  have hle : 160 * (h + vbi w h fps) ≤ clock w h fps := by
    unfold clock
    rw [Nat.mul_assoc]
    exact Nat.mul_le_mul (by omega) (Nat.le_mul_of_pos_right _ hpos)
  omega

/-- **The generator computes the timing of the standard.** -/
theorem cvtReducedBlanking_exact (hw : 0 < w) (hw' : w < 2 ^ 24) (hh : 0 < h) (hh' : h < 2 ^ 24) (hpos : 0 < fps)
    (hf : 460 * fps < 1000000) (hclock : clock w h fps < 2 ^ 32) :
    cvtReducedBlanking (Int32.ofNat w) (Int32.ofNat h) (Int32.ofNat fps) = .ok (exact w h fps) := by
  have hzero : ∀ {n : ℕ}, 0 < n → n < 2 ^ 31 → Int32.ofNat n > 0 :=
    fun {n} h0 hn => (ofNat_lt_iff (a := 0) (b := n) (by omega) hn).mpr h0
  have htotal := vtotal_lt hpos hclock
  obtain ⟨hs4, hs10⟩ := vsync_bounds w h
  have hlines : lines h fps ≤ vbi w h fps := le_max_left _ _
  have hfloor : 3 + vsync w h + 6 ≤ vbi w h fps := le_max_right _ _
  have hquot : 460 * h * fps / (1000000 - 460 * fps) + 1 = lines h fps := rfl
  have hsat : Clk.MmcmSolver.toInt (blankLines (Int32.ofNat h) (Int32.ofNat fps)) =
      (460 * h * fps / (1000000 - 460 * fps) : ℕ) := by
    rw [blankLines_exact hh hh' hpos hf]
    unfold Clk.MmcmSolver.toInt
    omega
  unfold cvtReducedBlanking
  rw [if_pos ⟨hzero hw (by omega), hzero hh (by omega), hzero hpos (by omega)⟩, hsat, vSyncOf_exact hw' hh']
  have hvbi : max (Int32.ofInt ((460 * h * fps / (1000000 - 460 * fps) : ℕ) : ℤ) + 1)
      (3 + Int32.ofNat (vsync w h) + 6) = Int32.ofNat (vbi w h fps) := by
    have hleft :
        Int32.ofInt ((460 * h * fps / (1000000 - 460 * fps) : ℕ) : ℤ) + 1 = Int32.ofNat (lines h fps) := by
      rw [← hquot, Int32.ofNat_add]
      rfl
    have hright : 3 + Int32.ofNat (vsync w h) + 6 = Int32.ofNat (3 + vsync w h + 6) := by
      rw [Int32.ofNat_add, Int32.ofNat_add]
      rfl
    rw [hleft, hright, max_ofNat (by omega) (by omega)]
    rfl
  simp only [hvbi]
  have hback : Int32.ofNat (vbi w h fps) - 3 - Int32.ofNat (vsync w h) =
      Int32.ofNat (vbi w h fps - 3 - vsync w h) := by
    rw [Int32.ofNat_sub _ _ (by omega), Int32.ofNat_sub _ _ (by omega)]
    rfl
  rw [hback]
  rfl

/-- The product of the totals is the clock of the standard. -/
theorem exact_pixelClock (hw' : w < 2 ^ 24) (hpos : 0 < fps)
    (hf : 460 * fps < 1000000) (hclock : clock w h fps < 2 ^ 32) : (exact w h fps).pixelClock = clock w h fps := by
  have htotal := vtotal_lt hpos hclock
  have hfloor : 3 + vsync w h + 6 ≤ vbi w h fps := le_max_right _ _
  have hline : (exact w h fps).hTotal = Int32.ofNat (w + 160) := by
    change Int32.ofNat w + Int32.ofNat 48 + Int32.ofNat 32 + Int32.ofNat 80 = _
    rw [← Int32.ofNat_add, ← Int32.ofNat_add, ← Int32.ofNat_add]
  have hframe : (exact w h fps).vTotal = Int32.ofNat (h + vbi w h fps) := by
    change Int32.ofNat h + Int32.ofNat 3 + Int32.ofNat (vsync w h) + Int32.ofNat (vbi w h fps - 3 - vsync w h) = _
    rw [← Int32.ofNat_add, ← Int32.ofNat_add, ← Int32.ofNat_add]
    congr 1
    omega
  unfold pixelClock
  rw [hline, hframe, toInt_ofNat_small (by omega), toInt_ofNat_small (by omega)]
  change _ * _ * (Int32.ofNat fps).toInt = _
  rw [toInt_ofNat_small (by omega)]
  unfold clock
  push_cast
  rfl

end Exact

end VideoTiming

end Soceteer.Video
