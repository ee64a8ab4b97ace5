import Mathlib.Tactic.Ring
import Soceteer.Lib.Scan

/-!
# Soceteer.Clk.Wzrd — the runtime MMCM solver of `clk-wzrd.c`

`soct_clk_wzrd_solve` looks for the divider setting closest to a target frequency.  It runs through all divider
pairs and tries, for each, the two multipliers around the quotient that would hit the target.

* `Limits`, `Setting`: the analog window and a setting; all fields are `u32`.
* `solve`: the search, loop by loop.
* `Legal`: the window tests; `Tried`: the settings the search looks at (`ordered_search`).
* `solve_eq_iff`: which of equally close settings is found.
* `dominated`: a legal setting is no better than a tried one of its divider pair or than the nearest end of the
  pair's multiplier range, if the range misses both tried multipliers.
* `exhaustive_iff`: the search is complete and optimal exactly when no such end is better than everything tried.
-/

namespace Soceteer.Clk

open Scan

/-! ## The solver -/

/-- `struct soct_clk_wzrd_limits`. -/
structure Limits where
  inputHz : ℕ
  vcoMinHz : ℕ
  vcoMaxHz : ℕ
  pfdMinHz : ℕ
  pfdMaxHz : ℕ
  input_lt : inputHz < 2 ^ 32
  vcoMin_lt : vcoMinHz < 2 ^ 32
  vcoMax_lt : vcoMaxHz < 2 ^ 32
  pfdMin_lt : pfdMinHz < 2 ^ 32
  pfdMax_lt : pfdMaxHz < 2 ^ 32

/-- The limits the device tree advertises: VCO 800 to 1600 MHz, PFD 10 to 500 MHz. -/
def advertised (input : UInt32) : Limits :=
  ⟨input.toNat, 800000000, 1600000000, 10000000, 500000000,
    input.toNat_lt, by decide, by decide, by decide, by decide⟩

/-- `struct soct_clk_wzrd_setting`. -/
structure Setting where
  div : ℕ
  multEighths : ℕ
  odivEighths : ℕ
  achievedHz : ℕ
deriving DecidableEq

/-- The error codes of the drivers. -/
inductive Errno
  | edom
  | einval
  | ebusy
  | etimedout
  | eio
  | eopnotsupp
deriving DecidableEq

def u32Max : ℕ := 2 ^ 32 - 1

section Solve

variable (lim : Limits) (target : ℕ)

/-- The body of the loop over `i`.  No `u64` product reaches `2 ^ 50`. -/
def tryMult (div o8 m8Floor : ℕ) (best : Best Setting ℕ) (i : ℕ) : Best Setting ℕ :=
  let m8 := m8Floor + i
  if m8 < 2 * 8 ∨ m8 > 128 * 8 then best
  else if lim.inputHz * m8 < lim.vcoMinHz * 8 * div ∨ lim.inputHz * m8 > lim.vcoMaxHz * 8 * div then best
  else
    let achieved := lim.inputHz * m8 / (div * o8)
    let err := (if achieved > target then achieved - target else target - achieved) % 2 ^ 32
    if err < best.err then ⟨err, ⟨div, m8 % 2 ^ 32, o8, achieved % 2 ^ 32⟩⟩ else best

/-- The body of the loop over `o8`. -/
def tryOdiv (div : ℕ) (best : Best Setting ℕ) (o8 : ℕ) : Best Setting ℕ :=
  if o8 < 16 ∧ o8 % 8 ≠ 0 then best
  else
    let m8Floor := target * div * o8 / lim.inputHz
    (List.range 2).foldl (tryMult lim target div o8 m8Floor) best

/-- The body of the loop over `div`. -/
def tryDiv (best : Best Setting ℕ) (div : ℕ) : Best Setting ℕ :=
  if lim.pfdMinHz * div > lim.inputHz ∨ lim.pfdMaxHz * div < lim.inputHz then best
  else (List.range' 8 1017).foldl (tryOdiv lim target div) best

def search (best : Best Setting ℕ) : Best Setting ℕ := (List.range' 1 106).foldl (tryDiv lim target) best

/-- `soct_clk_wzrd_solve`. -/
def solve : Except Errno Setting :=
  if lim.inputHz = 0 ∨ target = 0 then .error .edom
  else
    let best := search lim target ⟨u32Max, ⟨0, 0, 0, 0⟩⟩
    if best.err = u32Max ∨ best.err * 200 > target then .error .edom
    else .ok best.out

end Solve

/-! ## Legal settings -/

/-- Distance of a frequency from the target. -/
def freqErr (target f : ℕ) : ℕ := if f > target then f - target else target - f

/-- Output frequency, rounded down. -/
def achieved (lim : Limits) (div m8 o8 : ℕ) : ℕ := lim.inputHz * m8 / (div * o8)

/-- The divider pairs in the windows. -/
@[mk_iff legalPair_def] structure LegalPair (lim : Limits) (div o8 : ℕ) : Prop where
  div_pos : 1 ≤ div
  div_le : div ≤ 106
  odiv_ge : 8 ≤ o8
  odiv_le : o8 ≤ 1024
  odiv_whole : ¬ (o8 < 16 ∧ o8 % 8 ≠ 0)
  pfd_ge : lim.pfdMinHz * div ≤ lim.inputHz
  pfd_le : lim.inputHz ≤ lim.pfdMaxHz * div

/-- The legal settings: the window tests of the search. -/
@[mk_iff legal_def] structure Legal (lim : Limits) (div m8 o8 : ℕ) : Prop extends LegalPair lim div o8 where
  mult_ge : 16 ≤ m8
  mult_le : m8 ≤ 1024
  vco_ge : lim.vcoMinHz * 8 * div ≤ lim.inputHz * m8
  vco_le : lim.inputHz * m8 ≤ lim.vcoMaxHz * 8 * div

/-- The setting of a choice of dividers and multiplier. -/
def settingOf (lim : Limits) (div m8 o8 : ℕ) : Setting := ⟨div, m8, o8, achieved lim div m8 o8⟩

/-- The lower of the two multipliers tried. -/
def multFloor (lim : Limits) (target div o8 : ℕ) : ℕ := target * div * o8 / lim.inputHz

/-- The settings the search looks at. -/
def Tried (lim : Limits) (target div m8 o8 : ℕ) : Prop :=
  Legal lim div m8 o8 ∧ (m8 = multFloor lim target div o8 ∨ m8 = multFloor lim target div o8 + 1)

instance (lim : Limits) (div o8 : ℕ) : Decidable (LegalPair lim div o8) :=
  decidable_of_iff' _ (legalPair_def lim div o8)

instance (lim : Limits) (div m8 o8 : ℕ) : Decidable (Legal lim div m8 o8) :=
  decidable_of_iff' _ (legal_def lim div m8 o8)

instance (lim : Limits) (target div m8 o8 : ℕ) : Decidable (Tried lim target div m8 o8) :=
  inferInstanceAs (Decidable (_ ∧ _))

def triedSet (lim : Limits) (target : ℕ) : Set Setting :=
  {s | ∃ div m8 o8, Tried lim target div m8 o8 ∧ s = settingOf lim div m8 o8}

theorem Legal.prod_pos {lim : Limits} {div m8 o8 : ℕ} (h : Legal lim div m8 o8) : 0 < div * o8 :=
  Nat.mul_pos h.div_pos (Nat.lt_of_lt_of_le (by decide) h.odiv_ge)

/-- No output is faster than the VCO, so `achieved_hz` and `err` fit their `u32`s. -/
theorem Legal.achieved_lt {lim : Limits} {div m8 o8 : ℕ} (h : Legal lim div m8 o8) :
    achieved lim div m8 o8 < 2 ^ 32 := by
  have hpos := h.prod_pos
  refine lt_of_le_of_lt ?_ lim.vcoMax_lt
  refine Nat.div_le_of_le_mul ?_
  calc lim.inputHz * m8 ≤ lim.vcoMaxHz * 8 * div := h.vco_le
    _ = div * 8 * lim.vcoMaxHz := by ring
    _ ≤ div * o8 * lim.vcoMaxHz := Nat.mul_le_mul_right _ (Nat.mul_le_mul_left _ h.odiv_ge)

theorem freqErr_lt {target f : ℕ} (ht : target < 2 ^ 32) (hf : f < 2 ^ 32) : freqErr target f < 2 ^ 32 := by
  unfold freqErr
  split_ifs <;> omega

/-- The order of the loops. -/
def Setting.Before (s t : Setting) : Prop :=
  s.div < t.div ∨ s.div = t.div ∧ (s.odivEighths < t.odivEighths ∨
    s.odivEighths = t.odivEighths ∧ s.multEighths < t.multEighths)

theorem Setting.Before.asymm {s t : Setting} (h : s.Before t) : ¬ t.Before s := by
  unfold Setting.Before at *
  omega

section Search

variable {lim : Limits} {target : ℕ} (htarget : target < 2 ^ 32)
include htarget

theorem ordered_tryMult {div o8 : ℕ} (hpair : LegalPair lim div o8) (m8Floor i : ℕ) :
    Ordered Setting.Before (fun s : Setting => freqErr target s.achievedHz)
      {s | Legal lim div (m8Floor + i) o8 ∧ s = settingOf lim div (m8Floor + i) o8}
      (fun b => tryMult lim target div o8 m8Floor b i) := by
  unfold tryMult
  by_cases hl : Legal lim div (m8Floor + i) o8
  · have hm := hl.mult_ge
    have hm' := hl.mult_le
    have hv := hl.vco_ge
    have hv' := hl.vco_le
    have ha := hl.achieved_lt
    have he := freqErr_lt htarget ha
    have hm32 : (m8Floor + i) % 2 ^ 32 = m8Floor + i := Nat.mod_eq_of_lt (by omega)
    have ha32 : lim.inputHz * (m8Floor + i) / (div * o8) % 2 ^ 32 = achieved lim div (m8Floor + i) o8 :=
      Nat.mod_eq_of_lt ha
    have he32 : (if lim.inputHz * (m8Floor + i) / (div * o8) > target
        then lim.inputHz * (m8Floor + i) / (div * o8) - target
        else target - lim.inputHz * (m8Floor + i) / (div * o8)) % 2 ^ 32 =
          freqErr target (achieved lim div (m8Floor + i) o8) := Nat.mod_eq_of_lt he
    dsimp only
    rw [hm32, ha32, he32]
    simp only [show ¬ (m8Floor + i < 2 * 8 ∨ m8Floor + i > 128 * 8) by omega, if_false,
      show ¬ (lim.inputHz * (m8Floor + i) < lim.vcoMinHz * 8 * div ∨
        lim.inputHz * (m8Floor + i) > lim.vcoMaxHz * 8 * div) by omega]
    exact (Ordered.keep (settingOf lim div (m8Floor + i) o8)).congr (by ext s; simp [hl])
  · have hskip : (m8Floor + i < 2 * 8 ∨ m8Floor + i > 128 * 8) ∨
        (lim.inputHz * (m8Floor + i) < lim.vcoMinHz * 8 * div ∨
          lim.inputHz * (m8Floor + i) > lim.vcoMaxHz * 8 * div) := by
      by_contra hc
      exact hl ⟨hpair, by omega, by omega, by omega, by omega⟩
    refine Ordered.congr (S := ∅) ?_ (by ext s; simp [hl])
    rcases hskip with hskip | hskip
    · simp only [hskip, if_true]
      exact Ordered.skip
    · simp only [hskip, if_true, ite_self]
      exact Ordered.skip

theorem ordered_tryOdiv {div o8 : ℕ} (hdiv : 1 ≤ div ∧ div ≤ 106) (ho8 : 8 ≤ o8 ∧ o8 ≤ 1024)
    (hpfd : lim.pfdMinHz * div ≤ lim.inputHz ∧ lim.inputHz ≤ lim.pfdMaxHz * div) :
    Ordered Setting.Before (fun s : Setting => freqErr target s.achievedHz)
      {s | ∃ m8, Tried lim target div m8 o8 ∧ s = settingOf lim div m8 o8}
        (fun b => tryOdiv lim target div b o8) := by
  unfold tryOdiv
  by_cases hwhole : o8 < 16 ∧ o8 % 8 ≠ 0
  · simp only [if_pos hwhole]
    refine Ordered.skip.congr ?_
    ext s
    simp only [Set.mem_empty_iff_false, false_iff]
    rintro ⟨m8, h, -⟩
    exact h.1.odiv_whole hwhole
  · have hpair : LegalPair lim div o8 := ⟨hdiv.1, hdiv.2, ho8.1, ho8.2, hwhole, hpfd.1, hpfd.2⟩
    simp only [hwhole, if_false]
    refine (Ordered.foldl (fun i _ => ordered_tryMult htarget hpair (target * div * o8 / lim.inputHz) i)
      (List.pairwise_lt_range.imp ?_)).congr ?_
    · rintro i j hij s ⟨-, rfl⟩ t ⟨-, rfl⟩
      exact Or.inr ⟨rfl, Or.inr ⟨rfl, Nat.add_lt_add_left hij _⟩⟩
    ext s
    constructor
    · rintro ⟨i, hi, hl, rfl⟩
      obtain rfl | rfl : i = 0 ∨ i = 1 := by have := List.mem_range.mp hi; omega
      · exact ⟨_, ⟨hl, Or.inl rfl⟩, rfl⟩
      · exact ⟨_, ⟨hl, Or.inr rfl⟩, rfl⟩
    · rintro ⟨m8, ⟨hl, rfl | rfl⟩, rfl⟩
      · exact ⟨0, by simp, hl, rfl⟩
      · exact ⟨1, by simp, hl, rfl⟩

theorem ordered_tryDiv {div : ℕ} (hdiv : 1 ≤ div ∧ div ≤ 106) :
    Ordered Setting.Before (fun s : Setting => freqErr target s.achievedHz)
      {s | ∃ m8 o8, Tried lim target div m8 o8 ∧ s = settingOf lim div m8 o8}
        (fun b => tryDiv lim target b div) := by
  unfold tryDiv
  by_cases hpfd : lim.pfdMinHz * div > lim.inputHz ∨ lim.pfdMaxHz * div < lim.inputHz
  · simp only [hpfd, if_true]
    refine Ordered.skip.congr ?_
    ext s
    simp only [Set.mem_empty_iff_false, false_iff]
    rintro ⟨m8, o8, h, -⟩
    have h1 := h.1.pfd_ge
    have h2 := h.1.pfd_le
    omega
  · simp only [hpfd, if_false]
    refine (Ordered.foldl (fun o8 ho8 => ordered_tryOdiv htarget hdiv
      (by have := List.mem_range'_1.mp ho8; omega) (by omega)) ((List.pairwise_lt_range' ..).imp ?_)).congr ?_
    · rintro i j hij s ⟨m8, -, rfl⟩ t ⟨m8', -, rfl⟩
      exact Or.inr ⟨rfl, Or.inl hij⟩
    ext s
    constructor
    · rintro ⟨o8, -, m8, h⟩
      exact ⟨m8, o8, h⟩
    · rintro ⟨m8, o8, h, hs⟩
      have h1 := h.1.odiv_ge
      have h2 := h.1.odiv_le
      exact ⟨o8, List.mem_range'_1.mpr (by omega), m8, h, hs⟩

/-- **What the search looks at**, and in which order. -/
theorem ordered_search : Ordered Setting.Before (fun s : Setting => freqErr target s.achievedHz)
    (triedSet lim target) (search lim target) := by
  refine (Ordered.foldl (fun div hdiv => ordered_tryDiv htarget (by have := List.mem_range'_1.mp hdiv; omega))
    ((List.pairwise_lt_range' ..).imp ?_)).congr ?_
  · rintro i j hij s ⟨m8, o8, -, rfl⟩ t ⟨m8', o8', -, rfl⟩
    exact Or.inl hij
  ext s
  constructor
  · rintro ⟨div, -, m8, o8, h⟩
    exact ⟨div, m8, o8, h⟩
  · rintro ⟨div, m8, o8, h, hs⟩
    have h1 := h.1.div_pos
    have h2 := h.1.div_le
    exact ⟨div, List.mem_range'_1.mpr (by omega), m8, o8, h, hs⟩

theorem scans_search : Scans (fun s : Setting => freqErr target s.achievedHz) (triedSet lim target)
    (search lim target) :=
  (ordered_search htarget).toScans

end Search

/-- Within 0.5% of the target. -/
def Within (target f : ℕ) : Prop := freqErr target f * 200 ≤ target

instance (target f : ℕ) : Decidable (Within target f) := inferInstanceAs (Decidable (_ ≤ _))

/-- Without an input or a target nothing is tried. -/
theorem not_tried {lim : Limits} {target : ℕ} (h : lim.inputHz = 0 ∨ target = 0) (div m8 o8 : ℕ) :
    ¬ Tried lim target div m8 o8 := by
  rintro ⟨hl, hm⟩
  have hfloor : multFloor lim target div o8 = 0 := by
    rcases h with h | h <;> simp [multFloor, h]
  have := hl.mult_ge
  omega

/-- The windows bound the input divider and, for a fast target, the output divider of what is tried. -/
theorem Tried.mem_box {lim : Limits} {target D B div m8 o8 : ℕ} (h : Tried lim target div m8 o8)
    (hin : 0 < lim.inputHz)
    (hD : lim.inputHz < lim.pfdMinHz * (D + 1)) (hB : lim.vcoMaxHz * 8 + lim.inputHz ≤ target * B) :
    div ∈ List.range' 1 D ∧ o8 ∈ List.range' 8 (B - 8) ∧ ∃ i ∈ List.range 2,
      m8 = multFloor lim target div o8 + i := by
  obtain ⟨hl, hm⟩ := h
  have hdiv := hl.div_pos
  have ho8 := hl.odiv_ge
  have hdivD : div < D + 1 := lt_of_mul_lt_mul_left (lt_of_le_of_lt hl.pfd_ge hD) (Nat.zero_le _)
  have hfloor : multFloor lim target div o8 ≤ m8 := by
    rcases hm with rfl | rfl
    · exact le_rfl
    · exact Nat.le_succ _
  have ho8B : o8 < B := by
    refine lt_of_mul_lt_mul_left (a := target * div) ?_ (Nat.zero_le _)
    calc target * div * o8
        < lim.inputHz * (multFloor lim target div o8 + 1) := Nat.lt_mul_div_succ _ hin
      _ ≤ lim.inputHz * m8 + lim.inputHz := by
        rw [Nat.mul_succ]
        exact Nat.add_le_add_right (Nat.mul_le_mul_left _ hfloor) _
      _ ≤ lim.vcoMaxHz * 8 * div + lim.inputHz * div := Nat.add_le_add hl.vco_le (Nat.le_mul_of_pos_right _ hdiv)
      _ = (lim.vcoMaxHz * 8 + lim.inputHz) * div := (Nat.add_mul ..).symm
      _ ≤ target * B * div := Nat.mul_le_mul_right _ hB
      _ = target * div * B := Nat.mul_right_comm ..
  refine ⟨List.mem_range'_1.mpr (by omega), List.mem_range'_1.mpr (by omega), ?_⟩
  rcases hm with rfl | rfl
  · exact ⟨0, by decide, rfl⟩
  · exact ⟨1, by decide, rfl⟩

theorem solve_cases (lim : Limits) (target : ℕ) :
    (∃ s, solve lim target = .ok s) ∨ solve lim target = .error .edom := by
  unfold solve
  dsimp only
  split_ifs
  · exact Or.inr rfl
  · exact Or.inr rfl
  · exact Or.inl ⟨_, rfl⟩

section Spec

variable {lim : Limits} {target : ℕ} (htarget : target < 2 ^ 32)
include htarget

/-- A setting found is a tried one within the tolerance, and none tried is better. -/
theorem solve_ok {s : Setting} (h : solve lim target = .ok s) :
    (∃ div m8 o8, Tried lim target div m8 o8 ∧ s = settingOf lim div m8 o8) ∧ Within target s.achievedHz ∧
      ∀ div m8 o8, Tried lim target div m8 o8 →
        freqErr target s.achievedHz ≤ freqErr target (achieved lim div m8 o8) := by
  have hscan := @scans_search lim target htarget
  unfold solve at h
  split_ifs at h with h0
  dsimp only at h
  split_ifs at h with h1
  cases h
  push Not at h1
  obtain ⟨hmem, herr⟩ := hscan.mem_of (p := fun e => e ≠ u32Max) (by simp) h1.1
  refine ⟨hmem, ?_, fun div m8 o8 ht => ?_⟩
  · rw [Within, ← herr]
    exact h1.2
  · rw [← herr]
    exact hscan.le_of_mem _ (settingOf lim div m8 o8) ⟨div, m8, o8, ht, rfl⟩

/-- Of equally close settings the search finds the first. -/
theorem solve_first {s : Setting} (h : solve lim target = .ok s) {t : Setting} (ht : t ∈ triedSet lim target)
    (he : freqErr target s.achievedHz = freqErr target t.achievedHz) : s = t ∨ s.Before t := by
  have hord := @ordered_search lim target htarget
  unfold solve at h
  split_ifs at h
  dsimp only at h
  split_ifs at h with hfound
  cases h
  push Not at hfound
  obtain ⟨-, herr⟩ := hord.mem_of (p := fun e => e ≠ u32Max) (by simp) hfound.1
  rcases hord.first ⟨u32Max, ⟨0, 0, 0, 0⟩⟩ t ht (herr.trans he) with hstart | hbefore
  · exact absurd (congrArg Best.err hstart) hfound.1
  · exact hbefore

/-- Nothing is found exactly when nothing tried is within the tolerance. -/
theorem solve_error_iff : solve lim target = .error .edom ↔
    ∀ div m8 o8, Tried lim target div m8 o8 → ¬ Within target (achieved lim div m8 o8) := by
  have hscan := @scans_search lim target htarget
  unfold solve
  split_ifs with h0
  · simp only [true_iff]
    exact fun div m8 o8 ht => absurd ht (not_tried h0 div m8 o8)
  · have hfound := hscan.exists_iff (p := fun e => e * 200 ≤ target) (fun a b hab hb => by omega)
      (b := ⟨u32Max, ⟨0, 0, 0, 0⟩⟩) (by simp only [u32Max]; omega)
    dsimp only
    constructor
    · intro h div m8 o8 ht hw
      have := hfound.mpr ⟨settingOf lim div m8 o8, ⟨div, m8, o8, ht, rfl⟩, hw⟩
      rw [if_neg] at h
      · cases h
      · have hne : (2 ^ 32 - 1) * 200 > target := by omega
        intro hc
        rcases hc with hc | hc
        · rw [hc] at this
          exact absurd this (by simp only [u32Max]; omega)
        · omega
    · intro h
      refine if_pos (Or.inr (Nat.lt_of_not_le fun hc => ?_))
      obtain ⟨s, ⟨div, m8, o8, ht, rfl⟩, hw⟩ := hfound.mp hc
      exact h div m8 o8 ht hw

end Spec

/-- The closest of the tried settings, the first of equally close ones. -/
structure FirstBest (lim : Limits) (target : ℕ) (s : Setting) : Prop where
  tried : s ∈ triedSet lim target
  closest : ∀ t ∈ triedSet lim target, freqErr target s.achievedHz ≤ freqErr target t.achievedHz
  first : ∀ t ∈ triedSet lim target, freqErr target s.achievedHz = freqErr target t.achievedHz → s = t ∨ s.Before t

theorem FirstBest.unique {lim : Limits} {target : ℕ} {s t : Setting} (hs : FirstBest lim target s)
    (ht : FirstBest lim target t) : s = t := by
  have he := Nat.le_antisymm (hs.closest t ht.tried) (ht.closest s hs.tried)
  rcases hs.first t ht.tried he with h | h
  · exact h
  · rcases ht.first s hs.tried he.symm with h' | h'
    · exact h'.symm
    · exact absurd h' h.asymm

theorem FirstBest.hits {lim : Limits} {target div m8 o8 : ℕ} {s : Setting} (h : FirstBest lim target s)
    (ht : Tried lim target div m8 o8) (ha : achieved lim div m8 o8 = target) : s.achievedHz = target := by
  have hle : freqErr target s.achievedHz ≤ freqErr target (achieved lim div m8 o8) :=
    h.closest _ ⟨div, m8, o8, ht, rfl⟩
  rw [ha] at hle
  unfold freqErr at hle
  split_ifs at hle <;> omega

/-- **What the solver finds.** -/
theorem solve_eq_iff {lim : Limits} {target : ℕ} (htarget : target < 2 ^ 32) {s : Setting} :
    solve lim target = .ok s ↔ FirstBest lim target s ∧ Within target s.achievedHz := by
  have hfound : ∀ {s : Setting}, solve lim target = .ok s → FirstBest lim target s ∧ Within target s.achievedHz :=
    fun {s} hs => by
      obtain ⟨hmem, hw, hbest⟩ := solve_ok htarget hs
      refine ⟨⟨hmem, fun t ht => ?_, fun t ht => solve_first htarget hs ht⟩, hw⟩
      obtain ⟨div, m8, o8, htried, rfl⟩ := ht
      exact hbest div m8 o8 htried
  refine ⟨hfound, fun ⟨hfirst, hw⟩ => ?_⟩
  rcases solve_cases lim target with ⟨s', hs'⟩ | herr
  · rw [hfirst.unique (hfound hs').1]
    exact hs'
  · obtain ⟨div, m8, o8, htried, rfl⟩ := hfirst.tried
    exact absurd hw ((solve_error_iff htarget).mp herr div m8 o8 htried)

/-! ## Completeness -/

theorem achieved_mono (lim : Limits) (div o8 : ℕ) {m m' : ℕ} (h : m ≤ m') :
    achieved lim div m o8 ≤ achieved lim div m' o8 :=
  Nat.div_le_div_right (Nat.mul_le_mul_left _ h)

/-- Multipliers up to the tried ones fall short of the target. -/
theorem achieved_le {lim : Limits} {target div m8 o8 : ℕ} (h : m8 ≤ multFloor lim target div o8) :
    achieved lim div m8 o8 ≤ target := by
  rcases Nat.eq_zero_or_pos (div * o8) with h0 | h0
  · rw [achieved, h0, Nat.div_zero]
    exact Nat.zero_le _
  · refine Nat.div_le_of_le_mul ?_
    calc lim.inputHz * m8 ≤ lim.inputHz * multFloor lim target div o8 := Nat.mul_le_mul_left _ h
      _ ≤ target * div * o8 := Nat.mul_div_le _ _
      _ = div * o8 * target := by ring

/-- Those above the lower one reach it. -/
theorem le_achieved {lim : Limits} {target div m8 o8 : ℕ} (hpos : 0 < div * o8) (hin : 0 < lim.inputHz)
    (h : multFloor lim target div o8 < m8) : target ≤ achieved lim div m8 o8 := by
  rw [achieved, Nat.le_div_iff_mul_le hpos]
  have hlt : target * div * o8 < lim.inputHz * (multFloor lim target div o8 + 1) := Nat.lt_mul_div_succ _ hin
  calc target * (div * o8) = target * div * o8 := by ring
    _ ≤ lim.inputHz * (multFloor lim target div o8 + 1) := le_of_lt hlt
    _ ≤ lim.inputHz * m8 := Nat.mul_le_mul_left _ h

theorem freqErr_below {lim : Limits} {target div o8 m m' : ℕ} (h : m ≤ m')
    (h' : m' ≤ multFloor lim target div o8) :
    freqErr target (achieved lim div m' o8) ≤ freqErr target (achieved lim div m o8) := by
  have h1 := achieved_le h'
  have h2 := achieved_mono lim div o8 h
  unfold freqErr
  split_ifs <;> omega

theorem freqErr_above {lim : Limits} {target div o8 m m' : ℕ} (hpos : 0 < div * o8)
    (h : multFloor lim target div o8 < m) (h' : m ≤ m') :
    freqErr target (achieved lim div m o8) ≤ freqErr target (achieved lim div m' o8) := by
  rcases Nat.eq_zero_or_pos lim.inputHz with hin | hin
  · simp [achieved, hin]
  · have h1 := le_achieved hpos hin h
    have h2 := achieved_mono lim div o8 h'
    unfold freqErr
    split_ifs <;> omega

/-- The legal multipliers of a divider pair are an interval. -/
theorem Legal.between {lim : Limits} {div o8 m₁ m m₂ : ℕ} (h₁ : Legal lim div m₁ o8) (h₂ : Legal lim div m₂ o8)
    (hle₁ : m₁ ≤ m) (hle₂ : m ≤ m₂) : Legal lim div m o8 :=
  ⟨h₁.toLegalPair, h₁.mult_ge.trans hle₁, hle₂.trans h₂.mult_le, h₁.vco_ge.trans (Nat.mul_le_mul_left _ hle₁),
    (Nat.mul_le_mul_left _ hle₂).trans h₂.vco_le⟩

/-- All legal multipliers of the pair lie above or all lie below the two tried ones, and `m8` is the nearest. -/
def Edge (lim : Limits) (target div m8 o8 : ℕ) : Prop :=
  Legal lim div m8 o8 ∧
    ((∀ m, Legal lim div m o8 → multFloor lim target div o8 + 1 < m ∧ m8 ≤ m) ∨
      ∀ m, Legal lim div m o8 → m < multFloor lim target div o8 ∧ m ≤ m8)

open Classical in
/-- **Legal settings are dominated** by a tried setting or an end of the multiplier range of the same pair. -/
theorem dominated {lim : Limits} {div m8 o8 : ℕ} (target : ℕ) (h : Legal lim div m8 o8) :
    ∃ m, (Tried lim target div m o8 ∨ Edge lim target div m o8) ∧
      freqErr target (achieved lim div m o8) ≤ freqErr target (achieved lim div m8 o8) := by
  have hpos := h.prod_pos
  rcases le_or_gt m8 (multFloor lim target div o8) with hle | hgt
  · by_cases hx : Legal lim div (multFloor lim target div o8) o8
    · exact ⟨_, Or.inl ⟨hx, Or.inl rfl⟩, freqErr_below hle le_rfl⟩
    · -- the range ends below the quotient: take its upper end
      have hbelow : ∀ m, Legal lim div m o8 → m < multFloor lim target div o8 := fun m hm => by
        by_contra hc
        exact hx (h.between hm hle (by omega))
      have hmax := Nat.findGreatest_spec (P := fun m => Legal lim div m o8) h.mult_le h
      have hle' : ∀ m, Legal lim div m o8 → m ≤ Nat.findGreatest (fun m => Legal lim div m o8) 1024 :=
        fun m hm => Nat.le_findGreatest hm.mult_le hm
      exact ⟨_, Or.inr ⟨hmax, Or.inr fun m hm => ⟨hbelow m hm, hle' m hm⟩⟩,
        freqErr_below (hle' m8 h) (le_of_lt (hbelow _ hmax))⟩
  · by_cases hx : Legal lim div (multFloor lim target div o8 + 1) o8
    · exact ⟨_, Or.inl ⟨hx, Or.inr rfl⟩, freqErr_above hpos (Nat.lt_succ_self _) hgt⟩
    · -- the range starts above it: take its lower end
      have habove : ∀ m, Legal lim div m o8 → multFloor lim target div o8 + 1 < m := fun m hm => by
        by_contra hc
        exact hx (hm.between h (by omega) hgt)
      have hex : ∃ m, Legal lim div m o8 := ⟨m8, h⟩
      have hmin := Nat.find_spec hex
      have hle' : ∀ m, Legal lim div m o8 → Nat.find hex ≤ m := fun m hm => Nat.find_min' hex hm
      exact ⟨_, Or.inr ⟨hmin, Or.inl fun m hm => ⟨habove m hm, hle' m hm⟩⟩,
        freqErr_above hpos (by have := habove _ hmin; omega) (hle' m8 h)⟩

/-- The solver is complete and optimal over the legal settings. -/
def Exhaustive (lim : Limits) (target : ℕ) : Prop :=
  (solve lim target = .error .edom ↔ ∀ div m8 o8, Legal lim div m8 o8 → ¬ Within target (achieved lim div m8 o8)) ∧
    ∀ s, solve lim target = .ok s → (∃ div m8 o8, Legal lim div m8 o8 ∧ s = settingOf lim div m8 o8) ∧
      ∀ div m8 o8, Legal lim div m8 o8 → freqErr target s.achievedHz ≤ freqErr target (achieved lim div m8 o8)

/-- An end of a multiplier range that misses both tried multipliers is within the tolerance and better than
everything tried. -/
def EdgeMissed (lim : Limits) (target : ℕ) : Prop :=
  ∃ div m8 o8, Edge lim target div m8 o8 ∧ Within target (achieved lim div m8 o8) ∧
    ∀ div' m8' o8', Tried lim target div' m8' o8' →
      freqErr target (achieved lim div m8 o8) < freqErr target (achieved lim div' m8' o8')

/-- **When the solver is exhaustive.** -/
theorem exhaustive_iff (lim : Limits) (target : UInt32) :
    Exhaustive lim target.toNat ↔ ¬ EdgeMissed lim target.toNat := by
  have htarget : target.toNat < 2 ^ 32 := target.toNat_lt
  constructor
  · rintro ⟨hedom, hopt⟩ ⟨div, m8, o8, hedge, hw, hbetter⟩
    rcases solve_cases lim target.toNat with ⟨s, hs⟩ | hs
    · obtain ⟨⟨div', m8', o8', ht, rfl⟩, -, -⟩ := solve_ok htarget hs
      have h1 := (hopt _ hs).2 div m8 o8 hedge.1
      have h2 := hbetter div' m8' o8' ht
      exact absurd h1 (Nat.not_le.mpr h2)
    · exact hedom.mp hs div m8 o8 hedge.1 hw
  · intro hno
    -- a legal setting within the tolerance has a tried one as good
    have htried : ∀ div m8 o8, Legal lim div m8 o8 → Within target.toNat (achieved lim div m8 o8) →
        ∃ div' m8' o8', Tried lim target.toNat div' m8' o8' ∧
          freqErr target.toNat (achieved lim div' m8' o8') ≤ freqErr target.toNat (achieved lim div m8 o8) := by
      intro div m8 o8 hl hw
      obtain ⟨m, ht | hedge, hle⟩ := dominated target.toNat hl
      · exact ⟨div, m, o8, ht, hle⟩
      · by_contra hc
        push Not at hc
        refine hno ⟨div, m, o8, hedge, ?_, fun div' m8' o8' ht => lt_of_le_of_lt hle (hc div' m8' o8' ht)⟩
        exact (Nat.mul_le_mul_right _ hle).trans hw
    refine ⟨?_, fun s hs => ?_⟩
    · rw [solve_error_iff htarget]
      refine ⟨fun h div m8 o8 hl hw => ?_, fun h div m8 o8 ht => h div m8 o8 ht.1⟩
      obtain ⟨div', m8', o8', ht, hle⟩ := htried div m8 o8 hl hw
      exact h div' m8' o8' ht ((Nat.mul_le_mul_right _ hle).trans hw)
    · obtain ⟨⟨div, m8, o8, ht, rfl⟩, hw, hbest⟩ := solve_ok htarget hs
      refine ⟨⟨div, m8, o8, ht.1, rfl⟩, fun div' m8' o8' hl => ?_⟩
      by_cases hw' : Within target.toNat (achieved lim div' m8' o8')
      · obtain ⟨div'', m8'', o8'', ht', hle⟩ := htried div' m8' o8' hl hw'
        exact (hbest div'' m8'' o8'' ht').trans hle
      · unfold Within at hw hw'
        omega

/-! ## Solving for an achieved frequency -/

/-- No divider pair in the windows divides the input below one step of the multiplier. -/
def FineGrid (lim : Limits) : Prop := ∀ div o8, LegalPair lim div o8 → div * o8 ≤ lim.inputHz

theorem fineGrid_of_pfdMin {lim : Limits} (h : 1024 ≤ lim.pfdMinHz) : FineGrid lim := fun div o8 hpair =>
  calc div * o8 ≤ div * lim.pfdMinHz := Nat.mul_le_mul_left _ (hpair.odiv_le.trans h)
    _ = lim.pfdMinHz * div := Nat.mul_comm ..
    _ ≤ lim.inputHz := hpair.pfd_ge

/-- A legal multiplier less than one step off the quotient is tried. -/
theorem Legal.tried_of_near {lim : Limits} {target div m8 o8 : ℕ} (h : Legal lim div m8 o8)
    (hlo : target * (div * o8) < lim.inputHz * m8 + lim.inputHz)
    (hhi : lim.inputHz * m8 < target * (div * o8) + lim.inputHz) : Tried lim target div m8 o8 := by
  have hin : 0 < lim.inputHz := by omega
  refine ⟨h, ?_⟩
  have hfloor : multFloor lim target div o8 = target * (div * o8) / lim.inputHz := by
    rw [multFloor, Nat.mul_assoc]
  rw [hfloor]
  generalize target * (div * o8) = y at hlo hhi
  have hle : y / lim.inputHz < m8 + 1 := by
    rw [Nat.div_lt_iff_lt_mul hin, Nat.add_mul, Nat.one_mul, Nat.mul_comm m8]
    exact hlo
  have hge : m8 < y / lim.inputHz + 2 := by
    have hy : y < lim.inputHz * (y / lim.inputHz + 1) := Nat.lt_mul_div_succ y hin
    by_contra hc
    have hmul : lim.inputHz * (y / lim.inputHz + 1 + 1) ≤ lim.inputHz * m8 := Nat.mul_le_mul_left _ (by omega)
    rw [Nat.mul_add, Nat.mul_one] at hmul
    omega
  omega

/-- A multiplier is tried again for the frequency it achieves. -/
theorem Legal.tried_achieved {lim : Limits} {div m8 o8 : ℕ} (h : Legal lim div m8 o8)
    (hfine : div * o8 ≤ lim.inputHz) :
    Tried lim (achieved lim div m8 o8) div m8 o8 := by
  have hpos := h.prod_pos
  -- rounding the frequency loses less than `div * o8`, at most one step of the multiplier
  have hlo : lim.inputHz * m8 < achieved lim div m8 o8 * (div * o8) + div * o8 := Nat.lt_div_mul_add hpos
  have hhi : achieved lim div m8 o8 * (div * o8) ≤ lim.inputHz * m8 := Nat.div_mul_le_self ..
  exact h.tried_of_near (by omega) (by omega)

/-- A target that a tried setting hits is hit. -/
theorem solve_exact {lim : Limits} {target : ℕ} (htarget : target < 2 ^ 32) {div m8 o8 : ℕ}
    (ht : Tried lim target div m8 o8) (ha : achieved lim div m8 o8 = target) :
    ∃ s, solve lim target = .ok s ∧ s.achievedHz = target := by
  have hzero : freqErr target (achieved lim div m8 o8) = 0 := by simp [freqErr, ha]
  rcases solve_cases lim target with ⟨s, hs⟩ | herr
  · refine ⟨s, hs, ?_⟩
    have hle := (solve_ok htarget hs).2.2 div m8 o8 ht
    rw [hzero] at hle
    unfold freqErr at hle
    split_ifs at hle <;> omega
  · exact absurd (by rw [Within, hzero]; omega) ((solve_error_iff htarget).mp herr div m8 o8 ht)

/-- The only setting tried is found. -/
theorem solve_unique {lim : Limits} {target : ℕ} (htarget : target < 2 ^ 32) {div m8 o8 : ℕ}
    (ht : Tried lim target div m8 o8) (hw : Within target (achieved lim div m8 o8))
    (huniq : ∀ div' m8' o8', Tried lim target div' m8' o8' → div' = div ∧ m8' = m8 ∧ o8' = o8) :
    solve lim target = .ok (settingOf lim div m8 o8) := by
  rcases solve_cases lim target with ⟨s, hs⟩ | herr
  · obtain ⟨⟨div', m8', o8', ht', rfl⟩, -, -⟩ := solve_ok htarget hs
    obtain ⟨rfl, rfl, rfl⟩ := huniq div' m8' o8' ht'
    exact hs
  · exact absurd hw ((solve_error_iff htarget).mp herr div m8 o8 ht)

theorem solve_pos {lim : Limits} {target : ℕ} (htarget : target < 2 ^ 32) {s : Setting}
    (h : solve lim target = .ok s) :
    0 < s.achievedHz ∧ s.achievedHz < 2 ^ 32 := by
  obtain ⟨⟨div, m8, o8, ht, rfl⟩, hw, -⟩ := solve_ok htarget h
  refine ⟨?_, ht.1.achieved_lt⟩
  have htpos : 0 < target := by
    by_contra hc
    exact not_tried (Or.inr (by omega)) div m8 o8 ht
  by_contra hc
  simp only [settingOf] at hc hw
  simp only [Within, freqErr, show achieved lim div m8 o8 = 0 by omega] at hw
  rw [if_neg (by omega)] at hw
  omega

/-- **Solving for an achieved frequency** achieves it again. -/
theorem solve_achieved {lim : Limits} (hfine : FineGrid lim) {target : ℕ} (htarget : target < 2 ^ 32) {s : Setting}
    (h : solve lim target = .ok s) : ∃ s', solve lim s.achievedHz = .ok s' ∧ s'.achievedHz = s.achievedHz := by
  have hlt := (solve_pos htarget h).2
  obtain ⟨⟨div, m8, o8, ht, rfl⟩, -, -⟩ := solve_ok htarget h
  exact solve_exact hlt (ht.1.tried_achieved (hfine div o8 ht.1.toLegalPair)) rfl

/-- For 6.23 MHz the slowest VCO with the largest output divider gives 6.25 MHz, which is not tried. -/
theorem slowestOutput_not_exhaustive : ¬ Exhaustive (advertised 10000000) 6230000 := by
  have hlegal : Legal (advertised 10000000) 1 640 1024 := by decide
  have hnone : ∀ div m8 o8, ¬ Tried (advertised 10000000) 6230000 div m8 o8 := by
    rintro div m8 o8 ⟨hl, hm⟩
    have hpfd := hl.pfd_ge
    have hdiv := hl.div_pos
    have ho8 := hl.odiv_le
    have hvco := hl.vco_ge
    simp only [advertised, show (10000000 : UInt32).toNat = 10000000 from rfl] at hpfd hvco
    obtain rfl : div = 1 := by omega
    have hfloor : multFloor (advertised 10000000) 6230000 1 o8 = 6230000 * 1 * o8 / 10000000 := rfl
    omega
  rintro ⟨hedom, -⟩
  have herr := (@solve_error_iff (advertised 10000000) 6230000 (by decide)).mpr
    fun div m8 o8 ht => absurd ht (hnone div m8 o8)
  exact hedom.mp herr 1 640 1024 hlegal (by decide)

end Soceteer.Clk
