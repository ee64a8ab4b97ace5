import Soceteer.Clk.Wzrd

/-!
# Soceteer.Clk.Words — the runtime solver on machine words

`soct_clk_wzrd_solve` computes in `u32` and `u64`.  Here every operation wraps as the C does.

* `LimitWords`, `SettingWords`: the two structs.
* `Words.solve`: the search, expression by expression.
* `Words.Exact`: no expression of one divider pair wraps or is narrowed to another value (`exact_of_le`).
* `search_words`: the search on words is the search of `Clk.Wzrd`.
* `solve_sound`: what a setting that is returned satisfies.
-/

namespace Soceteer.Clk

open Scan

/-- `struct soct_clk_wzrd_limits`. -/
structure LimitWords where
  inputHz : UInt32
  vcoMinHz : UInt32
  vcoMaxHz : UInt32
  pfdMinHz : UInt32
  pfdMaxHz : UInt32

/-- The numbers of the words. -/
def LimitWords.toLimits (lim : LimitWords) : Limits :=
  ⟨lim.inputHz.toNat, lim.vcoMinHz.toNat, lim.vcoMaxHz.toNat, lim.pfdMinHz.toNat, lim.pfdMaxHz.toNat,
    lim.inputHz.toNat_lt, lim.vcoMinHz.toNat_lt, lim.vcoMaxHz.toNat_lt, lim.pfdMinHz.toNat_lt,
      lim.pfdMaxHz.toNat_lt⟩

/-- `struct soct_clk_wzrd_setting`. -/
structure SettingWords where
  div : UInt32
  multEighths : UInt32
  odivEighths : UInt32
  achievedHz : UInt32
deriving DecidableEq

def SettingWords.toSetting (s : SettingWords) : Setting :=
  ⟨s.div.toNat, s.multEighths.toNat, s.odivEighths.toNat, s.achievedHz.toNat⟩

namespace Words

/-! ## The solver -/

section Solve

variable (lim : LimitWords) (target : UInt32)

/-- `(u64)bound * div`. -/
def timesDiv (bound div : UInt32) : UInt64 := bound.toUInt64 * div.toUInt64

/-- `(u64)bound * 8 * div`. -/
def timesEightDiv (bound div : UInt32) : UInt64 := bound.toUInt64 * 8 * div.toUInt64

/-- `div64_u64((u64)target_hz * div * o8, lim->input_hz)`. -/
def quotient (div o8 : UInt32) : UInt64 :=
  target.toUInt64 * div.toUInt64 * o8.toUInt64 / lim.inputHz.toUInt64

/-- `lim->input_hz * m8`. -/
def product (m8 : UInt64) : UInt64 := lim.inputHz.toUInt64 * m8

/-- `div64_u64((u64)lim->input_hz * m8, (u64)div * o8)`. -/
def output (div o8 : UInt32) (m8 : UInt64) : UInt64 := product lim m8 / (div.toUInt64 * o8.toUInt64)

/-- `err`, narrowed to a `u32`. -/
def error (achieved : UInt64) : UInt32 :=
  (if achieved > target.toUInt64 then achieved - target.toUInt64 else target.toUInt64 - achieved).toUInt32

/-- The body of the loop over `i`. -/
def tryMult (div o8 : UInt32) (m8Floor : UInt64) (best : Best SettingWords UInt32) (i : UInt32) :
    Best SettingWords UInt32 :=
  let m8 := m8Floor + i.toUInt64
  if m8 < 2 * 8 ∨ m8 > 128 * 8 then best
  else if product lim m8 < timesEightDiv lim.vcoMinHz div ∨
    product lim m8 > timesEightDiv lim.vcoMaxHz div then best
  else
    let achieved := output lim div o8 m8
    let err := error target achieved
    if err < best.err then ⟨err, ⟨div, m8.toUInt32, o8, achieved.toUInt32⟩⟩ else best

/-- The body of the loop over `o8`. -/
def tryOdiv (div : UInt32) (best : Best SettingWords UInt32) (o8 : UInt32) : Best SettingWords UInt32 :=
  if o8 < 16 ∧ o8 &&& 7 ≠ 0 then best
  else ((List.range 2).map UInt32.ofNat).foldl (tryMult lim target div o8 (quotient lim target div o8)) best

/-- The body of the loop over `div`. -/
def tryDiv (best : Best SettingWords UInt32) (div : UInt32) : Best SettingWords UInt32 :=
  if timesDiv lim.pfdMinHz div > lim.inputHz.toUInt64 ∨ timesDiv lim.pfdMaxHz div < lim.inputHz.toUInt64 then best
  else ((List.range' 8 1017).map UInt32.ofNat).foldl (tryOdiv lim target div) best

def search (best : Best SettingWords UInt32) : Best SettingWords UInt32 :=
  ((List.range' 1 106).map UInt32.ofNat).foldl (tryDiv lim target) best

/-- `soct_clk_wzrd_solve`; `out` is what the caller's struct held. -/
def solve (out : SettingWords) : Except Errno SettingWords :=
  if lim.inputHz = 0 ∨ target = 0 then .error .edom
  else
    let best := search lim target ⟨0xFFFFFFFF, out⟩
    if best.err = 0xFFFFFFFF ∨ best.err.toUInt64 * 200 > target.toUInt64 then .error .edom
    else .ok best.out

end Solve

/-! ## No truncation -/

/-- The expressions of one divider pair have the values of the unbounded ones, and what is narrowed keeps its
value. -/
structure Exact (lim : LimitWords) (target div o8 : UInt32) : Prop where
  pfdMin : (timesDiv lim.pfdMinHz div).toNat = lim.pfdMinHz.toNat * div.toNat
  pfdMax : (timesDiv lim.pfdMaxHz div).toNat = lim.pfdMaxHz.toNat * div.toNat
  vcoMin : (timesEightDiv lim.vcoMinHz div).toNat = lim.vcoMinHz.toNat * 8 * div.toNat
  vcoMax : (timesEightDiv lim.vcoMaxHz div).toNat = lim.vcoMaxHz.toNat * 8 * div.toNat
  quotient : (quotient lim target div o8).toNat = target.toNat * div.toNat * o8.toNat / lim.inputHz.toNat
  next : (Words.quotient lim target div o8 + 1).toNat = target.toNat * div.toNat * o8.toNat / lim.inputHz.toNat + 1
  divisor : (div.toUInt64 * o8.toUInt64).toNat = div.toNat * o8.toNat
  product : ∀ m8 : UInt64, m8.toNat ≤ 1024 → (product lim m8).toNat = lim.inputHz.toNat * m8.toNat
  output : ∀ m8 : UInt64, m8.toNat ≤ 1024 →
    (output lim div o8 m8).toNat = lim.inputHz.toNat * m8.toNat / (div.toNat * o8.toNat)
  narrowed : ∀ m8 : UInt64, Legal lim.toLimits div.toNat m8.toNat o8.toNat →
    m8.toUInt32.toNat = m8.toNat ∧
      (Words.output lim div o8 m8).toUInt32.toNat = achieved lim.toLimits div.toNat m8.toNat o8.toNat ∧
      (error target (Words.output lim div o8 m8)).toNat =
        freqErr target.toNat (achieved lim.toLimits div.toNat m8.toNat o8.toNat)
  tolerance : ∀ err : UInt32, (err.toUInt64 * 200).toNat = err.toNat * 200

theorem toNat_mul_of_lt {a b : UInt64} (h : a.toNat * b.toNat < 2 ^ 64) : (a * b).toNat = a.toNat * b.toNat := by
  rw [UInt64.toNat_mul, Nat.mod_eq_of_lt h]

theorem timesDiv_toNat {bound div : UInt32} (hdiv : div.toNat ≤ 106) :
    (timesDiv bound div).toNat = bound.toNat * div.toNat := by
  have hlt := bound.toNat_lt
  have hmul : bound.toNat * div.toNat ≤ bound.toNat * 106 := Nat.mul_le_mul_left _ hdiv
  rw [timesDiv, toNat_mul_of_lt, UInt32.toNat_toUInt64, UInt32.toNat_toUInt64]
  rw [UInt32.toNat_toUInt64, UInt32.toNat_toUInt64]
  omega

theorem timesEightDiv_toNat {bound div : UInt32} (hdiv : div.toNat ≤ 106) :
    (timesEightDiv bound div).toNat = bound.toNat * 8 * div.toNat := by
  have hlt := bound.toNat_lt
  have hmul : bound.toNat * 8 * div.toNat ≤ bound.toNat * 8 * 106 := Nat.mul_le_mul_left _ hdiv
  have height : (bound.toUInt64 * 8).toNat = bound.toNat * 8 := by
    rw [toNat_mul_of_lt, UInt32.toNat_toUInt64]
    · rfl
    · rw [UInt32.toNat_toUInt64, show (8 : UInt64).toNat = 8 from rfl]
      omega
  rw [timesEightDiv, toNat_mul_of_lt, height, UInt32.toNat_toUInt64]
  rw [height, UInt32.toNat_toUInt64]
  omega

theorem quotient_toNat {lim : LimitWords} {target div o8 : UInt32} (hdiv : div.toNat ≤ 106)
    (ho8 : o8.toNat ≤ 1024) :
    (quotient lim target div o8).toNat = target.toNat * div.toNat * o8.toNat / lim.inputHz.toNat := by
  have hlt := target.toNat_lt
  have hmul : target.toNat * div.toNat ≤ target.toNat * 106 := Nat.mul_le_mul_left _ hdiv
  have hmul' : target.toNat * div.toNat * o8.toNat ≤ target.toNat * 106 * 1024 := Nat.mul_le_mul hmul ho8
  have htd : (target.toUInt64 * div.toUInt64).toNat = target.toNat * div.toNat := timesDiv_toNat hdiv
  rw [quotient, UInt64.toNat_div, toNat_mul_of_lt, htd, UInt32.toNat_toUInt64, UInt32.toNat_toUInt64]
  rw [htd, UInt32.toNat_toUInt64]
  omega

theorem quotient_lt {lim : LimitWords} {target div o8 : UInt32} (hdiv : div.toNat ≤ 106) (ho8 : o8.toNat ≤ 1024) :
    (quotient lim target div o8).toNat < 2 ^ 50 := by
  have hlt := target.toNat_lt
  have hmul : target.toNat * div.toNat * o8.toNat ≤ target.toNat * 106 * 1024 :=
    Nat.mul_le_mul (Nat.mul_le_mul_left _ hdiv) ho8
  rw [quotient_toNat hdiv ho8]
  refine lt_of_le_of_lt (Nat.div_le_self _ _) ?_
  omega

theorem divisor_toNat {div o8 : UInt32} : (div.toUInt64 * o8.toUInt64).toNat = div.toNat * o8.toNat := by
  have hmul : div.toNat * o8.toNat < 2 ^ 32 * 2 ^ 32 := Nat.mul_lt_mul'' div.toNat_lt o8.toNat_lt
  rw [toNat_mul_of_lt, UInt32.toNat_toUInt64, UInt32.toNat_toUInt64]
  rw [UInt32.toNat_toUInt64, UInt32.toNat_toUInt64]
  omega

theorem product_toNat {lim : LimitWords} {m8 : UInt64} (hm8 : m8.toNat ≤ 1024) :
    (product lim m8).toNat = lim.inputHz.toNat * m8.toNat := by
  have hlt := lim.inputHz.toNat_lt
  have hmul : lim.inputHz.toNat * m8.toNat ≤ lim.inputHz.toNat * 1024 := Nat.mul_le_mul_left _ hm8
  rw [product, toNat_mul_of_lt, UInt32.toNat_toUInt64]
  rw [UInt32.toNat_toUInt64]
  omega

theorem output_toNat {lim : LimitWords} {div o8 : UInt32} {m8 : UInt64} (hm8 : m8.toNat ≤ 1024) :
    (output lim div o8 m8).toNat = lim.inputHz.toNat * m8.toNat / (div.toNat * o8.toNat) := by
  rw [output, UInt64.toNat_div, product_toNat hm8, divisor_toNat]

theorem error_toNat (target : UInt32) (f : UInt64) :
    (error target f).toNat = freqErr target.toNat f.toNat % 2 ^ 32 := by
  have htarget : target.toUInt64.toNat = target.toNat := UInt32.toNat_toUInt64 target
  have hlt := f.toNat_lt
  have hlt' := target.toUInt64.toNat_lt
  unfold error freqErr
  rw [UInt64.toNat_toUInt32]
  by_cases h : f > target.toUInt64
  · have hle := UInt64.lt_iff_toNat_lt.mp h
    rw [if_pos h, if_pos (by omega), UInt64.toNat_sub_of_le _ _ (UInt64.le_iff_toNat_le.mpr (by omega)), htarget]
  · have hle : ¬ target.toUInt64.toNat < f.toNat := fun hc => h (UInt64.lt_iff_toNat_lt.mpr hc)
    rw [if_neg h, if_neg (by omega), UInt64.toNat_sub_of_le _ _ (UInt64.le_iff_toNat_le.mpr (by omega)), htarget]

theorem tolerance_toNat (err : UInt32) : (err.toUInt64 * 200).toNat = err.toNat * 200 := by
  have hlt := err.toNat_lt
  rw [toNat_mul_of_lt, UInt32.toNat_toUInt64, show (200 : UInt64).toNat = 200 from rfl]
  rw [UInt32.toNat_toUInt64, show (200 : UInt64).toNat = 200 from rfl]
  omega

/-- **Nothing is truncated**, for any limits and any target. -/
theorem exact_of_le (lim : LimitWords) (target : UInt32) {div o8 : UInt32} (hdiv : div.toNat ≤ 106)
    (ho8 : o8.toNat ≤ 1024) : Exact lim target div o8 where
  pfdMin := timesDiv_toNat hdiv
  pfdMax := timesDiv_toNat hdiv
  vcoMin := timesEightDiv_toNat hdiv
  vcoMax := timesEightDiv_toNat hdiv
  quotient := quotient_toNat hdiv ho8
  next := by
    have hlt := @quotient_lt lim target div o8 hdiv ho8
    rw [UInt64.toNat_add, ← quotient_toNat hdiv ho8, show (1 : UInt64).toNat = 1 from rfl]
    omega
  divisor := divisor_toNat
  product := fun _ hm8 => product_toNat hm8
  output := fun _ hm8 => output_toNat hm8
  narrowed := fun m8 hl => by
    have hle := hl.mult_le
    have ha := hl.achieved_lt
    have hout : (Words.output lim div o8 m8).toNat = achieved lim.toLimits div.toNat m8.toNat o8.toNat :=
      output_toNat hl.mult_le
    refine ⟨?_, ?_, ?_⟩
    · rw [UInt64.toNat_toUInt32]
      omega
    · rw [UInt64.toNat_toUInt32, hout, Nat.mod_eq_of_lt ha]
    · rw [error_toNat, hout, Nat.mod_eq_of_lt (freqErr_lt target.toNat_lt ha)]
  tolerance := tolerance_toNat

/-! ## The search on words -/

/-- The numbers of the best candidate so far. -/
def bestOf (b : Best SettingWords UInt32) : Best Setting ℕ := ⟨b.err.toNat, b.out.toSetting⟩

section Search

variable {lim : LimitWords} {target : UInt32}

theorem bestOf_tryMult {div o8 : UInt32} (hdiv : div.toNat ≤ 106) (ho8 : o8.toNat ≤ 1024)
    (b : Best SettingWords UInt32) {i : UInt32} (hi : i.toNat < 2) :
    bestOf (tryMult lim target div o8 (quotient lim target div o8) b i) =
      Clk.tryMult lim.toLimits target.toNat div.toNat o8.toNat
        (target.toNat * div.toNat * o8.toNat / lim.inputHz.toNat) (bestOf b) i.toNat := by
  have hq := @quotient_toNat lim target div o8 hdiv ho8
  have hlt := @quotient_lt lim target div o8 hdiv ho8
  have hm8 : (quotient lim target div o8 + i.toUInt64).toNat =
      target.toNat * div.toNat * o8.toNat / lim.inputHz.toNat + i.toNat := by
    rw [UInt64.toNat_add, UInt32.toNat_toUInt64, hq, Nat.mod_eq_of_lt]
    omega
  unfold tryMult Clk.tryMult
  dsimp only
  rw [← hm8]
  generalize quotient lim target div o8 + i.toUInt64 = m8
  have hrange : (m8 < 2 * 8 ∨ m8 > 128 * 8) ↔ (m8.toNat < 2 * 8 ∨ m8.toNat > 128 * 8) := by
    rw [UInt64.lt_iff_toNat_lt, gt_iff_lt, UInt64.lt_iff_toNat_lt]
    exact Iff.rfl
  by_cases h : m8 < 2 * 8 ∨ m8 > 128 * 8
  · rw [if_pos h, if_pos (hrange.mp h)]
  · have h' : ¬ (m8.toNat < 2 * 8 ∨ m8.toNat > 128 * 8) := fun hc => h (hrange.mpr hc)
    have hle : m8.toNat ≤ 1024 := by omega
    have hvco :
      (product lim m8 < timesEightDiv lim.vcoMinHz div ∨ product lim m8 > timesEightDiv lim.vcoMaxHz div) ↔
        (lim.inputHz.toNat * m8.toNat < lim.vcoMinHz.toNat * 8 * div.toNat ∨
          lim.inputHz.toNat * m8.toNat > lim.vcoMaxHz.toNat * 8 * div.toNat) := by
      rw [UInt64.lt_iff_toNat_lt, gt_iff_lt, UInt64.lt_iff_toNat_lt, product_toNat hle, timesEightDiv_toNat hdiv,
        timesEightDiv_toNat hdiv]
    rw [if_neg h, if_neg h']
    by_cases hv : product lim m8 < timesEightDiv lim.vcoMinHz div ∨ product lim m8 > timesEightDiv lim.vcoMaxHz div
    · rw [if_pos hv]
      exact (if_pos (hvco.mp hv)).symm
    · rw [if_neg hv]
      refine Eq.trans ?_ (if_neg fun hc => hv (hvco.mpr hc)).symm
      have herr := error_toNat target (output lim div o8 m8)
      rw [output_toNat hle] at herr
      by_cases hkeep : error target (output lim div o8 m8) < b.err
      · rw [if_pos hkeep]
        have hkeep' := UInt32.lt_iff_toNat_lt.mp hkeep
        rw [herr] at hkeep'
        refine Eq.trans ?_ (if_pos hkeep').symm
        simp only [bestOf, SettingWords.toSetting, UInt64.toNat_toUInt32, herr, output_toNat hle]
        rfl
      · rw [if_neg hkeep]
        refine (if_neg fun hc => hkeep (UInt32.lt_iff_toNat_lt.mpr ?_)).symm
        rw [herr]
        exact hc

theorem bestOf_tryOdiv {div o8 : UInt32} (hdiv : div.toNat ≤ 106) (ho8 : o8.toNat ≤ 1024)
    (b : Best SettingWords UInt32) :
    bestOf (tryOdiv lim target div b o8) = Clk.tryOdiv lim.toLimits target.toNat div.toNat
      (bestOf b) o8.toNat := by
  have hwhole : (o8 < 16 ∧ o8 &&& 7 ≠ 0) ↔ (o8.toNat < 16 ∧ o8.toNat % 8 ≠ 0) := by
    rw [UInt32.lt_iff_toNat_lt, Ne, ← UInt32.toNat_inj, UInt32.toNat_and]
    rw [show (7 : UInt32).toNat = 2 ^ 3 - 1 from rfl, Nat.and_two_pow_sub_one_eq_mod]
    exact Iff.rfl
  unfold tryOdiv Clk.tryOdiv
  by_cases h : o8 < 16 ∧ o8 &&& 7 ≠ 0
  · rw [if_pos h, if_pos (hwhole.mp h)]
  · rw [if_neg h, if_neg fun hc => h (hwhole.mpr hc)]
    refine enc_foldl bestOf UInt32.ofNat b fun b i hi => ?_
    have hi := List.mem_range.mp hi
    have hval : (UInt32.ofNat i).toNat = i := UInt32.toNat_ofNat_of_lt' (by rw [UInt32.size]; omega)
    have h := @bestOf_tryMult lim target _ _ hdiv ho8 b (UInt32.ofNat i) (by omega)
    rw [h, hval]
    rfl

theorem bestOf_tryDiv {div : UInt32} (hdiv : div.toNat ≤ 106) (b : Best SettingWords UInt32) :
    bestOf (tryDiv lim target b div) = Clk.tryDiv lim.toLimits target.toNat (bestOf b) div.toNat := by
  have hpfd :
    (timesDiv lim.pfdMinHz div > lim.inputHz.toUInt64 ∨ timesDiv lim.pfdMaxHz div < lim.inputHz.toUInt64) ↔
      (lim.pfdMinHz.toNat * div.toNat > lim.inputHz.toNat ∨
        lim.pfdMaxHz.toNat * div.toNat < lim.inputHz.toNat) := by
    rw [gt_iff_lt, UInt64.lt_iff_toNat_lt, UInt64.lt_iff_toNat_lt, timesDiv_toNat hdiv, timesDiv_toNat hdiv,
      UInt32.toNat_toUInt64]
  unfold tryDiv Clk.tryDiv
  by_cases h : timesDiv lim.pfdMinHz div > lim.inputHz.toUInt64 ∨ timesDiv lim.pfdMaxHz div < lim.inputHz.toUInt64
  · rw [if_pos h]
    exact (if_pos (hpfd.mp h)).symm
  · rw [if_neg h]
    refine Eq.trans ?_ (if_neg fun hc => h (hpfd.mpr hc)).symm
    refine enc_foldl bestOf UInt32.ofNat b fun b o8 ho8 => ?_
    have ho8 := List.mem_range'_1.mp ho8
    have hval : (UInt32.ofNat o8).toNat = o8 := UInt32.toNat_ofNat_of_lt' (by rw [UInt32.size]; omega)
    rw [bestOf_tryOdiv hdiv (by omega), hval]

/-- **The search on words** is the search on numbers. -/
theorem search_words (b : Best SettingWords UInt32) :
    bestOf (search lim target b) = Clk.search lim.toLimits target.toNat (bestOf b) := by
  refine enc_foldl bestOf UInt32.ofNat b fun b div hdiv => ?_
  have hdiv := List.mem_range'_1.mp hdiv
  have hval : (UInt32.ofNat div).toNat = div := UInt32.toNat_ofNat_of_lt' (by rw [UInt32.size]; omega)
  rw [bestOf_tryDiv (by omega), hval]

end Search

/-- What a returned setting satisfies. -/
structure Sound (lim : LimitWords) (target : UInt32) (s : SettingWords) : Prop where
  legal : Legal lim.toLimits s.div.toNat s.multEighths.toNat s.odivEighths.toNat
  achieved : s.achievedHz.toNat =
    lim.inputHz.toNat * s.multEighths.toNat / (s.div.toNat * s.odivEighths.toNat)
  within : Within target.toNat s.achievedHz.toNat
  best : ∀ div m8 o8, Tried lim.toLimits target.toNat div m8 o8 →
    freqErr target.toNat s.achievedHz.toNat ≤ freqErr target.toNat (Clk.achieved lim.toLimits div m8 o8)

/-- **The solver is sound**, and nothing is truncated on the way. -/
theorem solve_sound (lim : LimitWords) (target : UInt32) (out s : SettingWords)
    (h : solve lim target out = .ok s) :
    Sound lim target s ∧
      ∀ div o8 : UInt32, 1 ≤ div.toNat → div.toNat ≤ 106 → 8 ≤ o8.toNat → o8.toNat ≤ 1024 →
        Exact lim target div o8 := by
  refine ⟨?_, fun div o8 _ hdiv _ ho8 => exact_of_le lim target hdiv ho8⟩
  have hscan := @scans_search lim.toLimits target.toNat target.toNat_lt
  unfold solve at h
  split_ifs at h
  dsimp only at h
  split_ifs at h with hfound
  cases h
  push Not at hfound
  have hwords := @search_words lim target ⟨0xFFFFFFFF, out⟩
  generalize search lim target ⟨0xFFFFFFFF, out⟩ = best at hfound hwords ⊢
  have hstart : bestOf ⟨0xFFFFFFFF, out⟩ = ⟨u32Max, out.toSetting⟩ := rfl
  rw [hstart] at hwords
  have hmax : (bestOf best).err ≠ u32Max := fun hc => hfound.1 (UInt32.toNat_inj.mp hc)
  rw [hwords] at hmax
  obtain ⟨⟨div, m8, o8, ht, hset⟩, herr⟩ := hscan.mem_of (p := fun e => e ≠ u32Max) (by simp) hmax
  rw [← hwords] at hset herr
  have htol := UInt64.le_iff_toNat_le.mp (UInt64.not_lt.mp hfound.2)
  rw [tolerance_toNat, UInt32.toNat_toUInt64] at htol
  have herr : best.err.toNat = freqErr target.toNat best.out.achievedHz.toNat := herr
  obtain ⟨hd, hm, ho, ha⟩ := Setting.mk.injEq .. ▸ hset
  subst hd hm ho
  refine ⟨ht.1, ha, ?_, fun div' m8' o8' ht' => ?_⟩
  · rw [Within, ← herr]
    exact htol
  · have hle := hscan.le_of_mem ⟨u32Max, out.toSetting⟩ _ ⟨div', m8', o8', ht', rfl⟩
    rw [← hwords] at hle
    rw [← herr]
    exact hle

/-- 800 MHz out of 10 MHz, at the slow end of the VCO window. -/
theorem slowVco_sound : solve ⟨10000000, 800000000, 1600000000, 10000000, 500000000⟩ 800000000 ⟨0, 0, 0, 0⟩ =
      .ok ⟨1, 640, 8, 800000000⟩ ∧
    Sound ⟨10000000, 800000000, 1600000000, 10000000, 500000000⟩ 800000000 ⟨1, 640, 8, 800000000⟩ :=
  have h : solve ⟨10000000, 800000000, 1600000000, 10000000, 500000000⟩ 800000000 ⟨0, 0, 0, 0⟩ =
      .ok ⟨1, 640, 8, 800000000⟩ := by decide +kernel
  ⟨h, (solve_sound _ _ _ _ h).1⟩

end Words

end Soceteer.Clk
