import Mathlib.Algebra.Order.Field.Rat
import Mathlib.Data.Rat.Floor
import Mathlib.Tactic.FieldSimp
import Mathlib.Tactic.Linarith
import Mathlib.Tactic.NormNum
import Soceteer.Clk.Rest

/-!
# Soceteer.Clk.Mmcm — the generator's MMCM solver, and the runtime solver against it

`MmcmSolver.solve` is the search that fixes the synthesized clock.  Its `Double`s are read as exact rationals.  The
runtime solver of `Clk.Wzrd` is meant to accept the same targets.

* `MmcmSolver.solve`: the search; it tries the multipliers rounded down and up, and measures the exact error.
* `MmcmSolver.Tried`: what it looks at (`MmcmSolver.scans_search`); `STried`, for whole frequencies; the runtime
  solver tries one multiplier more where the quotient is whole (`tried_iff`).
* `freqErr_sub_exactErr`: the error of a rounded frequency is less than 1 Hz off the exact one.
* `agree_iff_tried`: over what the two look at, the three ways to disagree.
* `Matched`, `Clear`, `LowStrip`, `HighStrip`: the same in what the quotients leave; `solvers_agree_iff`.
-/

namespace Soceteer.Clk

open Scan

namespace MmcmSolver

/-! ## The generator's solver -/

/-- `MmcmSetting`. -/
structure MmcmSetting where
  div : ℕ
  multEighths : ℤ
  odivEighths : ℕ
  achieved : ℚ
deriving DecidableEq

def VcoMin : ℚ := 800000000
def VcoMax : ℚ := 1600000000
def PfdMin : ℚ := 10000000
def PfdMax : ℚ := 500000000

/-- `Double.MaxValue`. -/
def doubleMax : ℚ := (2 ^ 53 - 1) * 2 ^ 971

/-- `toInt` of a whole `Double`: it saturates. -/
def toInt (x : ℤ) : ℤ := max (-2147483648) (min 2147483647 x)

/-- What the `VivadoDesignException` of `solve` reports. -/
structure NoSetting where
  target : ℚ
  input : ℚ
  tolerance : ℚ
  closest : Option ℚ

section Solve

variable (inHz targetHz : ℚ)

/-- The body of the `foreach` over the multipliers. -/
def tryMult (div odivEighths : ℕ) (best : Best (Option MmcmSetting) ℚ) (multEighths : ℤ) :
    Best (Option MmcmSetting) ℚ :=
  let odiv : ℚ := odivEighths / 8
  if multEighths ≥ 2 * 8 ∧ multEighths ≤ 128 * 8 then
    let mult : ℚ := multEighths / 8
    let vco := inHz * mult / div
    if vco ≥ VcoMin ∧ vco ≤ VcoMax then
      let achieved := vco / odiv
      let err := |achieved - targetHz| / targetHz
      if err < best.err then ⟨err, some ⟨div, multEighths, odivEighths, achieved⟩⟩ else best
    else best
  else best

/-- The body of the loop over `odivEighths`. -/
def tryOdiv (div : ℕ) (best : Best (Option MmcmSetting) ℚ) (odivEighths : ℕ) : Best (Option MmcmSetting) ℚ :=
  if odivEighths ≥ 16 ∨ odivEighths % 8 = 0 then
    let odiv : ℚ := odivEighths / 8
    let exactMult := targetHz * div * odiv / inHz
    [toInt ⌊exactMult * 8⌋, toInt ⌈exactMult * 8⌉].foldl (tryMult inHz targetHz div odivEighths) best
  else best

/-- The body of the loop over `div`. -/
def tryDiv (best : Best (Option MmcmSetting) ℚ) (div : ℕ) : Best (Option MmcmSetting) ℚ :=
  let pfd := inHz / div
  if pfd ≥ PfdMin ∧ pfd ≤ PfdMax then (List.range' 8 1017).foldl (tryOdiv inHz targetHz div) best
  else best

def search (best : Best (Option MmcmSetting) ℚ) : Best (Option MmcmSetting) ℚ :=
  (List.range' 1 106).foldl (tryDiv inHz targetHz) best

/-- `MmcmSolver.solve`. -/
def solve (tolerance : ℚ) : Except NoSetting MmcmSetting :=
  let best := search inHz targetHz ⟨doubleMax, none⟩
  match best.out.filter fun _ => best.err ≤ tolerance with
  | some s => .ok s
  | none => .error ⟨targetHz, inHz, tolerance, best.out.map fun _ => best.err⟩

end Solve

/-! ## What the search looks at -/

/-- The divider pairs in the windows. -/
structure LegalPair (inHz : ℚ) (div o8 : ℕ) : Prop where
  div_pos : 1 ≤ div
  div_le : div ≤ 106
  odiv_ge : 8 ≤ o8
  odiv_le : o8 ≤ 1024
  odiv_whole : 16 ≤ o8 ∨ o8 % 8 = 0
  pfd_ge : PfdMin ≤ inHz / div
  pfd_le : inHz / div ≤ PfdMax

/-- The legal settings. -/
structure Legal (inHz : ℚ) (div : ℕ) (m8 : ℤ) (o8 : ℕ) : Prop extends LegalPair inHz div o8 where
  mult_ge : 16 ≤ m8
  mult_le : m8 ≤ 1024
  vco_ge : VcoMin ≤ inHz * (m8 / 8) / div
  vco_le : inHz * (m8 / 8) / div ≤ VcoMax

/-- `input * mult / (div * odiv)`. -/
def output (inHz : ℚ) (div : ℕ) (m8 : ℤ) (o8 : ℕ) : ℚ := inHz * (m8 / 8) / (div * (o8 / 8))

/-- The multiplier that hits the target, in eighths. -/
def quotient (inHz targetHz : ℚ) (div o8 : ℕ) : ℚ := targetHz * div * (o8 / 8) / inHz * 8

/-- The settings the search looks at: the quotient rounded down and up. -/
def Tried (inHz targetHz : ℚ) (div : ℕ) (m8 : ℤ) (o8 : ℕ) : Prop :=
  Legal inHz div m8 o8 ∧ (m8 = ⌊quotient inHz targetHz div o8⌋ ∨ m8 = ⌈quotient inHz targetHz div o8⌉)

/-- The setting of a choice of dividers and multiplier. -/
def settingOf (inHz : ℚ) (div : ℕ) (m8 : ℤ) (o8 : ℕ) : MmcmSetting := ⟨div, m8, o8, output inHz div m8 o8⟩

/-- Relative distance from the target. -/
def relErr (targetHz f : ℚ) : ℚ := |f - targetHz| / targetHz

/-- The error the search measures. -/
def bestErr (targetHz : ℚ) : Option MmcmSetting → ℚ
  | some s => relErr targetHz s.achieved
  | none => 0

section Search

variable {inHz targetHz : ℚ}

theorem vco_div_odiv (inHz : ℚ) (div : ℕ) (m8 : ℤ) (o8 : ℕ) :
    inHz * (m8 / 8) / div / (o8 / 8) = output inHz div m8 o8 := by
  rw [output, div_div]

theorem scans_tryMult {div o8 : ℕ} (hpair : LegalPair inHz div o8) (m8 : ℤ) :
    Scans (bestErr targetHz) {o | Legal inHz div m8 o8 ∧ o = some (settingOf inHz div m8 o8)}
      (fun b => tryMult inHz targetHz div o8 b m8) := by
  by_cases hl : Legal inHz div m8 o8
  · have hm : m8 ≥ 2 * 8 ∧ m8 ≤ 128 * 8 := ⟨by have := hl.mult_ge; omega, by have := hl.mult_le; omega⟩
    dsimp only [tryMult]
    simp only [if_pos hm, if_pos (And.intro hl.vco_ge.ge hl.vco_le), vco_div_odiv]
    refine (Scans.keep (some (settingOf inHz div m8 o8))).congr ?_
    ext o
    rw [Set.mem_singleton_iff]
    exact ⟨fun ho => ⟨hl, ho⟩, fun ho => ho.2⟩
  · have hempty : ∅ = {o | Legal inHz div m8 o8 ∧ o = some (settingOf inHz div m8 o8)} :=
      (Set.eq_empty_of_forall_notMem fun o ho => hl ho.1).symm
    refine Scans.congr ?_ hempty
    dsimp only [tryMult]
    by_cases hm : m8 ≥ 2 * 8 ∧ m8 ≤ 128 * 8
    · have hno : ¬ (inHz * (m8 / 8) / div ≥ VcoMin ∧ inHz * (m8 / 8) / div ≤ VcoMax) := fun hc =>
        hl ⟨hpair, by omega, by omega, hc.1, hc.2⟩
      simp only [if_neg hno, ite_self]
      exact Scans.skip
    · simp only [if_neg hm]
      exact Scans.skip

theorem toInt_eq_iff {z m8 : ℤ} (h : 16 ≤ m8 ∧ m8 ≤ 1024) : toInt z = m8 ↔ z = m8 := by
  unfold toInt
  omega

theorem scans_tryOdiv {div o8 : ℕ} (hdiv : 1 ≤ div ∧ div ≤ 106) (ho8 : 8 ≤ o8 ∧ o8 ≤ 1024)
    (hpfd : PfdMin ≤ inHz / div ∧ inHz / div ≤ PfdMax) :
    Scans (bestErr targetHz) {o | ∃ m8, Tried inHz targetHz div m8 o8 ∧ o = some (settingOf inHz div m8 o8)}
      (fun b => tryOdiv inHz targetHz div b o8) := by
  unfold tryOdiv
  by_cases hwhole : o8 ≥ 16 ∨ o8 % 8 = 0
  · have hpair : LegalPair inHz div o8 := ⟨hdiv.1, hdiv.2, ho8.1, ho8.2, hwhole, hpfd.1, hpfd.2⟩
    simp only [if_pos hwhole]
    refine (Scans.foldl fun m8 _ => scans_tryMult hpair m8).congr ?_
    ext o
    constructor
    · rintro ⟨m8, hm, hl, rfl⟩
      have hm8 : 16 ≤ m8 ∧ m8 ≤ 1024 := ⟨hl.mult_ge, hl.mult_le⟩
      simp only [List.mem_cons, List.not_mem_nil, or_false] at hm
      refine ⟨m8, ⟨hl, hm.imp (fun hm => ?_) fun hm => ?_⟩, rfl⟩
      · exact ((toInt_eq_iff hm8).mp hm.symm).symm
      · exact ((toInt_eq_iff hm8).mp hm.symm).symm
    · rintro ⟨m8, ⟨hl, hm⟩, rfl⟩
      have hm8 : 16 ≤ m8 ∧ m8 ≤ 1024 := ⟨hl.mult_ge, hl.mult_le⟩
      refine ⟨m8, ?_, hl, rfl⟩
      simp only [List.mem_cons, List.not_mem_nil, or_false]
      refine hm.imp (fun hm => ?_) fun hm => ?_
      · exact ((toInt_eq_iff hm8).mpr hm.symm).symm
      · exact ((toInt_eq_iff hm8).mpr hm.symm).symm
  · simp only [if_neg hwhole]
    refine Scans.skip.congr (Set.eq_empty_of_forall_notMem fun o ho => ?_).symm
    obtain ⟨m8, h, -⟩ := ho
    exact hwhole h.1.odiv_whole

theorem scans_tryDiv {div : ℕ} (hdiv : 1 ≤ div ∧ div ≤ 106) :
    Scans (bestErr targetHz) {o | ∃ m8 o8, Tried inHz targetHz div m8 o8 ∧ o = some (settingOf inHz div m8 o8)}
      (fun b => tryDiv inHz targetHz b div) := by
  unfold tryDiv
  by_cases hpfd : inHz / div ≥ PfdMin ∧ inHz / div ≤ PfdMax
  · simp only [if_pos hpfd]
    refine (Scans.foldl fun o8 ho8 => scans_tryOdiv hdiv
      (by have := List.mem_range'_1.mp ho8; omega) hpfd).congr ?_
    ext o
    constructor
    · rintro ⟨o8, -, m8, h⟩
      exact ⟨m8, o8, h⟩
    · rintro ⟨m8, o8, h, ho⟩
      have h1 := h.1.odiv_ge
      have h2 := h.1.odiv_le
      exact ⟨o8, List.mem_range'_1.mpr (by omega), m8, h, ho⟩
  · simp only [if_neg hpfd]
    refine Scans.skip.congr (Set.eq_empty_of_forall_notMem fun o ho => ?_).symm
    obtain ⟨m8, o8, h, -⟩ := ho
    exact hpfd ⟨h.1.pfd_ge, h.1.pfd_le⟩

/-- **What the search looks at.** -/
theorem scans_search : Scans (bestErr targetHz)
    {o | ∃ div m8 o8, Tried inHz targetHz div m8 o8 ∧ o = some (settingOf inHz div m8 o8)}
    (search inHz targetHz) := by
  refine (Scans.foldl fun div hdiv => scans_tryDiv (by have := List.mem_range'_1.mp hdiv; omega)).congr ?_
  ext o
  constructor
  · rintro ⟨div, -, m8, o8, h⟩
    exact ⟨div, m8, o8, h⟩
  · rintro ⟨div, m8, o8, h, ho⟩
    have h1 := h.1.div_pos
    have h2 := h.1.div_le
    exact ⟨div, List.mem_range'_1.mpr (by omega), m8, o8, h, ho⟩

theorem LegalPair.input_pos {div o8 : ℕ} (h : LegalPair inHz div o8) : 0 < inHz := by
  have hdiv : (0 : ℚ) < div := by exact_mod_cast h.div_pos
  have hpfd := h.pfd_ge
  rw [PfdMin, le_div_iff₀ hdiv] at hpfd
  linarith

theorem LegalPair.prod_pos {div o8 : ℕ} (h : LegalPair inHz div o8) : (0 : ℚ) < div * o8 := by
  have hdiv := h.div_pos
  have ho8 := h.odiv_ge
  exact_mod_cast Nat.mul_pos (by omega : 0 < div) (by omega : 0 < o8)

theorem output_eq (inHz : ℚ) (div : ℕ) (m8 : ℤ) (o8 : ℕ) : output inHz div m8 o8 = inHz * m8 / (div * o8) := by
  rw [output, ← mul_div_assoc, ← mul_div_assoc, div_div_div_cancel_right₀ (by norm_num)]

theorem quotient_eq (inHz targetHz : ℚ) (div o8 : ℕ) :
    quotient inHz targetHz div o8 = targetHz * (div * o8) / inHz := by
  rw [quotient]
  ring

/-- An output falls short of the target up to the quotient. -/
theorem output_le_iff {div o8 : ℕ} (h : LegalPair inHz div o8) (m8 : ℤ) :
    output inHz div m8 o8 ≤ targetHz ↔ (m8 : ℚ) ≤ quotient inHz targetHz div o8 := by
  rw [output_eq, quotient_eq, div_le_iff₀ h.prod_pos, le_div_iff₀ h.input_pos, mul_comm inHz]

theorem le_output_iff {div o8 : ℕ} (h : LegalPair inHz div o8) (m8 : ℤ) :
    targetHz ≤ output inHz div m8 o8 ↔ quotient inHz targetHz div o8 ≤ (m8 : ℚ) := by
  rw [output_eq, quotient_eq, le_div_iff₀ h.prod_pos, div_le_iff₀ h.input_pos, mul_comm inHz]

theorem output_mono {div o8 : ℕ} (h : LegalPair inHz div o8) {m m' : ℤ} (hle : m ≤ m') :
    output inHz div m o8 ≤ output inHz div m' o8 := by
  have hle : (m : ℚ) ≤ m' := by exact_mod_cast hle
  rw [output_eq, output_eq, div_le_div_iff_of_pos_right h.prod_pos]
  exact mul_le_mul_of_nonneg_left hle h.input_pos.le

theorem Tried.lt_quotient {div : ℕ} {m8 : ℤ} {o8 : ℕ} (h : Tried inHz targetHz div m8 o8) :
    (m8 : ℚ) - 1 < quotient inHz targetHz div o8 := by
  have h1 := Int.floor_le (quotient inHz targetHz div o8)
  have h2 := Int.ceil_lt_add_one (quotient inHz targetHz div o8)
  rcases h.2 with hm | hm <;> rw [hm] <;> linarith

theorem Tried.target_pos {div : ℕ} {m8 : ℤ} {o8 : ℕ} (h : Tried inHz targetHz div m8 o8) : 0 < targetHz := by
  have hpair := h.1.toLegalPair
  have hlt := h.lt_quotient
  have hge : (16 : ℚ) ≤ m8 := by exact_mod_cast h.1.mult_ge
  rw [quotient_eq, lt_div_iff₀ hpair.input_pos] at hlt
  have hpos : 0 < ((m8 : ℚ) - 1) * inHz := mul_pos (by linarith) hpair.input_pos
  exact pos_of_mul_pos_left (hpos.trans hlt) hpair.prod_pos.le

/-- What is tried is not far off, so its error is below the one the search starts with. -/
theorem Tried.relErr_lt {div : ℕ} {m8 : ℤ} {o8 : ℕ} (h : Tried inHz targetHz div m8 o8) :
    relErr targetHz (output inHz div m8 o8) < doubleMax := by
  have hpair := h.1.toLegalPair
  have htarget := h.target_pos
  have hceil := h.lt_quotient
  have hge : (16 : ℚ) ≤ m8 := by exact_mod_cast h.1.mult_ge
  have hle : (m8 : ℚ) ≤ 1024 := by exact_mod_cast h.1.mult_le
  have hpos : 0 ≤ output inHz div m8 o8 := by
    rw [output_eq]
    exact div_nonneg (mul_nonneg hpair.input_pos.le (by linarith)) hpair.prod_pos.le
  have hout : output inHz div m8 o8 ≤ 100 * targetHz := by
    rw [quotient_eq, lt_div_iff₀ hpair.input_pos] at hceil
    rw [output_eq, div_le_iff₀ hpair.prod_pos]
    have hfar : (m8 : ℚ) ≤ 100 * (m8 - 1) := by linarith
    have := mul_le_mul_of_nonneg_right hfar hpair.input_pos.le
    linarith
  have hmax : (200 : ℚ) < doubleMax := by
    have h971 : (1 : ℚ) ≤ 2 ^ 971 := one_le_pow₀ (by norm_num)
    unfold doubleMax
    generalize (2 : ℚ) ^ 971 = x at h971
    linarith
  refine lt_of_le_of_lt ?_ hmax
  rw [relErr, div_le_iff₀ htarget, abs_le]
  constructor <;> linarith

end Search

section Spec

variable {inHz targetHz tolerance : ℚ}

/-- The search ends with a best tried setting, unless there is none. -/
theorem search_cases :
    ((∀ div m8 o8, ¬ Tried inHz targetHz div m8 o8) ∧ (search inHz targetHz ⟨doubleMax, none⟩).out = none) ∨
      ∃ div m8 o8, Tried inHz targetHz div m8 o8 ∧
        search inHz targetHz ⟨doubleMax, none⟩ =
          ⟨relErr targetHz (output inHz div m8 o8), some (settingOf inHz div m8 o8)⟩ ∧
        ∀ div' m8' o8', Tried inHz targetHz div' m8' o8' →
          relErr targetHz (output inHz div m8 o8) ≤ relErr targetHz (output inHz div' m8' o8') := by
  have hscan := @scans_search inHz targetHz
  rcases hscan.out ⟨doubleMax, none⟩ with hstart | ⟨⟨div, m8, o8, ht, hout⟩, herr⟩
  · refine Or.inl ⟨fun div m8 o8 ht => ?_, by rw [hstart]⟩
    have hle := hscan.le_of_mem ⟨doubleMax, none⟩ _ ⟨div, m8, o8, ht, rfl⟩
    rw [hstart] at hle
    exact absurd ht.relErr_lt (not_lt.mpr hle)
  · rw [hout] at herr
    refine Or.inr ⟨div, m8, o8, ht, ?_, fun div' m8' o8' ht' => ?_⟩
    · rw [← hout, show relErr targetHz (output inHz div m8 o8) =
        bestErr targetHz (some (settingOf inHz div m8 o8)) from rfl, ← herr]
    · have hle := hscan.le_of_mem ⟨doubleMax, none⟩ _ ⟨div', m8', o8', ht', rfl⟩
      rw [herr] at hle
      exact hle

/-- A setting found is a tried one within the tolerance, and none tried is better. -/
theorem solve_ok {s : MmcmSetting} (h : solve inHz targetHz tolerance = .ok s) :
    ∃ div m8 o8, Tried inHz targetHz div m8 o8 ∧ s = settingOf inHz div m8 o8 ∧
      relErr targetHz (output inHz div m8 o8) ≤ tolerance ∧
      ∀ div' m8' o8', Tried inHz targetHz div' m8' o8' →
        relErr targetHz (output inHz div m8 o8) ≤ relErr targetHz (output inHz div' m8' o8') := by
  unfold solve at h
  dsimp only at h
  rcases @search_cases inHz targetHz with ⟨-, hout⟩ | ⟨div, m8, o8, ht, hbest, hmin⟩
  · rw [hout] at h
    cases h
  · rw [hbest, Option.filter_some] at h
    split_ifs at h with hw
    cases h
    exact ⟨div, m8, o8, ht, rfl, of_decide_eq_true hw, hmin⟩

/-- Nothing is found exactly when nothing tried is within the tolerance. -/
theorem solve_error_iff : (∃ e, solve inHz targetHz tolerance = .error e) ↔
    ∀ div m8 o8, Tried inHz targetHz div m8 o8 → ¬ relErr targetHz (output inHz div m8 o8) ≤ tolerance := by
  unfold solve
  dsimp only
  rcases @search_cases inHz targetHz with ⟨hnone, hout⟩ | ⟨div, m8, o8, ht, hbest, hmin⟩
  · rw [hout]
    exact ⟨fun _ div m8 o8 ht => absurd ht (hnone div m8 o8), fun _ => ⟨_, rfl⟩⟩
  · rw [hbest, Option.filter_some]
    constructor
    · rintro ⟨e, he⟩ div' m8' o8' ht' hw
      rw [if_pos (decide_eq_true ((hmin div' m8' o8' ht').trans hw))] at he
      cases he
    · intro h
      rw [if_neg fun hw => h div m8 o8 ht (of_decide_eq_true hw)]
      exact ⟨_, rfl⟩

end Spec

end MmcmSolver

/-! ## The generator on whole frequencies -/

/-- The exact output frequency of a setting. -/
def exactHz (lim : Limits) (div m8 o8 : ℕ) : ℚ := (lim.inputHz : ℚ) * m8 / (div * o8)

/-- The exact distance from the target. -/
def exactErr (lim : Limits) (target div m8 o8 : ℕ) : ℚ := |exactHz lim div m8 o8 - target|

/-- The settings the generator looks at: the quotient rounded down and up. -/
def STried (lim : Limits) (target div m8 o8 : ℕ) : Prop :=
  Legal lim div m8 o8 ∧ (m8 = multFloor lim target div o8 ∨
    m8 = multFloor lim target div o8 + 1 ∧ ¬ lim.inputHz ∣ target * div * o8)

/-- One above a quotient that is whole; only the runtime solver looks at it. -/
def Extra (lim : Limits) (target div m8 o8 : ℕ) : Prop :=
  Legal lim div m8 o8 ∧ m8 = multFloor lim target div o8 + 1 ∧ lim.inputHz ∣ target * div * o8

theorem tried_iff {lim : Limits} {target div m8 o8 : ℕ} :
    Tried lim target div m8 o8 ↔ STried lim target div m8 o8 ∨ Extra lim target div m8 o8 := by
  unfold Tried STried Extra
  tauto

theorem natCast_achieved (lim : Limits) (div m8 o8 : ℕ) :
    ((achieved lim div m8 o8 : ℕ) : ℚ) = (⌊exactHz lim div m8 o8⌋ : ℤ) := by
  have h := Rat.floor_natCast_div_natCast (lim.inputHz * m8) (div * o8)
  rw [exactHz, achieved]
  push_cast at h
  rw [h]
  rfl

/-- **Rounding.**  The error of the rounded frequency is less than 1 Hz off the exact error. -/
theorem freqErr_sub_exactErr (lim : Limits) (target div m8 o8 : ℕ) :
    |((freqErr target (achieved lim div m8 o8) : ℕ) : ℚ) - exactErr lim target div m8 o8| < 1 := by
  have hcast : ((freqErr target (achieved lim div m8 o8) : ℕ) : ℚ) =
      |((achieved lim div m8 o8 : ℕ) : ℚ) - target| := by
    unfold freqErr
    split_ifs with h
    · rw [Nat.cast_sub (le_of_lt h), abs_of_nonneg]
      have : ((target : ℕ) : ℚ) < (achieved lim div m8 o8 : ℕ) := by exact_mod_cast h
      linarith
    · rw [Nat.cast_sub (not_lt.mp h), abs_of_nonpos]
      · ring
      · have : ((achieved lim div m8 o8 : ℕ) : ℚ) ≤ (target : ℕ) := by exact_mod_cast not_lt.mp h
        linarith
  rw [hcast, exactErr]
  calc |(|((achieved lim div m8 o8 : ℕ) : ℚ) - target| - |exactHz lim div m8 o8 - target|)|
      ≤ |(((achieved lim div m8 o8 : ℕ) : ℚ) - target) - (exactHz lim div m8 o8 - target)| :=
        abs_abs_sub_abs_le_abs_sub ..
    _ = |((⌊exactHz lim div m8 o8⌋ : ℤ) : ℚ) - exactHz lim div m8 o8| := by rw [natCast_achieved]; ring_nf
    _ < 1 := by
      rw [abs_of_nonpos (by have := Int.floor_le (exactHz lim div m8 o8); linarith)]
      have := Int.lt_floor_add_one (exactHz lim div m8 o8)
      linarith

/-- The generator's setting of a choice of dividers and multiplier. -/
def exactSetting (lim : Limits) (div m8 o8 : ℕ) : MmcmSolver.MmcmSetting := ⟨div, m8, o8, exactHz lim div m8 o8⟩

section Search

variable {input : UInt32} {target : ℕ}

theorem pfdMin_pos (input : UInt32) : 0 < (advertised input).pfdMinHz := by
  change 0 < 10000000
  decide

theorem legalPair_iff {div o8 : ℕ} :
    MmcmSolver.LegalPair input.toNat div o8 ↔ LegalPair (advertised input) div o8 := by
  have hpfd : 1 ≤ div → ((MmcmSolver.PfdMin ≤ (input.toNat : ℚ) / div ↔ 10000000 * div ≤ input.toNat) ∧
      ((input.toNat : ℚ) / div ≤ MmcmSolver.PfdMax ↔ input.toNat ≤ 500000000 * div)) := fun hdiv => by
    have hq : (0 : ℚ) < div := by exact_mod_cast hdiv
    rw [le_div_iff₀ hq, div_le_iff₀ hq, MmcmSolver.PfdMin, MmcmSolver.PfdMax]
    exact ⟨by exact_mod_cast Iff.rfl, by exact_mod_cast Iff.rfl⟩
  constructor
  · rintro ⟨h1, h2, h3, h4, h5, h6, h7⟩
    exact ⟨h1, h2, h3, h4, by omega, (hpfd h1).1.mp h6, (hpfd h1).2.mp h7⟩
  · rintro ⟨h1, h2, h3, h4, h5, h6, h7⟩
    exact ⟨h1, h2, h3, h4, by omega, (hpfd h1).1.mpr h6, (hpfd h1).2.mpr h7⟩

theorem legal_iff {div m8 o8 : ℕ} :
    MmcmSolver.Legal input.toNat div m8 o8 ↔ Legal (advertised input) div m8 o8 := by
  have hvco : 1 ≤ div → ((MmcmSolver.VcoMin ≤ (input.toNat : ℚ) * ((m8 : ℤ) / 8) / div ↔
        800000000 * 8 * div ≤ input.toNat * m8) ∧
      ((input.toNat : ℚ) * ((m8 : ℤ) / 8) / div ≤ MmcmSolver.VcoMax ↔ input.toNat * m8 ≤ 1600000000 * 8 * div)) :=
    fun hdiv => by
      have hq : (0 : ℚ) < div := by exact_mod_cast hdiv
      have e : (input.toNat : ℚ) * (((m8 : ℤ) : ℚ) / 8) = ((input.toNat * m8 : ℕ) : ℚ) / 8 := by
        push_cast
        ring
      rw [le_div_iff₀ hq, div_le_iff₀ hq, MmcmSolver.VcoMin, MmcmSolver.VcoMax, e, ← Nat.cast_le (α := ℚ),
        ← Nat.cast_le (α := ℚ)]
      generalize input.toNat * m8 = x
      push_cast
      constructor <;> constructor <;> intro h <;> linarith
  constructor
  · rintro ⟨hpair, h1, h2, h3, h4⟩
    have hpair := legalPair_iff.mp hpair
    exact ⟨hpair, by omega, by omega, (hvco hpair.div_pos).1.mp h3, (hvco hpair.div_pos).2.mp h4⟩
  · rintro ⟨hpair, h1, h2, h3, h4⟩
    exact ⟨legalPair_iff.mpr hpair, by omega, by omega, (hvco hpair.div_pos).1.mpr h3,
      (hvco hpair.div_pos).2.mpr h4⟩

theorem output_eq_exactHz (div m8 o8 : ℕ) :
    MmcmSolver.output input.toNat div m8 o8 = exactHz (advertised input) div m8 o8 := by
  rw [MmcmSolver.output_eq, exactHz]
  rfl

theorem quotient_eq (div o8 : ℕ) : MmcmSolver.quotient input.toNat target div o8 =
    ((target * div * o8 : ℕ) : ℚ) / (input.toNat : ℕ) := by
  rw [MmcmSolver.quotient]
  push_cast
  ring

theorem floor_quotient (div o8 : ℕ) :
    ⌊MmcmSolver.quotient input.toNat target div o8⌋ = (multFloor (advertised input) target div o8 : ℕ) := by
  rw [quotient_eq, Rat.floor_natCast_div_natCast]
  rfl

theorem ceil_quotient (div o8 : ℕ) (hin : 0 < input.toNat) :
    ⌈MmcmSolver.quotient input.toNat target div o8⌉ =
      if input.toNat ∣ target * div * o8 then ((multFloor (advertised input) target div o8 : ℕ) : ℤ)
      else multFloor (advertised input) target div o8 + 1 := by
  have hfloor : multFloor (advertised input) target div o8 = target * div * o8 / input.toNat := rfl
  have hq : (0 : ℚ) < input.toNat := by exact_mod_cast hin
  rw [quotient_eq, Int.ceil_eq_iff, lt_div_iff₀ hq, div_le_iff₀ hq, hfloor]
  generalize target * div * o8 = n
  generalize input.toNat = k at hin hq
  have hdm := Nat.div_add_mod n k
  have hlt := Nat.mod_lt n hin
  have hdvd : k ∣ n ↔ n % k = 0 := Nat.dvd_iff_mod_eq_zero
  simp only [hdvd]
  generalize n / k = q at hdm ⊢
  generalize n % k = r at hdm hlt ⊢
  have hn : (n : ℚ) = k * q + r := by exact_mod_cast hdm.symm
  have hr : (r : ℚ) < k := by exact_mod_cast hlt
  rw [hn]
  split_ifs with h0
  · subst h0
    push_cast
    constructor <;> linarith
  · have hr0 : (0 : ℚ) < r := by exact_mod_cast Nat.pos_of_ne_zero h0
    push_cast
    constructor <;> linarith

theorem tried_iff_sTried {div m8 o8 : ℕ} :
    MmcmSolver.Tried input.toNat target div m8 o8 ↔ STried (advertised input) target div m8 o8 := by
  unfold MmcmSolver.Tried STried
  rw [legal_iff]
  refine and_congr_right fun hl => ?_
  have hinput : (advertised input).inputHz = input.toNat := rfl
  rw [floor_quotient, ceil_quotient div o8 (hl.input_pos (pfdMin_pos input)), hinput]
  split_ifs with hd <;> omega

end Search

/-! ## Agreement -/

/-- The exact error is within 0.5% of the target. -/
def ExactWithin (lim : Limits) (target div m8 o8 : ℕ) : Prop := exactErr lim target div m8 o8 * 200 ≤ target

section Spec

variable {input : UInt32} {target : ℕ}

theorem STried.target_pos {div m8 o8 : ℕ} (h : STried (advertised input) target div m8 o8) : 0 < target := by
  by_contra hc
  exact not_tried (Or.inr (by omega)) div m8 o8 (tried_iff.mpr (Or.inl h))

theorem relErr_le_iff {div m8 o8 : ℕ} (ht : 0 < target) :
    MmcmSolver.relErr target (MmcmSolver.output input.toNat div m8 o8) ≤ 1 / 200 ↔
      ExactWithin (advertised input) target div m8 o8 := by
  have hq : (0 : ℚ) < target := by exact_mod_cast ht
  unfold ExactWithin exactErr MmcmSolver.relErr
  rw [div_le_iff₀ hq, output_eq_exactHz]
  constructor <;> intro h <;> linarith

theorem mmcm_solve_ok {s : MmcmSolver.MmcmSetting} (h : MmcmSolver.solve input.toNat target (1 / 200) = .ok s) :
    ∃ div m8 o8, STried (advertised input) target div m8 o8 ∧ s = exactSetting (advertised input) div m8 o8 ∧
      ExactWithin (advertised input) target div m8 o8 ∧
      ∀ div' m8' o8', STried (advertised input) target div' m8' o8' →
        exactErr (advertised input) target div m8 o8 ≤ exactErr (advertised input) target div' m8' o8' := by
  obtain ⟨div, m8, o8, ht, rfl, hw, hmin⟩ := MmcmSolver.solve_ok h
  have hq := ht.target_pos
  have htpos : 0 < target := by exact_mod_cast hq
  obtain ⟨m8, rfl⟩ : ∃ m : ℕ, m8 = m := ⟨m8.toNat, by have := ht.1.mult_ge; omega⟩
  refine ⟨div, m8, o8, tried_iff_sTried.mp ht, ?_, (relErr_le_iff htpos).mp hw, fun div' m8' o8' ht' => ?_⟩
  · rw [MmcmSolver.settingOf, output_eq_exactHz, exactSetting]
  · have hle := hmin div' m8' o8' (tried_iff_sTried.mpr ht')
    rw [output_eq_exactHz, output_eq_exactHz] at hle
    exact (div_le_div_iff_of_pos_right hq).mp hle

theorem mmcm_solve_ok_iff : (∃ s, MmcmSolver.solve input.toNat target (1 / 200) = .ok s) ↔
    ∃ div m8 o8, STried (advertised input) target div m8 o8 ∧ ExactWithin (advertised input) target div m8 o8 := by
  constructor
  · rintro ⟨s, hs⟩
    obtain ⟨div, m8, o8, ht, -, hw, -⟩ := mmcm_solve_ok hs
    exact ⟨div, m8, o8, ht, hw⟩
  · rintro ⟨div, m8, o8, ht, hw⟩
    cases hs : MmcmSolver.solve input.toNat target (1 / 200) with
    | ok s => exact ⟨s, rfl⟩
    | error e =>
      have hno := MmcmSolver.solve_error_iff.mp ⟨e, hs⟩ div m8 o8 (tried_iff_sTried.mpr ht)
      exact absurd ((relErr_le_iff ht.target_pos).mpr hw) hno

theorem solve_ok_iff (htarget : target < 2 ^ 32) (lim : Limits) : (∃ s, solve lim target = .ok s) ↔
    ∃ div m8 o8, Tried lim target div m8 o8 ∧ Within target (achieved lim div m8 o8) := by
  constructor
  · rintro ⟨s, hs⟩
    obtain ⟨⟨div, m8, o8, ht, rfl⟩, hw, -⟩ := solve_ok htarget hs
    exact ⟨div, m8, o8, ht, hw⟩
  · rintro ⟨div, m8, o8, ht, hw⟩
    refine (solve_cases lim target).resolve_right fun herr => ?_
    exact (solve_error_iff htarget).mp herr div m8 o8 ht hw

end Spec

/-- The two solvers accept together, and their errors then differ by less than 1 Hz. -/
def Agree (input : UInt32) (target : ℕ) : Prop :=
  ((∃ s, solve (advertised input) target = .ok s) ↔ ∃ s, MmcmSolver.solve input.toNat target (1 / 200) = .ok s) ∧
    ∀ s s', solve (advertised input) target = .ok s → MmcmSolver.solve input.toNat target (1 / 200) = .ok s' →
      |((freqErr target s.achievedHz : ℕ) : ℚ) - (|s'.achieved - target|)| < 1

/-- The multiplier after a whole quotient is within the tolerance, and nothing the generator tries is both within
it and less than 1 Hz worse. -/
def ExtraWins (lim : Limits) (target : ℕ) : Prop :=
  ∃ div m8 o8, Extra lim target div m8 o8 ∧ Within target (achieved lim div m8 o8) ∧
    ∀ div' m8' o8', STried lim target div' m8' o8' → ExactWithin lim target div' m8' o8' →
      ((freqErr target (achieved lim div m8 o8) : ℕ) : ℚ) + 1 ≤ exactErr lim target div' m8' o8'

/-- Rounding down brings an output within the tolerance, and nothing the generator tries is. -/
def RoundedIn (lim : Limits) (target : ℕ) : Prop :=
  (∃ div m8 o8, STried lim target div m8 o8 ∧ Within target (achieved lim div m8 o8)) ∧
    ∀ div m8 o8, STried lim target div m8 o8 → ¬ ExactWithin lim target div m8 o8

/-- Rounding down takes an output out of the tolerance, and nothing the runtime solver tries is within it. -/
def RoundedOut (lim : Limits) (target : ℕ) : Prop :=
  (∃ div m8 o8, STried lim target div m8 o8 ∧ ExactWithin lim target div m8 o8) ∧
    ∀ div m8 o8, Tried lim target div m8 o8 → ¬ Within target (achieved lim div m8 o8)

theorem agree_iff_tried (input target : UInt32) :
    Agree input target.toNat ↔ ¬ ExtraWins (advertised input) target.toNat ∧
      ¬ RoundedIn (advertised input) target.toNat ∧ ¬ RoundedOut (advertised input) target.toNat := by
  have htarget : target.toNat < 2 ^ 32 := target.toNat_lt
  unfold Agree
  rw [solve_ok_iff htarget, mmcm_solve_ok_iff]
  constructor
  · rintro ⟨hiff, herr⟩
    refine ⟨?_, ?_, ?_⟩
    · rintro ⟨div, m8, o8, hx, hw, hall⟩
      have htx := tried_iff.mpr (Or.inr hx)
      obtain ⟨s, hs⟩ := (solve_ok_iff htarget _).mpr ⟨div, m8, o8, htx, hw⟩
      obtain ⟨s', hs'⟩ := mmcm_solve_ok_iff.mpr (hiff.mp ⟨div, m8, o8, htx, hw⟩)
      obtain ⟨div', m8', o8', ht', rfl, hw', -⟩ := mmcm_solve_ok hs'
      have hle : ((freqErr target.toNat s.achievedHz : ℕ) : ℚ) ≤
          (freqErr target.toNat (achieved (advertised input) div m8 o8) : ℕ) := by
        exact_mod_cast (solve_ok htarget hs).2.2 div m8 o8 htx
      have hge := hall div' m8' o8' ht' hw'
      have hlt := (abs_lt.mp (herr s _ hs hs')).1
      unfold exactErr at hge
      simp only [exactSetting] at hlt
      linarith
    · rintro ⟨⟨div, m8, o8, ht, hw⟩, hnone⟩
      obtain ⟨div', m8', o8', ht', hw'⟩ := hiff.mp ⟨div, m8, o8, tried_iff.mpr (Or.inl ht), hw⟩
      exact hnone div' m8' o8' ht' hw'
    · rintro ⟨hex, hnone⟩
      obtain ⟨div', m8', o8', ht', hw'⟩ := hiff.mpr hex
      exact hnone div' m8' o8' ht' hw'
  · rintro ⟨hextra, hin, hout⟩
    refine ⟨⟨?_, ?_⟩, ?_⟩
    · rintro ⟨div, m8, o8, ht, hw⟩
      by_contra hc
      push Not at hc
      rcases tried_iff.mp ht with ht | hx
      · exact hin ⟨⟨div, m8, o8, ht, hw⟩, hc⟩
      · exact hextra ⟨div, m8, o8, hx, hw, fun div' m8' o8' ht' hw' => absurd hw' (hc div' m8' o8' ht')⟩
    · rintro hex
      by_contra hc
      push Not at hc
      exact hout ⟨hex, hc⟩
    · intro s s' hs hs'
      obtain ⟨⟨div, m8, o8, ht, rfl⟩, hw, hbest⟩ := solve_ok htarget hs
      obtain ⟨div', m8', o8', ht', rfl, hw', hbest'⟩ := mmcm_solve_ok hs'
      rw [abs_lt]
      constructor
      · -- the generator's error is less than 1 Hz above the runtime solver's
        suffices hlt : exactErr (advertised input) target.toNat div' m8' o8' <
            ((freqErr target.toNat (achieved (advertised input) div m8 o8) : ℕ) : ℚ) + 1 by
          unfold exactErr at hlt
          simp only [exactSetting, settingOf]
          linarith
        rcases tried_iff.mp ht with hts | hx
        · have h1 := hbest' div m8 o8 hts
          have h2 := (abs_lt.mp (freqErr_sub_exactErr (advertised input) target.toNat div m8 o8)).1
          linarith
        · by_contra hc
          push Not at hc
          exact hextra ⟨div, m8, o8, hx, hw, fun div'' m8'' o8'' ht'' _ => hc.trans (hbest' div'' m8'' o8'' ht'')⟩
      · -- and the runtime solver's less than 1 Hz above the generator's
        have h1 : ((freqErr target.toNat (achieved (advertised input) div m8 o8) : ℕ) : ℚ) ≤
            (freqErr target.toNat (achieved (advertised input) div' m8' o8') : ℕ) := by
          exact_mod_cast hbest div' m8' o8' (tried_iff.mpr (Or.inl ht'))
        have h2 := (abs_lt.mp (freqErr_sub_exactErr (advertised input) target.toNat div' m8' o8')).2
        unfold exactErr at h2
        simp only [exactSetting, settingOf]
        linarith

/-! ## In remainders -/

section Remainders

variable (lim : Limits) (target : ℕ)

/-- The quotient, rounded down or up, is a legal multiplier of the pair, and lands `x / (div * o8)` Hz from the
target. -/
def Off (div o8 x : ℕ) : Prop :=
  Lower lim target div o8 ∧ x = rest lim target div o8 ∨
    Upper lim target div o8 ∧ 0 < rest lim target div o8 ∧ x = lim.inputHz - rest lim target div o8

/-- The quotient is whole, and the multiplier after it is legal and in whole hertz within 0.5%. -/
def WholeStep (div o8 : ℕ) : Prop :=
  Upper lim target div o8 ∧ rest lim target div o8 = 0 ∧ lim.inputHz < (target / 200 + 1) * (div * o8)

/-- For each of these there is a quotient that lands within 0.5% and less than 1 Hz farther off. -/
def Matched : Prop :=
  ∀ div o8, WholeStep lim target div o8 → ∃ div' o8' x, Off lim target div' o8' x ∧
    200 * x ≤ target * (div' * o8') ∧ x < (lim.inputHz / (div * o8) + 1) * (div' * o8')

/-- A quotient lands within 0.5%, exactly and in whole hertz. -/
def Clear : Prop :=
  ∃ div o8, Lower lim target div o8 ∧ rest lim target div o8 ≤ target / 200 * (div * o8) ∨
    Upper lim target div o8 ∧ 0 < rest lim target div o8 ∧
      200 * (lim.inputHz - rest lim target div o8) ≤ target * (div * o8)

/-- One lands less than 1 Hz inside the lower bound, so that rounding takes it out. -/
def LowStrip : Prop :=
  ∃ div o8, Lower lim target div o8 ∧ target / 200 * (div * o8) < rest lim target div o8 ∧
    200 * rest lim target div o8 ≤ target * (div * o8)

/-- One lands less than 1 Hz outside the upper bound, so that rounding brings it in. -/
def HighStrip : Prop :=
  ∃ div o8, Upper lim target div o8 ∧ 0 < rest lim target div o8 ∧
    target * (div * o8) < 200 * (lim.inputHz - rest lim target div o8) ∧
      lim.inputHz - rest lim target div o8 < (target / 200 + 1) * (div * o8)

end Remainders

section Remainders

variable {lim : Limits} {target div o8 : ℕ}

theorem exactErr_lower (hpos : 0 < div * o8) :
    exactErr lim target div (multFloor lim target div o8) o8 = (rest lim target div o8 : ℕ) / (div * o8) := by
  have hq : (0 : ℚ) < div * o8 := by exact_mod_cast hpos
  have hsum : (lim.inputHz : ℚ) * multFloor lim target div o8 + rest lim target div o8 = target * (div * o8) := by
    exact_mod_cast floor_add_rest lim target div o8
  have hdiff : exactHz lim div (multFloor lim target div o8) o8 - target =
      -((rest lim target div o8 : ℕ) / (div * o8)) := by
    rw [exactHz, ← neg_div, div_sub' hq.ne', div_left_inj' hq.ne']
    linarith
  rw [exactErr, hdiff, abs_neg, abs_of_nonneg (by positivity)]

theorem exactErr_upper (hin : 0 < lim.inputHz) (hpos : 0 < div * o8) :
    exactErr lim target div (multFloor lim target div o8 + 1) o8 =
      (lim.inputHz - rest lim target div o8 : ℕ) / (div * o8) := by
  have hq : (0 : ℚ) < div * o8 := by exact_mod_cast hpos
  have hlt : rest lim target div o8 < lim.inputHz := Nat.mod_lt _ hin
  have hsum : (lim.inputHz : ℚ) * multFloor lim target div o8 + rest lim target div o8 = target * (div * o8) := by
    exact_mod_cast floor_add_rest lim target div o8
  have hdiff : exactHz lim div (multFloor lim target div o8 + 1) o8 - target =
      (lim.inputHz - rest lim target div o8 : ℕ) / (div * o8) := by
    rw [exactHz, div_sub' hq.ne', div_left_inj' hq.ne', Nat.cast_sub hlt.le]
    push_cast
    linarith
  rw [exactErr, hdiff, abs_of_nonneg (by positivity)]

theorem dvd_iff_rest : lim.inputHz ∣ target * div * o8 ↔ rest lim target div o8 = 0 :=
  Nat.dvd_iff_mod_eq_zero

theorem not_dvd_iff_rest : ¬ lim.inputHz ∣ target * div * o8 ↔ 0 < rest lim target div o8 := by
  rw [dvd_iff_rest, Nat.pos_iff_ne_zero]

/-- What the generator tries for a pair, and how far off it is. -/
theorem sTried_iff_off (hin : 0 < lim.inputHz) {p : ℚ → Prop} :
    (∃ m8, STried lim target div m8 o8 ∧ p (exactErr lim target div m8 o8)) ↔
      ∃ x, Off lim target div o8 x ∧ p ((x : ℚ) / (div * o8)) := by
  constructor
  · rintro ⟨m8, ⟨hl, rfl | ⟨rfl, hd⟩⟩, hp⟩
    · rw [exactErr_lower hl.prod_pos] at hp
      exact ⟨_, .inl ⟨hl, rfl⟩, hp⟩
    · rw [exactErr_upper hin hl.prod_pos] at hp
      exact ⟨_, .inr ⟨hl, not_dvd_iff_rest.mp hd, rfl⟩, hp⟩
  · rintro ⟨x, ⟨hl, rfl⟩ | ⟨hl, hrest, rfl⟩, hp⟩
    · rw [← exactErr_lower (Legal.prod_pos hl)] at hp
      exact ⟨_, ⟨hl, .inl rfl⟩, hp⟩
    · rw [← exactErr_upper hin (Legal.prod_pos hl)] at hp
      exact ⟨_, ⟨hl, .inr ⟨rfl, not_dvd_iff_rest.mpr hrest⟩⟩, hp⟩

theorem Off.prod_pos {x : ℕ} (h : Off lim target div o8 x) : (0 : ℚ) < div * o8 := by
  rcases h with ⟨hl, -⟩ | ⟨hl, -⟩ <;> exact_mod_cast Legal.prod_pos hl

theorem within_iff {f : ℕ} : Within target f ↔ freqErr target f ≤ target / 200 :=
  (Nat.le_div_iff_mul_le (by decide)).symm

/-- Exactly within 0.5%: clear, or in the strip at the lower bound. -/
theorem off_iff :
    (∃ div o8 x, Off lim target div o8 x ∧ 200 * x ≤ target * (div * o8)) ↔ Clear lim target ∨
      LowStrip lim target := by
  constructor
  · rintro ⟨div, o8, x, ⟨hl, rfl⟩ | ⟨hl, hrest, rfl⟩, hx⟩
    · rcases le_or_gt (rest lim target div o8) (target / 200 * (div * o8)) with hle | hlt
      · exact .inl ⟨div, o8, .inl ⟨hl, hle⟩⟩
      · exact .inr ⟨div, o8, hl, hlt, hx⟩
    · exact .inl ⟨div, o8, .inr ⟨hl, hrest, hx⟩⟩
  · rintro (⟨div, o8, ⟨hl, hle⟩ | ⟨hl, hrest, hle⟩⟩ | ⟨div, o8, hl, -, hle⟩)
    · refine ⟨div, o8, _, .inl ⟨hl, rfl⟩, ?_⟩
      calc 200 * rest lim target div o8 ≤ 200 * (target / 200 * (div * o8)) := Nat.mul_le_mul_left _ hle
        _ = 200 * (target / 200) * (div * o8) := (Nat.mul_assoc ..).symm
        _ ≤ target * (div * o8) := Nat.mul_le_mul_right _ (Nat.mul_div_le ..)
    · exact ⟨div, o8, _, .inr ⟨hl, hrest, rfl⟩, hle⟩
    · exact ⟨div, o8, _, .inl ⟨hl, rfl⟩, hle⟩

theorem sTried_exactWithin_iff (hin : 0 < lim.inputHz) :
    (∃ div m8 o8, STried lim target div m8 o8 ∧ ExactWithin lim target div m8 o8) ↔
      Clear lim target ∨ LowStrip lim target := by
  have hpair : ∀ div o8, (∃ m8, STried lim target div m8 o8 ∧ ExactWithin lim target div m8 o8) ↔
      ∃ x, Off lim target div o8 x ∧ 200 * x ≤ target * (div * o8) := fun div o8 => by
    refine (sTried_iff_off (p := fun e => e * 200 ≤ target) hin).trans (exists_congr fun x =>
      and_congr_right fun hx => ?_)
    rw [div_mul_eq_mul_div, div_le_iff₀ hx.prod_pos, mul_comm]
    exact_mod_cast Iff.rfl
  rw [← off_iff]
  refine exists_congr fun div => ?_
  rw [exists_comm]
  exact exists_congr fun o8 => hpair div o8

theorem upper_within_iff (hin : 0 < lim.inputHz) (hl : Upper lim target div o8) :
    Within target (achieved lim div (multFloor lim target div o8 + 1) o8) ↔
      lim.inputHz - rest lim target div o8 < (target / 200 + 1) * (div * o8) := by
  rw [within_iff, freqErr_upper target hin (Legal.prod_pos hl), ← Nat.lt_succ_iff,
    Nat.div_lt_iff_lt_mul (Legal.prod_pos hl)]

/-- Rounding down keeps an output above the target within the tolerance. -/
theorem upper_lt_of_exact (hl : Upper lim target div o8) {x : ℕ} (h : 200 * x ≤ target * (div * o8)) :
    x < (target / 200 + 1) * (div * o8) := by
  have hlt : target < 200 * (target / 200 + 1) := Nat.lt_mul_div_succ target (by decide)
  have hmul : target * (div * o8) < 200 * (target / 200 + 1) * (div * o8) :=
    Nat.mul_lt_mul_of_pos_right hlt (Legal.prod_pos hl)
  rw [Nat.mul_assoc] at hmul
  omega

/-- In whole hertz within 0.5%, of what the generator tries: clear, or in the strip at the upper bound. -/
theorem sTried_within_iff (hin : 0 < lim.inputHz) :
    (∃ div m8 o8, STried lim target div m8 o8 ∧ Within target (achieved lim div m8 o8)) ↔
      Clear lim target ∨ HighStrip lim target := by
  constructor
  · rintro ⟨div, m8, o8, ⟨hl, rfl | ⟨rfl, hd⟩⟩, hw⟩
    · exact .inl ⟨div, o8, .inl ⟨hl, (freqErr_lower hl.prod_pos).mp (within_iff.mp hw)⟩⟩
    · rcases le_or_gt (200 * (lim.inputHz - rest lim target div o8)) (target * (div * o8)) with hle | hgt
      · exact .inl ⟨div, o8, .inr ⟨hl, not_dvd_iff_rest.mp hd, hle⟩⟩
      · exact .inr ⟨div, o8, hl, not_dvd_iff_rest.mp hd, hgt, (upper_within_iff hin hl).mp hw⟩
  · rintro (⟨div, o8, ⟨hl, hle⟩ | ⟨hl, hrest, hle⟩⟩ | ⟨div, o8, hl, hrest, -, hlt⟩)
    · exact ⟨div, _, o8, ⟨hl, .inl rfl⟩, within_iff.mpr ((freqErr_lower (Legal.prod_pos hl)).mpr hle)⟩
    · exact ⟨div, _, o8, ⟨hl, .inr ⟨rfl, not_dvd_iff_rest.mpr hrest⟩⟩,
        (upper_within_iff hin hl).mpr (upper_lt_of_exact hl hle)⟩
    · exact ⟨div, _, o8, ⟨hl, .inr ⟨rfl, not_dvd_iff_rest.mpr hrest⟩⟩, (upper_within_iff hin hl).mpr hlt⟩

theorem extra_iff (hin : 0 < lim.inputHz) {m8 : ℕ} :
    Extra lim target div m8 o8 ∧ Within target (achieved lim div m8 o8) ↔
      m8 = multFloor lim target div o8 + 1 ∧ WholeStep lim target div o8 := by
  constructor
  · rintro ⟨⟨hl, rfl, hd⟩, hw⟩
    have hlt := (upper_within_iff hin hl).mp hw
    rw [dvd_iff_rest.mp hd, Nat.sub_zero] at hlt
    exact ⟨rfl, hl, dvd_iff_rest.mp hd, hlt⟩
  · rintro ⟨rfl, hl, h0, hlt⟩
    refine ⟨⟨hl, rfl, dvd_iff_rest.mpr h0⟩, (upper_within_iff hin hl).mpr ?_⟩
    rwa [h0, Nat.sub_zero]

theorem WholeStep.freqErr (hin : 0 < lim.inputHz) (h : WholeStep lim target div o8) :
    freqErr target (achieved lim div (multFloor lim target div o8 + 1) o8) = lim.inputHz / (div * o8) := by
  rw [freqErr_upper target hin (Legal.prod_pos h.1), h.2.1, Nat.sub_zero]

theorem not_extraWins_iff (hin : 0 < lim.inputHz) : ¬ ExtraWins lim target ↔ Matched lim target := by
  -- what the generator tries within the tolerance and less than 1 Hz worse than `k` Hz
  have hoff : ∀ {div o8 k : ℕ}, (∃ m8, STried lim target div m8 o8 ∧ exactErr lim target div m8 o8 * 200 ≤ target ∧
      exactErr lim target div m8 o8 < k + 1) ↔
      ∃ x, Off lim target div o8 x ∧ 200 * x ≤ target * (div * o8) ∧ x < (k + 1) * (div * o8) :=
        fun {div o8 k} => by
    refine (sTried_iff_off (p := fun e => e * 200 ≤ target ∧ e < k + 1) hin).trans
      (exists_congr fun x => and_congr_right fun hx => ?_)
    rw [div_mul_eq_mul_div, div_le_iff₀ hx.prod_pos, div_lt_iff₀ hx.prod_pos, mul_comm]
    exact_mod_cast Iff.rfl
  constructor
  · intro hno div o8 hstep
    by_contra hc
    obtain ⟨hx, hw⟩ := (extra_iff hin).mpr ⟨rfl, hstep⟩
    refine hno ⟨div, _, o8, hx, hw, fun div' m8' o8' ht hwithin => not_lt.mp fun hlt => hc ?_⟩
    rw [hstep.freqErr hin] at hlt
    exact ⟨div', o8', hoff.mp ⟨m8', ht, hwithin, hlt⟩⟩
  · rintro hmatched ⟨div, m8, o8, hx, hw, hall⟩
    obtain ⟨rfl, hstep⟩ := (extra_iff hin).mp ⟨hx, hw⟩
    obtain ⟨div', o8', hmatch⟩ := hmatched div o8 hstep
    obtain ⟨m8', ht, hwithin, hlt⟩ := hoff.mpr hmatch
    have hge := hall div' m8' o8' ht hwithin
    rw [hstep.freqErr hin] at hge
    exact absurd hlt (not_lt.mpr hge)

end Remainders

/-- **When the two solvers agree.**  Every step after a whole quotient is matched, and either some quotient lands
clear of the bounds or the strip at the lower one is met exactly when that at the upper one is or such a step
is. -/
theorem solvers_agree_iff (input target : UInt32) :
    Agree input target.toNat ↔ Matched (advertised input) target.toNat ∧
      (Clear (advertised input) target.toNat ∨
        (LowStrip (advertised input) target.toNat ↔ HighStrip (advertised input) target.toNat ∨
          ∃ div o8, WholeStep (advertised input) target.toNat div o8)) := by
  rcases Nat.eq_zero_or_pos (advertised input).inputHz with h0 | hin
  · -- without an input no quotient is legal
    have hnone : ∀ {div m8 o8}, ¬ Legal (advertised input) div m8 o8 := fun hl => by
      have hpos := hl.input_pos (pfdMin_pos input)
      omega
    have hagree : Agree input target.toNat := (agree_iff_tried input target).mpr
      ⟨fun ⟨_, _, _, hx, _⟩ => hnone hx.1, fun ⟨⟨_, _, _, ht, _⟩, _⟩ => hnone ht.1,
        fun ⟨⟨_, _, _, ht, _⟩, _⟩ => hnone ht.1⟩
    refine iff_of_true hagree ⟨fun _ _ h => absurd h.1 hnone, .inr (iff_of_false ?_ ?_)⟩
    · exact fun ⟨_, _, hl, _⟩ => hnone hl
    · rintro (⟨_, _, hl, _⟩ | ⟨_, _, hl, _⟩) <;> exact hnone hl
  · have hexact := @sTried_exactWithin_iff (advertised input) target.toNat hin
    have hwithin := @sTried_within_iff (advertised input) target.toNat hin
    have hsplit : (∃ div m8 o8, Tried (advertised input) target.toNat div m8 o8 ∧
        Within target.toNat (achieved (advertised input) div m8 o8)) ↔
        (Clear (advertised input) target.toNat ∨ HighStrip (advertised input) target.toNat) ∨
          ∃ div o8, WholeStep (advertised input) target.toNat div o8 := by
      rw [← hwithin]
      constructor
      · rintro ⟨div, m8, o8, ht, hw⟩
        rcases tried_iff.mp ht with ht | hx
        · exact .inl ⟨div, m8, o8, ht, hw⟩
        · exact .inr ⟨div, o8, ((extra_iff hin).mp ⟨hx, hw⟩).2⟩
      · rintro (⟨div, m8, o8, ht, hw⟩ | ⟨div, o8, hstep⟩)
        · exact ⟨div, m8, o8, tried_iff.mpr (.inl ht), hw⟩
        · obtain ⟨hx, hw⟩ := (extra_iff hin).mpr ⟨rfl, hstep⟩
          exact ⟨div, _, o8, tried_iff.mpr (.inr hx), hw⟩
    have hin' : RoundedIn (advertised input) target.toNat ↔
        (Clear (advertised input) target.toNat ∨ HighStrip (advertised input) target.toNat) ∧
          ¬ (Clear (advertised input) target.toNat ∨ LowStrip (advertised input) target.toNat) := by
      rw [RoundedIn, hwithin, ← hexact]
      push Not
      rfl
    have hout : RoundedOut (advertised input) target.toNat ↔
        (Clear (advertised input) target.toNat ∨ LowStrip (advertised input) target.toNat) ∧
          ¬ ((Clear (advertised input) target.toNat ∨ HighStrip (advertised input) target.toNat) ∨
            ∃ div o8, WholeStep (advertised input) target.toNat div o8) := by
      rw [RoundedOut, hexact, ← hsplit]
      push Not
      rfl
    rw [agree_iff_tried, not_extraWins_iff hin, hin', hout]
    refine and_congr_right fun hmatched => ?_
    -- a step that is matched has a quotient exactly within the tolerance
    have hstep : (∃ div o8, WholeStep (advertised input) target.toNat div o8) →
        Clear (advertised input) target.toNat ∨ LowStrip (advertised input) target.toNat := by
      rintro ⟨div, o8, h⟩
      obtain ⟨div', o8', x, hx, hle, -⟩ := hmatched div o8 h
      exact off_iff.mp ⟨div', o8', x, hx, hle⟩
    generalize Clear (advertised input) target.toNat = clear at hstep ⊢
    generalize LowStrip (advertised input) target.toNat = low at hstep ⊢
    generalize HighStrip (advertised input) target.toNat = high
    generalize (∃ div o8, WholeStep (advertised input) target.toNat div o8) = step at hstep ⊢
    by_cases hclear : clear
    · simp [hclear]
    · by_cases hlow : low <;> by_cases hhigh : high <;> by_cases hs : step <;> simp_all

/-- At 798.75 MHz out of 10 MHz the whole multiplier 79.875 is below the VCO window and only the runtime solver
tries 80, which gives 800 MHz. -/
theorem wholeQuotient_not_agree : ¬ Agree 10000000 798750000 := by
  have hpair : ∀ div m8 o8, Legal (advertised 10000000) div m8 o8 → div = 1 := fun div m8 o8 hl => by
    have h1 := hl.pfd_ge
    have h2 := hl.div_pos
    simp only [advertised, show (10000000 : UInt32).toNat = 10000000 from rfl] at h1
    omega
  have hnone : ∀ div m8 o8, ¬ STried (advertised 10000000) 798750000 div m8 o8 := by
    rintro div m8 o8 ⟨hl, hm⟩
    obtain rfl := hpair div m8 o8 hl
    have hge := hl.mult_ge
    have hle := hl.mult_le
    have hvco := hl.vco_ge
    have ho8 := hl.odiv_ge
    have hwhole := hl.odiv_whole
    have hfloor : multFloor (advertised 10000000) 798750000 1 o8 = 798750000 * 1 * o8 / 10000000 := rfl
    have hinput : (advertised 10000000).inputHz = 10000000 := rfl
    have hmin : (advertised 10000000).vcoMinHz = 800000000 := rfl
    rw [hinput, hmin] at hvco
    rw [hinput, Nat.dvd_iff_mod_eq_zero] at hm
    omega
  have htried : Tried (advertised 10000000) 798750000 1 640 8 := by decide
  rintro ⟨hiff, -⟩
  have hok := (solve_ok_iff (by decide) (advertised 10000000)).mpr ⟨1, 640, 8, htried, by decide⟩
  obtain ⟨div, m8, o8, ht, -⟩ := mmcm_solve_ok_iff.mp (hiff.mp hok)
  exact hnone div m8 o8 ht

end Soceteer.Clk
