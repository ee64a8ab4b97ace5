import Mathlib.Data.Int.LeastGreatest
import Soceteer.Clk.Mmcm

/-!
# Soceteer.Clk.Closest — is the generator's setting the closest one

`MmcmSolver.solve` documents the closest achievable setting.  It tries two multipliers for a divider pair, so a
pair whose whole multiplier range lies beyond both is passed over.

* `dominated`: a legal setting is no better than a tried one of its pair or than the nearest end of such a range.
* `Closest`: what the documentation promises, for any input, target and tolerance.
* `closest_iff`: it is kept exactly when no end that is passed over is within the tolerance and better than
  everything tried.
-/

namespace Soceteer.Clk.MmcmSolver

section Dominated

variable {inHz targetHz : ℚ} {div o8 : ℕ}

theorem relErr_le_relErr (htarget : 0 < targetHz) {f g : ℚ} (h : |f - targetHz| ≤ |g - targetHz|) :
    relErr targetHz f ≤ relErr targetHz g :=
  (div_le_div_iff_of_pos_right htarget).mpr h

/-- Below the quotient, larger multipliers are closer. -/
theorem relErr_below (hpair : LegalPair inHz div o8) (htarget : 0 < targetHz) {m m' : ℤ} (h : m ≤ m')
    (h' : m' ≤ ⌊quotient inHz targetHz div o8⌋) :
    relErr targetHz (output inHz div m' o8) ≤ relErr targetHz (output inHz div m o8) := by
  have hle := (output_le_iff hpair m').mpr (Int.le_floor.mp h')
  have hmono := output_mono hpair h
  refine relErr_le_relErr htarget ?_
  rw [abs_of_nonpos (by linarith), abs_of_nonpos (by linarith)]
  linarith

/-- Above it, smaller ones are. -/
theorem relErr_above (hpair : LegalPair inHz div o8) (htarget : 0 < targetHz) {m m' : ℤ} (h : m ≤ m')
    (h' : ⌈quotient inHz targetHz div o8⌉ ≤ m) :
    relErr targetHz (output inHz div m o8) ≤ relErr targetHz (output inHz div m' o8) := by
  have hle := (le_output_iff hpair m).mpr (Int.ceil_le.mp h')
  have hmono := output_mono hpair h
  refine relErr_le_relErr htarget ?_
  rw [abs_of_nonneg (by linarith), abs_of_nonneg (by linarith)]
  linarith

theorem Legal.between {m₁ m m₂ : ℤ} (h₁ : Legal inHz div m₁ o8) (h₂ : Legal inHz div m₂ o8) (hle₁ : m₁ ≤ m)
    (hle₂ : m ≤ m₂) : Legal inHz div m o8 := by
  have hdiv : (0 : ℚ) < div := by exact_mod_cast h₁.div_pos
  have hmono : ∀ {a b : ℤ}, a ≤ b → inHz * (a / 8) / div ≤ inHz * (b / 8) / div := fun {a b} hab => by
    have hab : (a : ℚ) ≤ b := by exact_mod_cast hab
    rw [div_le_div_iff_of_pos_right hdiv]
    refine mul_le_mul_of_nonneg_left ?_ h₁.toLegalPair.input_pos.le
    linarith
  exact ⟨h₁.toLegalPair, h₁.mult_ge.trans hle₁, hle₂.trans h₂.mult_le, h₁.vco_ge.trans (hmono hle₁),
    (hmono hle₂).trans h₂.vco_le⟩

end Dominated

/-- All legal multipliers of the pair lie above or all lie below the two tried ones, and `m8` is the nearest. -/
def Edge (inHz targetHz : ℚ) (div : ℕ) (m8 : ℤ) (o8 : ℕ) : Prop :=
  Legal inHz div m8 o8 ∧
    ((∀ m, Legal inHz div m o8 → ⌈quotient inHz targetHz div o8⌉ < m ∧ m8 ≤ m) ∨
      ∀ m, Legal inHz div m o8 → m < ⌊quotient inHz targetHz div o8⌋ ∧ m ≤ m8)

/-- **Legal settings are dominated** by a tried setting or an end of the multiplier range of the same pair. -/
theorem dominated {inHz targetHz : ℚ} {div : ℕ} {m8 : ℤ} {o8 : ℕ} (htarget : 0 < targetHz)
    (h : Legal inHz div m8 o8) :
    ∃ m, (Tried inHz targetHz div m o8 ∨ Edge inHz targetHz div m o8) ∧
      relErr targetHz (output inHz div m o8) ≤ relErr targetHz (output inHz div m8 o8) := by
  have hpair := h.toLegalPair
  rcases le_or_gt m8 ⌊quotient inHz targetHz div o8⌋ with hle | hgt
  · by_cases hx : Legal inHz div ⌊quotient inHz targetHz div o8⌋ o8
    · exact ⟨_, Or.inl ⟨hx, Or.inl rfl⟩, relErr_below hpair htarget hle le_rfl⟩
    · -- the range ends below the quotient: take its upper end
      have hbelow : ∀ m, Legal inHz div m o8 → m < ⌊quotient inHz targetHz div o8⌋ := fun m hm => by
        by_contra hc
        exact hx (h.between hm hle (not_lt.mp hc))
      obtain ⟨m, hm, hmax⟩ := Int.exists_greatest_of_bdd (P := fun m => Legal inHz div m o8)
        ⟨1024, fun m hm => hm.mult_le⟩ ⟨m8, h⟩
      exact ⟨m, Or.inr ⟨hm, Or.inr fun m' hm' => ⟨hbelow m' hm', hmax m' hm'⟩⟩,
        relErr_below hpair htarget (hmax m8 h) (hbelow m hm).le⟩
  · have hge : ⌈quotient inHz targetHz div o8⌉ ≤ m8 := by
      rw [Int.ceil_le]
      exact (Int.floor_lt.mp hgt).le
    by_cases hx : Legal inHz div ⌈quotient inHz targetHz div o8⌉ o8
    · exact ⟨_, Or.inl ⟨hx, Or.inr rfl⟩, relErr_above hpair htarget hge le_rfl⟩
    · -- the range starts above it: take its lower end
      have habove : ∀ m, Legal inHz div m o8 → ⌈quotient inHz targetHz div o8⌉ < m := fun m hm => by
        by_contra hc
        exact hx (hm.between h (not_lt.mp hc) hge)
      obtain ⟨m, hm, hmin⟩ := Int.exists_least_of_bdd (P := fun m => Legal inHz div m o8)
        ⟨16, fun m hm => hm.mult_ge⟩ ⟨m8, h⟩
      exact ⟨m, Or.inr ⟨hm, Or.inl fun m' hm' => ⟨habove m' hm', hmin m' hm'⟩⟩,
        relErr_above hpair htarget (hmin m8 h) (habove m hm).le⟩

/-- The result is legal and closest, and there is none only if no legal setting is within the tolerance. -/
def Closest (inHz targetHz tolerance : ℚ) : Prop :=
  (∀ s, solve inHz targetHz tolerance = .ok s →
    Legal inHz s.div s.multEighths s.odivEighths ∧
      s.achieved = output inHz s.div s.multEighths s.odivEighths ∧
      ∀ div m8 o8, Legal inHz div m8 o8 → relErr targetHz s.achieved ≤ relErr targetHz (output inHz div m8 o8)) ∧
    ((∃ e, solve inHz targetHz tolerance = .error e) ↔
      ∀ div m8 o8, Legal inHz div m8 o8 → ¬ relErr targetHz (output inHz div m8 o8) ≤ tolerance)

/-- An end of a multiplier range that misses both tried multipliers is within the tolerance and better than
everything tried. -/
def EdgeMissed (inHz targetHz tolerance : ℚ) : Prop :=
  ∃ div m8 o8, Edge inHz targetHz div m8 o8 ∧ relErr targetHz (output inHz div m8 o8) ≤ tolerance ∧
    ∀ div' m8' o8', Tried inHz targetHz div' m8' o8' →
      relErr targetHz (output inHz div m8 o8) < relErr targetHz (output inHz div' m8' o8')

/-- Without such an end, a legal setting within the tolerance has a tried one as good. -/
theorem exists_tried {inHz targetHz tolerance : ℚ} (htarget : 0 < targetHz)
    (hno : ¬ EdgeMissed inHz targetHz tolerance) {div : ℕ} {m8 : ℤ} {o8 : ℕ} (hl : Legal inHz div m8 o8)
    (hw : relErr targetHz (output inHz div m8 o8) ≤ tolerance) :
    ∃ div' m8' o8', Tried inHz targetHz div' m8' o8' ∧
      relErr targetHz (output inHz div' m8' o8') ≤ relErr targetHz (output inHz div m8 o8) := by
  obtain ⟨m, ht | hedge, hle⟩ := dominated htarget hl
  · exact ⟨div, m, o8, ht, hle⟩
  · by_contra hc
    push Not at hc
    exact hno ⟨div, m, o8, hedge, hle.trans hw, fun div' m8' o8' ht => lt_of_le_of_lt hle (hc div' m8' o8' ht)⟩

/-- **When the generator's setting is the closest.** -/
theorem closest_iff (inHz targetHz tolerance : ℚ) (htarget : 0 < targetHz) :
    Closest inHz targetHz tolerance ↔ ¬ EdgeMissed inHz targetHz tolerance := by
  constructor
  · rintro ⟨hbest, hthrow⟩ ⟨div, m8, o8, hedge, hw, hbetter⟩
    cases hs : solve inHz targetHz tolerance with
    | ok s =>
      obtain ⟨div', m8', o8', ht, rfl, -, -⟩ := solve_ok hs
      have hle := (hbest _ hs).2.2 div m8 o8 hedge.1
      exact absurd hle (not_le.mpr (hbetter div' m8' o8' ht))
    | error e => exact hthrow.mp ⟨e, hs⟩ div m8 o8 hedge.1 hw
  · intro hno
    refine ⟨fun s hs => ?_, ?_⟩
    · obtain ⟨div, m8, o8, ht, rfl, hw, hmin⟩ := solve_ok hs
      refine ⟨ht.1, rfl, fun div' m8' o8' hl => ?_⟩
      rcases le_or_gt (relErr targetHz (output inHz div' m8' o8')) tolerance with hw' | hfar
      · obtain ⟨div'', m8'', o8'', ht', hle⟩ := exists_tried htarget hno hl hw'
        exact (hmin div'' m8'' o8'' ht').trans hle
      · exact (hw.trans_lt hfar).le
    · rw [solve_error_iff]
      refine ⟨fun h div m8 o8 hl hw => ?_, fun h div m8 o8 ht => h div m8 o8 ht.1⟩
      obtain ⟨div', m8', o8', ht, hle⟩ := exists_tried htarget hno hl hw
      exact h div' m8' o8' ht (hle.trans hw)

/-- 800 MHz out of 10 MHz is hit exactly, so no end is better. -/
theorem wholeVco_closest : (0 : ℚ) < 800000000 ∧ Closest 10000000 800000000 (1 / 200) := by
  have hpair : LegalPair 10000000 1 8 := by
    refine ⟨le_rfl, by norm_num, le_rfl, by norm_num, Or.inr rfl, ?_, ?_⟩ <;> norm_num [PfdMin, PfdMax]
  have hquot : quotient 10000000 800000000 1 8 = (640 : ℤ) := by norm_num [quotient]
  have ht : Tried 10000000 800000000 1 640 8 := by
    refine ⟨⟨hpair, by norm_num, by norm_num, ?_, ?_⟩, Or.inl ?_⟩
    · norm_num [VcoMin]
    · norm_num [VcoMax]
    · rw [hquot, Int.floor_intCast]
  have hhit : relErr 800000000 (output 10000000 1 640 8) = 0 := by norm_num [relErr, output]
  refine ⟨by norm_num, (closest_iff 10000000 800000000 (1 / 200) (by norm_num)).mpr ?_⟩
  rintro ⟨div, m8, o8, -, -, hbetter⟩
  have hlt := hbetter 1 640 8 ht
  rw [hhit] at hlt
  exact absurd (div_nonneg (abs_nonneg _) (by norm_num)) (not_le.mpr hlt)

/-- For 6.23 MHz out of 10 MHz nothing is tried, though the slowest VCO with the largest output divider gives
6.25 MHz. -/
theorem slowestOutput_not_closest : ¬ Closest 10000000 6230000 (1 / 200) := by
  have hnone : ∀ div m8 o8, ¬ Tried 10000000 6230000 div m8 o8 := fun div m8 o8 ht => by
    have hpair := ht.1.toLegalPair
    have hdiv : (1 : ℚ) ≤ div := by exact_mod_cast hpair.div_pos
    have ho8 : (o8 : ℚ) ≤ 1024 := by exact_mod_cast hpair.odiv_le
    have hpfd := hpair.pfd_ge
    have hvco := ht.1.vco_ge
    have hlt := ht.lt_quotient
    rw [PfdMin, le_div_iff₀ (by linarith)] at hpfd
    have hone : (div : ℚ) = 1 := by linarith
    rw [hone, VcoMin, div_one] at hvco
    rw [quotient_eq, hone, one_mul, lt_div_iff₀ (by norm_num)] at hlt
    linarith
  have hlegal : Legal 10000000 1 640 1024 := by
    refine ⟨⟨le_rfl, by norm_num, by norm_num, le_rfl, Or.inl (by norm_num), ?_,
      ?_⟩, by norm_num, by norm_num, ?_, ?_⟩
    · norm_num [PfdMin]
    · norm_num [PfdMax]
    · norm_num [VcoMin]
    · norm_num [VcoMax]
  have hwithin : relErr 6230000 (output 10000000 1 640 1024) ≤ 1 / 200 := by
    rw [show output 10000000 1 640 1024 = 6250000 by norm_num [output], relErr, abs_of_nonneg (by norm_num)]
    norm_num
  rintro ⟨-, hthrow⟩
  exact hthrow.mp (solve_error_iff.mpr fun div m8 o8 ht => absurd ht (hnone div m8 o8)) 1 640 1024 hlegal hwithin

end Soceteer.Clk.MmcmSolver
