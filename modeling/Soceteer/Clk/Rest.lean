import Soceteer.Clk.Wzrd

/-!
# Soceteer.Clk.Rest — how far the quotient lands

For a divider pair the multiplier that hits the target is `target * div * odiv / input`.  What the division leaves
says how far off the two multipliers around it are.

* `rest`: the remainder; `freqErr_lower`, `achieved_upper`: the two distances.
* `Lands`, `Exceeds`: outputs at or below a ceiling near the target, and outputs above the ceiling.
* `CeilingKept`: a relation of remainders; `solve_ceiling_iff`: the solver then ends at or below the ceiling.
-/

namespace Soceteer.Clk

section Defs

variable (lim : Limits) (target div o8 : ℕ)

/-- What the division of `target * div * o8` by the input leaves. -/
def rest : ℕ := target * div * o8 % lim.inputHz

/-- The quotient, rounded down, is a legal multiplier of the pair. -/
def Lower : Prop := Legal lim div (multFloor lim target div o8) o8

/-- The multiplier after it is. -/
def Upper : Prop := Legal lim div (multFloor lim target div o8 + 1) o8

instance : Decidable (Lower lim target div o8) := inferInstanceAs (Decidable (Legal ..))

instance : Decidable (Upper lim target div o8) := inferInstanceAs (Decidable (Legal ..))

/-- The pair has an output of at most `max` no more than `e` Hz from the target; `max` is not below the target. -/
def Lands (max e : ℕ) : Prop :=
  Lower lim target div o8 ∧ rest lim target div o8 ≤ e * (div * o8) ∨
    Upper lim target div o8 ∧ lim.inputHz - rest lim target div o8 < (min e (max - target) + 1) * (div * o8)

/-- The pair has an output above `max`. -/
def Exceeds (max : ℕ) : Prop :=
  Upper lim target div o8 ∧ (max - target + 1) * (div * o8) ≤ lim.inputHz - rest lim target div o8

end Defs

/-- Some pair has an output of at most `max` within 0.5% and no more than `e` Hz from the target, and the outputs
above `max` are all more than `e` Hz from it, or exactly `e` Hz (rounded down) with a pair that does not come
before. -/
def CeilingKept (lim : Limits) (max target : ℕ) : Prop :=
  ∃ e div o8, 200 * e ≤ target ∧ Lands lim target div o8 max e ∧ ∀ div' o8', Exceeds lim target div' o8' max →
    (e + 1) * (div' * o8') ≤ lim.inputHz - rest lim target div' o8' ∨
      e * (div' * o8') ≤ lim.inputHz - rest lim target div' o8' ∧ (div < div' ∨ div = div' ∧ o8 ≤ o8')

section Distance

variable {lim : Limits} {target div o8 : ℕ}

theorem floor_add_rest (lim : Limits) (target div o8 : ℕ) :
    lim.inputHz * multFloor lim target div o8 + rest lim target div o8 = target * (div * o8) := by
  rw [← Nat.mul_assoc]
  exact Nat.div_add_mod ..

/-- The lower multiplier falls short of the target by the rest, rounded up. -/
theorem freqErr_lower (hpos : 0 < div * o8) {e : ℕ} :
    freqErr target (achieved lim div (multFloor lim target div o8) o8) ≤ e ↔
      rest lim target div o8 ≤ e * (div * o8) := by
  have hle : achieved lim div (multFloor lim target div o8) o8 ≤ target := achieved_le le_rfl
  have hsum := floor_add_rest lim target div o8
  have hiff : target - e ≤ achieved lim div (multFloor lim target div o8) o8 ↔
      target * (div * o8) - e * (div * o8) ≤ lim.inputHz * multFloor lim target div o8 := by
    rw [achieved, Nat.le_div_iff_mul_le hpos, Nat.sub_mul]
  rw [freqErr, if_neg (Nat.not_lt.mpr hle)]
  omega

/-- The upper one is above it by what the rest lacks, rounded down. -/
theorem achieved_upper (hin : 0 < lim.inputHz) (hpos : 0 < div * o8) :
    achieved lim div (multFloor lim target div o8 + 1) o8 =
      target + (lim.inputHz - rest lim target div o8) / (div * o8) := by
  have hsum := floor_add_rest lim target div o8
  have hlt : rest lim target div o8 < lim.inputHz := Nat.mod_lt _ hin
  have hprod : lim.inputHz * (multFloor lim target div o8 + 1) =
      (lim.inputHz - rest lim target div o8) + target * (div * o8) := by
    rw [Nat.mul_succ]
    omega
  rw [achieved, hprod, Nat.add_mul_div_right _ _ hpos, Nat.add_comm]

theorem freqErr_upper (target : ℕ) (hin : 0 < lim.inputHz) (hpos : 0 < div * o8) :
    freqErr target (achieved lim div (multFloor lim target div o8 + 1) o8) =
      (lim.inputHz - rest lim target div o8) / (div * o8) := by
  rw [achieved_upper hin hpos, freqErr]
  generalize (lim.inputHz - rest lim target div o8) / (div * o8) = x
  split_ifs <;> omega

theorem LegalPair.input_pos (h : LegalPair lim div o8) (hpfd : 0 < lim.pfdMinHz) : 0 < lim.inputHz :=
  Nat.lt_of_lt_of_le (Nat.mul_pos hpfd h.div_pos) h.pfd_ge

end Distance

section Ceiling

variable {lim : Limits} {max target : ℕ}

/-- A pair that lands has a tried setting that does. -/
theorem Lands.setting {e div o8 : ℕ} (h : Lands lim target div o8 max e) (hin : 0 < lim.inputHz)
    (hmax : target ≤ max) :
    ∃ m8, Tried lim target div m8 o8 ∧ achieved lim div m8 o8 ≤ max ∧ freqErr target (achieved lim div m8 o8) ≤ e ∧
      m8 ≤ multFloor lim target div o8 + 1 := by
  rcases h with ⟨hl, hrest⟩ | ⟨hl, hrest⟩
  · exact ⟨_, ⟨hl, .inl rfl⟩, (achieved_le le_rfl).trans hmax, (freqErr_lower hl.prod_pos).mpr hrest,
      Nat.le_succ _⟩
  · have hlt := (Nat.div_lt_iff_lt_mul hl.prod_pos).mpr hrest
    refine ⟨_, ⟨hl, .inr rfl⟩, ?_, ?_, le_rfl⟩
    · rw [achieved_upper hin hl.prod_pos]
      omega
    · rw [freqErr_upper target hin hl.prod_pos]
      omega

/-- A tried setting above the ceiling has the upper multiplier of a pair that exceeds it. -/
theorem Tried.exceeds {div m8 o8 : ℕ} (h : Tried lim target div m8 o8) (hin : 0 < lim.inputHz)
    (hmax : target ≤ max) (habove : max < achieved lim div m8 o8) :
    m8 = multFloor lim target div o8 + 1 ∧ Exceeds lim target div o8 max := by
  obtain ⟨hl, rfl | rfl⟩ := h
  · have hle : achieved lim div (multFloor lim target div o8) o8 ≤ target := achieved_le le_rfl
    omega
  · rw [achieved_upper hin hl.prod_pos] at habove
    exact ⟨rfl, hl, (Nat.le_div_iff_mul_le hl.prod_pos).mp (by omega)⟩

theorem Exceeds.setting {div o8 : ℕ} (h : Exceeds lim target div o8 max) (hin : 0 < lim.inputHz)
    (hmax : target ≤ max) :
    Tried lim target div (multFloor lim target div o8 + 1) o8 ∧
      max < achieved lim div (multFloor lim target div o8 + 1) o8 := by
  have hle := (Nat.le_div_iff_mul_le h.1.prod_pos).mpr h.2
  refine ⟨⟨h.1, .inr rfl⟩, ?_⟩
  rw [achieved_upper hin h.1.prod_pos]
  omega

/-- **The ceiling.**  The solver ends at or below a ceiling that is not below the target. -/
theorem solve_ceiling_iff (htarget : target < 2 ^ 32) (hin : 0 < lim.inputHz) (hmax : target ≤ max) :
    (∃ s, solve lim target = .ok s ∧ s.achievedHz ≤ max) ↔ CeilingKept lim max target := by
  constructor
  · rintro ⟨s, hs, hle⟩
    obtain ⟨hfirst, hw⟩ := (solve_eq_iff htarget).mp hs
    obtain ⟨div, m8, o8, ht, rfl⟩ := hfirst.tried
    have hle : achieved lim div m8 o8 ≤ max := hle
    refine ⟨freqErr target (achieved lim div m8 o8), div, o8, ?_, ?_, fun div' o8' hx => ?_⟩
    · rw [Nat.mul_comm]
      exact hw
    · obtain ⟨hl, rfl | rfl⟩ := ht
      · exact .inl ⟨hl, (freqErr_lower hl.prod_pos).mp le_rfl⟩
      · refine .inr ⟨hl, (Nat.div_lt_iff_lt_mul hl.prod_pos).mp ?_⟩
        rw [achieved_upper hin hl.prod_pos] at hle
        rw [freqErr_upper target hin hl.prod_pos]
        omega
    · obtain ⟨ht', habove⟩ := hx.setting hin hmax
      have hmem : settingOf lim div' (multFloor lim target div' o8' + 1) o8' ∈ triedSet lim target :=
        ⟨div', _, o8', ht', rfl⟩
      have herr := freqErr_upper target hin hx.1.prod_pos
      have hclose : freqErr target (achieved lim div m8 o8) ≤
          freqErr target (achieved lim div' (multFloor lim target div' o8' + 1) o8') := hfirst.closest _ hmem
      rw [herr] at hclose
      rcases Nat.lt_or_eq_of_le hclose with hlt | heq
      · exact .inl ((Nat.le_div_iff_mul_le hx.1.prod_pos).mp hlt)
      · refine .inr ⟨(Nat.le_div_iff_mul_le hx.1.prod_pos).mp hclose, ?_⟩
        rcases hfirst.first _ hmem (heq.trans herr.symm) with hsame | hbefore
        · have hach : achieved lim div m8 o8 = achieved lim div' (multFloor lim target div' o8' + 1) o8' :=
            congrArg Setting.achievedHz hsame
          omega
        · exact hbefore.imp_right fun h => ⟨h.1, h.2.elim Nat.le_of_lt fun h => h.1.le⟩
  · rintro ⟨e, div, o8, he, hlands, hall⟩
    obtain ⟨m8, ht, hle, herr, hm8⟩ := hlands.setting hin hmax
    have hmem : settingOf lim div m8 o8 ∈ triedSet lim target := ⟨div, m8, o8, ht, rfl⟩
    have hw : Within target (achieved lim div m8 o8) := by
      rw [Within, Nat.mul_comm]
      exact (Nat.mul_le_mul_left 200 herr).trans he
    rcases solve_cases lim target with ⟨s, hs⟩ | hnone
    · refine ⟨s, hs, Nat.not_lt.mp fun habove => ?_⟩
      obtain ⟨hfirst, -⟩ := (solve_eq_iff htarget).mp hs
      obtain ⟨div', m8', o8', ht', rfl⟩ := hfirst.tried
      obtain ⟨rfl, hx⟩ := ht'.exceeds hin hmax habove
      have herr' := freqErr_upper target hin hx.1.prod_pos
      have hclose : freqErr target (achieved lim div' (multFloor lim target div' o8' + 1) o8') ≤
          freqErr target (achieved lim div m8 o8) := hfirst.closest _ hmem
      -- nothing above the ceiling is closer, and what is as close comes later
      rcases hall div' o8' hx with hfar | ⟨hge, hafter⟩
      · have := (Nat.le_div_iff_mul_le hx.1.prod_pos).mpr hfar
        omega
      · have := (Nat.le_div_iff_mul_le hx.1.prod_pos).mpr hge
        rcases hfirst.first _ hmem (by simp only [settingOf]; omega) with hsame | hbefore
        · have hach : achieved lim div' (multFloor lim target div' o8' + 1) o8' = achieved lim div m8 o8 :=
            congrArg Setting.achievedHz hsame
          have : max < achieved lim div' (multFloor lim target div' o8' + 1) o8' := habove
          omega
        · simp only [Setting.Before, settingOf] at hbefore
          rcases hafter with hlt | ⟨rfl, hle⟩
          · omega
          · rcases Nat.lt_or_eq_of_le hle with hlt | rfl
            · omega
            · omega
    · exact absurd hw ((solve_error_iff htarget).mp hnone div m8 o8 ht)

end Ceiling

end Soceteer.Clk
