import Soceteer.Clk.Rest
import Soceteer.Dp.Request

/-!
# Soceteer.Dp.Again — an accepted mode, asked for again

`soct_dp_fb_check_var` rewrites the var of an accepted mode: the achieved clock goes out as a period in
picoseconds. The framebuffer core hands the rewritten var to `soct_dp_fb_set_par`, which decodes, validates and
solves once more.

* `Trip`: a clock, its reported period and the clock read back.
* `Trip.tried`, `Trip.within`, `Trip.ceiling_le`: the setting of the clock is tried again for the clock read back,
  within the tolerance, and the slack above the ceiling is not used up.
* `RoundingRoom`: what the two roundings need of the var and of the budget; `settable_iff`.
-/

namespace Soceteer.Dp

open Clk Round

/-! ## Through picoseconds and back -/

/-- A clock `a` between the slowest output and 1 GHz, its period `p`, and the clock `c` of the period. -/
structure Trip (a p c : ℕ) : Prop where
  ge : 15625 ≤ a
  le : a ≤ 1000000000
  period : p = divRoundClosest second a
  clock : c = divRoundClosest second p

namespace Trip

variable {a p c : ℕ} (h : Trip a p c)
include h

theorem period_ge : 1000 ≤ p := by
  have h1 := h.ge
  have h2 := h.le
  rw [h.period, le_divRoundClosest_iff (by omega), second]
  omega

theorem period_lt : p < 2 ^ 32 := by
  have h1 := h.ge
  rw [h.period, divRoundClosest_lt_iff (by omega), second]
  omega

theorem clock_pos : 0 < c := by
  have h1 := h.period_ge
  have h2 := h.period_lt
  refine Nat.lt_of_lt_of_le Nat.zero_lt_one ?_
  rw [h.clock, le_divRoundClosest_iff (by omega), second]
  omega

theorem clock_lt : c < 2 ^ 32 := by
  have h1 := h.period_ge
  rw [h.clock, divRoundClosest_lt_iff (by omega), second]
  omega

theorem clock_mul_le : 2 * (p * c) ≤ 2 * (p * a) + a + p := by
  have h1 := h.ge
  have hle := divRoundClosest_twice_le second (a := a) (by omega)
  rw [← h.period, ← h.clock, Nat.mul_comm c, Nat.mul_comm a] at hle
  omega

theorem mul_le_clock : 2 * (p * a) ≤ 2 * (p * c) + a + p := by
  have h1 := h.period_ge
  have hle := le_divRoundClosest_twice second (a := a) (by rw [← h.period]; omega)
  rw [← h.period, ← h.clock, Nat.mul_comm c, Nat.mul_comm a] at hle
  omega

/-- The rounding is small against the product. -/
theorem slack : 1000 * a + 15625 * p ≤ 2 * (p * a) := by
  have h1 : 1000 * a ≤ p * a := Nat.mul_le_mul_right _ h.period_ge
  have h2 : p * 15625 ≤ p * a := Nat.mul_le_mul_left _ h.ge
  omega

/-- **The tolerance is kept** for every target between the clock and the one read back. -/
theorem within {t : ℕ} (ht : a ≤ t ∧ t ≤ c ∨ c ≤ t ∧ t ≤ a) : Within t a := by
  have h1 := h.clock_mul_le
  have h2 := h.mul_le_clock
  have h3 := h.slack
  have h4 := h.period_ge
  unfold Within freqErr
  rcases ht with ⟨hat, htc⟩ | ⟨hct, hta⟩
  · rw [if_neg (by omega)]
    by_contra hc
    have hmul : p * (200 * a + 1) ≤ p * (199 * c) := Nat.mul_le_mul_left _ (by omega)
    have e1 : p * (200 * a + 1) = 200 * (p * a) + p := by ring
    have e2 : p * (199 * c) = 199 * (p * c) := by ring
    omega
  · rcases Nat.eq_or_lt_of_le hta with rfl | hlt
    · rw [if_neg (by omega)]
      omega
    · rw [if_pos hlt]
      by_contra hc
      have hmul : p * (201 * c + 1) ≤ p * (200 * a) := Nat.mul_le_mul_left _ (by omega)
      have e1 : p * (201 * c + 1) = 201 * (p * c) + p := by ring
      have e2 : p * (200 * a) = 200 * (p * a) := by ring
      omega

/-- **The slack above the ceiling is not used up.** -/
theorem ceiling_le {max : ℕ} (hmax : a ≤ max) : c ≤ max + max / 200 := by
  have h1 := h.clock_mul_le
  have h2 := h.period_ge
  by_contra hc
  have hmul : p * (a + a / 200 + 1) ≤ p * c := Nat.mul_le_mul_left _ (by omega)
  have e : p * (a + a / 200 + 1) = p * a + p * (a / 200) + p := by ring
  have hq : 1000 * (a / 200) ≤ p * (a / 200) := Nat.mul_le_mul_right _ h2
  omega

/-- **The setting is tried again** for every target between the clock and the one read back. -/
theorem tried {lim : Limits} {div m8 o8 t : ℕ} (hl : Legal lim div m8 o8) (hpfd : 1000000 ≤ lim.pfdMinHz)
    (ha : achieved lim div m8 o8 = a) (ht : a ≤ t ∧ t ≤ c ∨ c ≤ t ∧ t ≤ a) : Tried lim t div m8 o8 := by
  -- the step of the output is small against the input
  have hstep : 1000000 * (div * o8) ≤ 1024 * lim.inputHz := by
    calc 1000000 * (div * o8) ≤ 1000000 * (div * 1024) := Nat.mul_le_mul_left _ (Nat.mul_le_mul_left _ hl.odiv_le)
      _ = 1024 * (1000000 * div) := by ring
      _ ≤ 1024 * (lim.pfdMinHz * div) := Nat.mul_le_mul_left _ (Nat.mul_le_mul_right _ hpfd)
      _ ≤ 1024 * lim.inputHz := Nat.mul_le_mul_left _ hl.pfd_ge
  have hmult : lim.inputHz * m8 ≤ 1024 * lim.inputHz := by
    rw [Nat.mul_comm]
    exact Nat.mul_le_mul_right _ hl.mult_le
  have hlo : a * (div * o8) ≤ lim.inputHz * m8 := ha ▸ Nat.div_mul_le_self ..
  have hhi : lim.inputHz * m8 < a * (div * o8) + div * o8 := ha ▸ Nat.lt_div_mul_add hl.prod_pos
  have hp := h.period_ge
  -- all bounds multiplied by the period, as bounds on products
  have hstep' : 1000000 * (p * (div * o8)) ≤ 1024 * (p * lim.inputHz) := by
    calc 1000000 * (p * (div * o8)) = p * (1000000 * (div * o8)) := by ring
      _ ≤ p * (1024 * lim.inputHz) := Nat.mul_le_mul_left _ hstep
      _ = 1024 * (p * lim.inputHz) := by ring
  have hinput : 1000 * lim.inputHz ≤ p * lim.inputHz := Nat.mul_le_mul_right _ hp
  have hlo' : p * (a * (div * o8)) ≤ p * (lim.inputHz * m8) := Nat.mul_le_mul_left _ hlo
  have hhi' : p * (lim.inputHz * m8) ≤ p * (a * (div * o8)) + p * (div * o8) := by
    rw [← Nat.mul_add]
    exact Nat.mul_le_mul_left _ hhi.le
  have hup : 2 * (p * (c * (div * o8))) ≤ 2 * (p * (a * (div * o8))) + a * (div * o8) + p * (div * o8) := by
    calc 2 * (p * (c * (div * o8))) = 2 * (p * c) * (div * o8) := by ring
      _ ≤ (2 * (p * a) + a + p) * (div * o8) := Nat.mul_le_mul_right _ h.clock_mul_le
      _ = 2 * (p * (a * (div * o8))) + a * (div * o8) + p * (div * o8) := by ring
  have hdown : 2 * (p * (a * (div * o8))) ≤ 2 * (p * (c * (div * o8))) + a * (div * o8) + p * (div * o8) := by
    calc 2 * (p * (a * (div * o8))) = 2 * (p * a) * (div * o8) := by ring
      _ ≤ (2 * (p * c) + a + p) * (div * o8) := Nat.mul_le_mul_right _ h.mul_le_clock
      _ = 2 * (p * (c * (div * o8))) + a * (div * o8) + p * (div * o8) := by ring
  have hclock_lt : c * (div * o8) < lim.inputHz * m8 + lim.inputHz := by
    by_contra hc
    have hmul : p * (lim.inputHz * m8 + lim.inputHz) ≤ p * (c * (div * o8)) := Nat.mul_le_mul_left _ (by omega)
    rw [Nat.mul_add] at hmul
    omega
  have hlt_clock : lim.inputHz * m8 < c * (div * o8) + lim.inputHz := by
    by_contra hc
    have hmul : p * (c * (div * o8) + lim.inputHz) ≤ p * (lim.inputHz * m8) := Nat.mul_le_mul_left _ (by omega)
    rw [Nat.mul_add] at hmul
    omega
  refine hl.tried_of_near ?_ ?_
  · rcases ht with ⟨-, htc⟩ | ⟨-, hta⟩
    · exact lt_of_le_of_lt (Nat.mul_le_mul_right _ htc) hclock_lt
    · have := Nat.mul_le_mul_right (div * o8) hta
      omega
  · rcases ht with ⟨hat, -⟩ | ⟨hct, -⟩
    · have := Nat.mul_le_mul_right (div * o8) hat
      omega
    · have := Nat.mul_le_mul_right (div * o8) hct
      omega

end Trip

/-- No output is slower than 15625 Hz. -/
theorem achieved_ge {lim : Limits} {div m8 o8 : ℕ} (hl : Legal lim div m8 o8) (hpfd : 1000000 ≤ lim.pfdMinHz) :
    15625 ≤ achieved lim div m8 o8 := by
  rw [achieved, Nat.le_div_iff_mul_le hl.prod_pos]
  calc 15625 * (div * o8) ≤ 15625 * (div * 1024) := Nat.mul_le_mul_left _ (Nat.mul_le_mul_left _ hl.odiv_le)
    _ = 1000000 * div * 16 := by ring
    _ ≤ lim.pfdMinHz * div * 16 := Nat.mul_le_mul_right _ (Nat.mul_le_mul_right _ hpfd)
    _ ≤ lim.inputHz * m8 := Nat.mul_le_mul hl.pfd_ge hl.mult_ge

/-! ## The second pass -/

/-- The clock asked for, at most the ceiling. -/
def askedClock (s : Driver) (var : VarScreenInfo) : ℕ :=
  min (divRoundClosest second var.pixclock.toNat % 2 ^ 32) s.maxHz.toNat

/-- The clock read back for `a` Hz reported in picoseconds, at most the ceiling. -/
def backClock (s : Driver) (a : ℕ) : ℕ := min (divRoundClosest second (divRoundClosest second a)) s.maxHz.toNat

/-- A frame of `t` picoseconds, in the 64 bits it is computed in, takes some time and at most two seconds. -/
def HasRate (t : ℕ) : Prop := 0 < t % 2 ^ 64 ∧ t % 2 ^ 64 ≤ 2 * second

/-- With the output nearest to the clock asked for, of the two multipliers around the quotient of each pair and the
first of equally near ones, in picoseconds, the frame still has a rate, and the clock read back is nearer to this
output than to the ceiling or keeps the ceiling. -/
def RoundingRoom (s : Driver) (var : VarScreenInfo) : Prop :=
  ∀ set, FirstBest s.lim (askedClock s var) set →
    HasRate (divRoundClosest second set.achievedHz * var.lineDots * var.frameLines) ∧
      (2 * backClock s set.achievedHz ≤ set.achievedHz + s.maxHz.toNat ∨
        CeilingKept s.lim s.maxHz.toNat (backClock s set.achievedHz))

/-- The rate of a frame is not zero, in the words it is computed with, up to two seconds. -/
theorem rate_iff {t : ℕ} : t ≠ 0 ∧ divRoundClosest second t % 2 ^ 32 ≠ 0 ↔ 0 < t ∧ t ≤ 2 * second := by
  rw [Nat.pos_iff_ne_zero]
  refine and_congr_right fun h0 => ?_
  have hpos : 0 < t := Nat.pos_of_ne_zero h0
  have hone : 1 ≤ divRoundClosest second t ↔ t ≤ 2 * second := by
    rw [le_divRoundClosest_iff hpos]
    omega
  rw [← hone]
  refine ⟨fun hne => Nat.pos_of_ne_zero fun hc => hne (by rw [hc, Nat.zero_mod]), fun hge hwrap => ?_⟩
  -- a multiple of `2 ^ 32` would need a multiple of it within `t / 2` of the picoseconds of a second
  obtain ⟨k, hk⟩ := Nat.dvd_of_mod_eq_zero hwrap
  have hle := (le_divRoundClosest_iff (x := second) hpos).mp le_rfl
  have hlt := (divRoundClosest_lt_iff (x := second) hpos).mp (Nat.lt_succ_self _)
  rw [Nat.succ_mul] at hlt
  rw [hk, Nat.mul_assoc] at hle hlt
  have hkt : t ≤ k * t := Nat.le_mul_of_pos_left _ (Nat.pos_of_ne_zero fun hc => by rw [hk, hc] at hge; omega)
  generalize k * t = u at hle hlt hkt
  simp only [second] at hle hlt
  omega

/-- The var is accepted, and setting it does not fail with `-EINVAL` whatever the hardware answers. -/
def Settable (d : Fbdev) (var : VarScreenInfo) : Prop :=
  (∃ var', checkVar d.fbs d.sys.drv var = .ok var') ∧ ∀ o, (setPar d var o).1 ≠ some (.errno .einval)

theorem clamp_toNat (x max : UInt32) : (if x > max then max else x).toNat = min x.toNat max.toNat := by
  by_cases h : x > max
  · have hlt := UInt32.lt_iff_toNat_lt.mp h
    rw [if_pos h]
    omega
  · have hle := UInt32.le_iff_toNat_le.mp (UInt32.not_lt.mp h)
    rw [if_neg h]
    omega

section Pass

variable {s : Driver} {m m' : Mode} {set : Setting}

theorem Retuned.asked {var : VarScreenInfo} {fps : UInt32} (h : Retuned s (modeOf var fps) m' set) :
    solve s.lim (askedClock s var) = .ok set := by
  have hsolved := h.solved
  have hclock : (modeOf var fps).pixelClockHz.toNat = divRoundClosest second var.pixclock.toNat % 2 ^ 32 := by
    rw [modeOf, UInt32.toNat_ofNat']
  rw [clamp_toNat, hclock] at hsolved
  exact hsolved

/-- The trip of an accepted clock. -/
theorem Retuned.trip (h : Retuned s m m' set) (hpfd : 1000000 ≤ s.lim.pfdMinHz)
    (hmax : s.maxHz.toNat ≤ 1000000000) :
    Trip set.achievedHz (reportedPeriod m'.pixelClockHz).toNat
      (readClock (reportedPeriod m'.pixelClockHz)).toNat := by
  have hbelow := h.below
  obtain ⟨⟨div, m8, o8, ht, rfl⟩, -, -⟩ := solve_ok (UInt32.toNat_lt _) h.solved
  have htrip : Trip (achieved s.lim div m8 o8) _ _ := ⟨achieved_ge ht.1 hpfd, hbelow.trans hmax, rfl, rfl⟩
  have hperiod : (reportedPeriod m'.pixelClockHz).toNat = divRoundClosest second (achieved s.lim div m8 o8) := by
    rw [reportedPeriod, h.clock]
    exact UInt32.toNat_ofNat_of_lt' htrip.period_lt
  refine ⟨htrip.ge, htrip.le, hperiod, ?_⟩
  rw [readClock, hperiod]
  exact UInt32.toNat_ofNat_of_lt' htrip.clock_lt

/-- **The second validation** can only fail at the ceiling. -/
theorem Retuned.again_iff (h : Retuned s m m' set) (hret : s.retunable = true) (hpfd : 1000000 ≤ s.lim.pfdMinHz)
    (hmax : s.maxHz.toNat ≤ 1000000000) {m₂ : Mode} (hm₂ : m₂.Complete)
    (hclock : m₂.pixelClockHz = readClock (reportedPeriod m'.pixelClockHz)) :
    (∃ m₃, validateMode s m₂ = .ok m₃) ↔
      2 * min m₂.pixelClockHz.toNat s.maxHz.toNat ≤ set.achievedHz + s.maxHz.toNat ∨
        CeilingKept s.lim s.maxHz.toNat (min m₂.pixelClockHz.toNat s.maxHz.toNat) := by
  have htrip := h.trip hpfd hmax
  rw [← hclock] at htrip
  have hlt : min m₂.pixelClockHz.toNat s.maxHz.toNat < 2 ^ 32 := by omega
  have hclamp := clamp_toNat m₂.pixelClockHz s.maxHz
  obtain ⟨⟨div, m8, o8, ht, rfl⟩, -, -⟩ := solve_ok (UInt32.toNat_lt _) h.solved
  have hbelow : achieved s.lim div m8 o8 ≤ s.maxHz.toNat := h.below
  have htrip : Trip (achieved s.lim div m8 o8) _ _ := htrip
  have hin : 0 < s.lim.inputHz := ht.1.input_pos (by omega)
  have hbetween : achieved s.lim div m8 o8 ≤ min m₂.pixelClockHz.toNat s.maxHz.toNat ∧
      min m₂.pixelClockHz.toNat s.maxHz.toNat ≤ m₂.pixelClockHz.toNat ∨
      m₂.pixelClockHz.toNat ≤ min m₂.pixelClockHz.toNat s.maxHz.toNat ∧
        min m₂.pixelClockHz.toNat s.maxHz.toNat ≤ achieved s.lim div m8 o8 := by omega
  -- the setting of the first pass is tried and within the tolerance, so the solver finds one
  have htried := htrip.tried ht.1 hpfd rfl hbetween
  obtain ⟨set₂, hset₂⟩ : ∃ set₂, solve s.lim (min m₂.pixelClockHz.toNat s.maxHz.toNat) = .ok set₂ :=
    (solve_cases _ _).resolve_right fun herr => (solve_error_iff hlt).mp herr div m8 o8 htried
      (htrip.within hbetween)
  have hceiling := solve_ceiling_iff hlt hin (Nat.min_le_right m₂.pixelClockHz.toNat s.maxHz.toNat)
  have hvalid : (∃ m₃, validateMode s m₂ = .ok m₃) ↔ set₂.achievedHz ≤ s.maxHz.toNat := by
    constructor
    · rintro ⟨m₃, hm₃⟩
      obtain ⟨-, ⟨hf, -⟩ | ⟨-, set₃, hret₃⟩⟩ := validateMode_ok_iff.mp hm₃
      · rw [hret] at hf
        cases hf
      · have hsolved := hret₃.solved
        rw [hclamp, hset₂] at hsolved
        cases hsolved
        exact hret₃.below
    · intro hceil
      refine ⟨_, validateMode_ok_iff.mpr ⟨hm₂, Or.inr ⟨hret, set₂, ?_, ?_, hceil, rfl⟩⟩⟩
      · have hle := htrip.ceiling_le hbelow
        rw [gt_iff_lt, UInt32.lt_iff_toNat_lt, UInt32.toNat_add, UInt32.toNat_div,
          show (200 : UInt32).toNat = 200 from rfl, Nat.mod_eq_of_lt (by omega)]
        omega
      · rw [hclamp]
        exact hset₂
  rw [hvalid]
  constructor
  · exact fun hle => .inr (hceiling.mp ⟨set₂, hset₂, hle⟩)
  · rintro (hnear | hkept)
    · -- no farther from the clock than the first setting, so not beyond the ceiling
      have hclose := (solve_ok hlt hset₂).2.2 div m8 o8 htried
      have hnear : 2 * min m₂.pixelClockHz.toNat s.maxHz.toNat ≤ achieved s.lim div m8 o8 + s.maxHz.toNat := hnear
      have hcap : min m₂.pixelClockHz.toNat s.maxHz.toNat ≤ s.maxHz.toNat := Nat.min_le_right ..
      unfold freqErr at hclose
      split_ifs at hclose <;> omega
    · obtain ⟨set₃, hset₃, hle⟩ := hceiling.mpr hkept
      rw [hset₂] at hset₃
      cases hset₃
      exact hle

end Pass

/-- The second decoding fails exactly when the frame has no rate. -/
theorem decode_again_iff {carveoutSize : ℕ} {m' : Mode} {var : VarScreenInfo} {p : ℕ}
    (hperiod : (reportedPeriod m'.pixelClockHz).toNat = p) (hp : p ≠ 0)
    (hh : (fillVar carveoutSize m' var).lineDots < 2 ^ 32)
    (hv : (fillVar carveoutSize m' var).frameLines < 2 ^ 32) :
    (∃ m₂, varToMode (fillVar carveoutSize m' var) = .ok m₂) ↔
      HasRate (p * (fillVar carveoutSize m' var).lineDots * (fillVar carveoutSize m' var).frameLines) := by
  have hpix : (fillVar carveoutSize m' var).pixclock.toNat = p := hperiod
  have hdots := (fillVar carveoutSize m' var).dots_toNat hh hv
  rw [VarScreenInfo.frameTime, hpix] at hdots
  have hne : ∀ {w : UInt64}, w ≠ 0 ↔ w.toNat ≠ 0 := fun {w} => by rw [Ne, ← UInt64.toNat_inj, UInt64.toNat_zero]
  have hne32 : ∀ {x : ℕ}, UInt32.ofNat x ≠ 0 ↔ x % 2 ^ 32 ≠ 0 := fun {x} => by
    rw [Ne, ← UInt32.toNat_inj, UInt32.toNat_zero, UInt32.toNat_ofNat']
  unfold HasRate
  rw [← rate_iff, ← hdots, ← hne, ← hne32]
  constructor
  · rintro ⟨m₂, hm₂⟩
    obtain ⟨-, -, h1, h2, -⟩ := varToMode_ok_iff.mp hm₂
    exact ⟨h1, h2⟩
  · rintro ⟨h1, h2⟩
    have hvmode : (fillVar carveoutSize m' var).vmode &&& 255 = 0 := by
      change (0 : UInt32) &&& 255 = 0
      decide
    refine ⟨_, varToMode_ok_iff.mpr ⟨fun hc => hp ?_, hvmode, h1, h2, rfl⟩⟩
    rw [← hpix, hc]
    rfl

/-- What is decoded the second time is complete. -/
theorem complete_again {carveoutSize a p : ℕ} {m' m₂ : Mode} {var : VarScreenInfo} (hpolar : m'.Polar)
    (hm' : m'.Complete) (htrip : Trip a p (readClock (reportedPeriod m'.pixelClockHz)).toNat)
    (hm₂ : varToMode (fillVar carveoutSize m' var) = .ok m₂) : m₂.Complete := by
  have hmode₂ := varToMode_fillVar hpolar hm₂
  obtain ⟨-, -, -, hfps, hm₂'⟩ := varToMode_ok_iff.mp hm₂
  refine ⟨?_, ?_, ?_, fun h0 => ?_⟩
  · rw [hmode₂]
    exact hm'.hactive
  · rw [hmode₂]
    exact hm'.vactive
  · rw [hm₂']
    exact hfps
  · have hclock₂ : m₂.pixelClockHz = readClock (reportedPeriod m'.pixelClockHz) := by rw [hmode₂]
    have hpos := htrip.clock_pos
    rw [← hclock₂, h0, UInt32.toNat_zero] at hpos
    omega

/-! ## No `-EINVAL` from a switch -/

theorem solve_ne_einval (lim : Limits) (target : ℕ) : solve lim target ≠ .error .einval := by
  intro hc
  rcases solve_cases lim target with ⟨set, hs⟩ | hs <;> rw [hs] at hc <;> cases hc

theorem validateMode_ne_einval {s : Driver} {m : Mode} (hret : s.retunable = true) (hm : m.Complete) :
    validateMode s m ≠ .error .einval := by
  intro hc
  have hz : ¬ (m.hactive = 0 ∨ m.vactive = 0 ∨ m.fps = 0 ∨ m.pixelClockHz = 0) := by
    rwa [not_or, not_or, not_or, ← Mode.complete_iff]
  rw [validateMode, if_neg hz, hret] at hc
  change validateRetunable s m = _ at hc
  unfold validateRetunable at hc
  dsimp only at hc
  split_ifs at hc
  · cases hc
  all_goals
    split at hc
    · rename_i e he
      cases hc
      exact solve_ne_einval _ _ he
    · split_ifs at hc
      cases hc

theorem retuneSetting_ne_einval (s : Driver) (want : Mode) : retuneSetting s want ≠ .error .einval := by
  intro hc
  rw [retuneSetting] at hc
  split_ifs at hc
  cases hs : solve s.lim want.pixelClockHz.toNat with
  | ok set => rw [hs] at hc; cases hc
  | error e =>
    rw [hs] at hc
    cases hc
    exact solve_ne_einval _ _ hs

theorem reprogram_ne_einval (s : Driver) (want : Mode) (set : Option Setting) (o : Outcome) :
    (reprogram s want set o).1 ≠ some .einval := by
  obtain ⟨h1, h2, h3, h4, dmacr, h5⟩ := o
  cases set <;> cases h1 <;> cases h2 <;> cases h3 <;> cases h4 <;> cases h5 <;>
    simp [reprogram, vdmaStart, vdmaHalt, pixclkRetune, Attempt.andThen]

/-- A request for a complete mode never ends with `-EINVAL`. -/
theorem switchMode_ne_einval {σ : Sys} (hret : σ.drv.retunable = true) {m : Mode} (hm : m.Complete) (o : Outcome) :
    (switchMode σ m o).1 ≠ some .einval := by
  unfold switchMode
  split
  · rename_i e he
    exact fun hc => validateMode_ne_einval hret hm (by rw [he, Option.some.inj hc])
  · rename_i want _
    split_ifs
    · exact fun hc => (by cases hc)
    · split
      · rename_i e he
        exact fun hc => retuneSetting_ne_einval σ.drv want (by rw [he, Option.some.inj hc])
      · rename_i set _
        have hne := reprogram_ne_einval σ.drv want set o
        split
        · rename_i e ev he
          rw [he] at hne
          exact hne
        · exact fun hc => (by cases hc)

/-- Setting an accepted var does not fail with `-EINVAL`. -/
theorem setPar_ne_einval {d : Fbdev} (hret : d.sys.drv.retunable = true) {var var' : VarScreenInfo}
    (h : checkVar d.fbs d.sys.drv var = .ok var') (o : Outcome) : (setPar d var o).1 ≠ some (.errno .einval) := by
  obtain ⟨m, m', hm, -, hv, -⟩ := checkVar_ok_iff.mp h
  have hne := switchMode_ne_einval hret (validateMode_complete hv) o
  unfold setPar
  rw [hm]
  dsimp only
  rw [hv]
  dsimp only
  split_ifs
  · exact fun hc => (by cases hc)
  · split
    · rename_i e sys he
      rw [he] at hne
      exact fun hc => hne (by rw [Refusal.errno.inj (Option.some.inj hc)])
    · exact fun hc => (by cases hc)

/-! ## Accepted modes -/

/-- The framebuffer device of the 1080p design. -/
def fullHdDev : Fbdev := register fullHdFbs ⟨fullHd, []⟩

/-- One frame in two seconds, at 100.04 MHz. -/
def slowVar : VarScreenInfo := { hd720Var with pixclock := 9996, rightMargin := 18464, lowerMargin := 9255 }

/-- Around 100.04 MHz out of 100 MHz, nothing but 100 MHz is within 40016 Hz. -/
theorem slowVar_sparse : ∀ div ∈ List.range' 1 10, ∀ o8 ∈ List.range' 8 121, ∀ i ∈ List.range 2,
    1024 < multFloor (advertised 100000000) 100040016 div o8 + i ∨
      achieved (advertised 100000000) div (multFloor (advertised 100000000) 100040016 div o8 + i) o8 = 100000000 ∨
      40016 < freqErr 100040016
        (achieved (advertised 100000000) div (multFloor (advertised 100000000) 100040016 div o8 + i) o8) := by
  decide +kernel

theorem slowVar_solved : ∃ set, solve (advertised 100000000) 100040016 = .ok set ∧ set.achievedHz = 100000000 := by
  have htried : Tried (advertised 100000000) 100040016 1 80 80 := by decide
  obtain ⟨set, hset⟩ := (solve_cases (advertised 100000000) 100040016).resolve_right fun herr =>
    (solve_error_iff (by decide)).mp herr 1 80 80 htried (by decide)
  refine ⟨set, hset, ?_⟩
  obtain ⟨⟨div, m8, o8, ht, rfl⟩, -, hbest⟩ := solve_ok (by decide) hset
  have hclose : freqErr 100040016 (achieved (advertised 100000000) div m8 o8) ≤ 40016 := hbest 1 80 80 htried
  have hmult := ht.1.mult_le
  obtain ⟨hdiv, ho8, i, hi, rfl⟩ := ht.mem_box (D := 10) (B := 129) (by decide) (by decide) (by decide)
  rcases slowVar_sparse div hdiv o8 ho8 i hi with hbig | hhit | hfar
  · omega
  · exact hhit
  · omega

end Soceteer.Dp
