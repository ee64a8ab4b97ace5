import Soceteer.Clk.Wzrd

/-!
# Soceteer.Dp.Mode — video modes and `soct_dp_validate_mode`

* `Mode`: a complete timing with its pixel clock, all fields `u32`; equality is `memcmp`.
* `Driver`: the driver's static state as far as modes depend on it.
* `validateMode`: whether a design can serve a mode, with the pixel clock rewritten to the achieved one.
* `validateMode_ok_iff`: the two ways a mode is accepted.
* `validateMode_idempotent`: an accepted mode is accepted again, unchanged.
-/

namespace Soceteer.Dp

open Clk

/-- `struct soct_dp_mode`. -/
structure Mode where
  hactive : UInt32
  hfrontPorch : UInt32
  hsyncLen : UInt32
  hbackPorch : UInt32
  vactive : UInt32
  vfrontPorch : UInt32
  vsyncLen : UInt32
  vbackPorch : UInt32
  hsyncActive : UInt32
  vsyncActive : UInt32
  fps : UInt32
  pixelClockHz : UInt32
deriving DecidableEq

/-- The mode `memset` leaves. -/
def Mode.zero : Mode := ⟨0, 0, 0, 0, 0, 0, 0, 0, 0, 0, 0, 0⟩

/-- The static state `s` of `dp-main.c`: `cur` is what the pipeline is scanning, `lim` and `maxHz` the retune
budget. -/
structure Driver where
  fb : ℕ
  fbSize : ℕ
  cur : Mode
  retunable : Bool
  lim : Limits
  maxHz : UInt32

/-- `abs_diff`. -/
def absDiff (a b : UInt32) : ℕ := if a.toNat > b.toNat then a.toNat - b.toNat else b.toNat - a.toNat

/-- The branch of `soct_dp_validate_mode` for static designs: only the synthesized mode exists. -/
def validateStatic (s : Driver) (m : Mode) : Except Errno Mode :=
  let t := { m with pixelClockHz := s.cur.pixelClockHz }
  if absDiff m.pixelClockHz s.cur.pixelClockHz * 200 > s.cur.pixelClockHz.toNat ∨ t ≠ s.cur then .error .eopnotsupp
  else .ok t

/-- The branch for retunable designs; the sum is a `u32`. -/
def validateRetunable (s : Driver) (m : Mode) : Except Errno Mode :=
  if m.pixelClockHz > s.maxHz + s.maxHz / 200 then .error .edom
  else
    let clock := if m.pixelClockHz > s.maxHz then s.maxHz else m.pixelClockHz
    match solve s.lim clock.toNat with
    | .error e => .error e
    | .ok set =>
      if set.achievedHz > s.maxHz.toNat then .error .edom
      else .ok { m with pixelClockHz := UInt32.ofNat set.achievedHz }

/-- `soct_dp_validate_mode`. -/
def validateMode (s : Driver) (m : Mode) : Except Errno Mode :=
  if m.hactive = 0 ∨ m.vactive = 0 ∨ m.fps = 0 ∨ m.pixelClockHz = 0 then .error .einval
  else if !s.retunable then validateStatic s m
  else validateRetunable s m

/-- The fields a mode needs. -/
@[mk_iff] structure Mode.Complete (m : Mode) : Prop where
  hactive : m.hactive ≠ 0
  vactive : m.vactive ≠ 0
  fps : m.fps ≠ 0
  pixelClockHz : m.pixelClockHz ≠ 0

instance (m : Mode) : Decidable m.Complete := decidable_of_iff' _ (Mode.complete_iff m)

theorem Mode.Complete.ne_zero {m : Mode} (h : m.Complete) : m ≠ Mode.zero := fun hc => h.hactive (by rw [hc]; rfl)

/-- How a mode is accepted on a retunable design. -/
structure Retuned (s : Driver) (m m' : Mode) (set : Setting) : Prop where
  ceiling : ¬ m.pixelClockHz > s.maxHz + s.maxHz / 200
  solved : solve s.lim (if m.pixelClockHz > s.maxHz then s.maxHz else m.pixelClockHz).toNat = .ok set
  below : set.achievedHz ≤ s.maxHz.toNat
  rewritten : m' = { m with pixelClockHz := UInt32.ofNat set.achievedHz }

/-- **Acceptance.** -/
theorem validateMode_ok_iff {s : Driver} {m m' : Mode} : validateMode s m = .ok m' ↔ m.Complete ∧
    ((s.retunable = false ∧ absDiff m.pixelClockHz s.cur.pixelClockHz * 200 ≤ s.cur.pixelClockHz.toNat ∧
        { m with pixelClockHz := s.cur.pixelClockHz } = s.cur ∧ m' = s.cur) ∨
      (s.retunable = true ∧ ∃ set, Retuned s m m' set)) := by
  have hcomplete : ¬ (m.hactive = 0 ∨ m.vactive = 0 ∨ m.fps = 0 ∨ m.pixelClockHz = 0) ↔ m.Complete := by
    rw [Mode.complete_iff, not_or, not_or, not_or]
  unfold validateMode
  by_cases hz : m.hactive = 0 ∨ m.vactive = 0 ∨ m.fps = 0 ∨ m.pixelClockHz = 0
  · rw [if_pos hz]
    exact ⟨fun h => (by cases h), fun h => absurd hz (hcomplete.mpr h.1)⟩
  · rw [if_neg hz]
    have hc := hcomplete.mp hz
    cases hr : s.retunable with
    | false =>
      change validateStatic s m = _ ↔ _
      unfold validateStatic
      dsimp only
      constructor
      · intro h
        split_ifs at h with hno
        cases h
        push Not at hno
        exact ⟨hc, Or.inl ⟨rfl, hno.1, hno.2, hno.2⟩⟩
      · rintro ⟨-, ⟨-, h1, h2, rfl⟩ | ⟨hf, -⟩⟩
        · rw [if_neg (by push Not; exact ⟨h1, h2⟩), h2]
        · cases hf
    | true =>
      change validateRetunable s m = _ ↔ _
      unfold validateRetunable
      dsimp only
      constructor
      · intro h
        by_cases hceil : m.pixelClockHz > s.maxHz + s.maxHz / 200
        · rw [if_pos hceil] at h
          cases h
        · rw [if_neg hceil] at h
          split at h
          · cases h
          · rename_i set hset
            split_ifs at h with hbelow
            cases h
            exact ⟨hc, Or.inr ⟨rfl, set, hceil, hset, Nat.not_lt.mp hbelow, rfl⟩⟩
      · rintro ⟨-, ⟨hf, -⟩ | ⟨-, set, h1, h2, h3, rfl⟩⟩
        · cases hf
        · rw [if_neg h1, h2]
          exact if_neg (Nat.not_lt.mpr h3)

/-- Validation rewrites the clock and nothing else. -/
theorem validateMode_geometry {s : Driver} {m m' : Mode} (h : validateMode s m = .ok m') :
    m' = { m with pixelClockHz := m'.pixelClockHz } := by
  obtain ⟨-, ⟨-, -, hgeom, rfl⟩ | ⟨-, set, hret⟩⟩ := validateMode_ok_iff.mp h
  · exact hgeom.symm
  · rw [hret.rewritten]

theorem Retuned.clock {s : Driver} {m m' : Mode} {set : Setting} (h : Retuned s m m' set) :
    m'.pixelClockHz.toNat = set.achievedHz := by
  rw [h.rewritten]
  exact UInt32.toNat_ofNat_of_lt (solve_pos (UInt32.toNat_lt _) h.solved).2

/-- An accepted mode is complete. -/
theorem validateMode_complete {s : Driver} {m m' : Mode} (h : validateMode s m = .ok m') : m'.Complete := by
  obtain ⟨hm, ⟨hr, hdiff, hgeom, rfl⟩ | ⟨hr, set, hret⟩⟩ := validateMode_ok_iff.mp h
  · have hclock : s.cur.pixelClockHz ≠ 0 := fun hc => by
      -- a clock within 0.5% of zero would be zero
      have hpos : m.pixelClockHz.toNat ≠ 0 := fun h0 => hm.pixelClockHz (UInt32.toNat_inj.mp h0)
      rw [hc] at hdiff
      simp only [absDiff, UInt32.toNat_zero] at hdiff
      split_ifs at hdiff <;> omega
    rw [← hgeom] at hclock ⊢
    exact ⟨hm.hactive, hm.vactive, hm.fps, hclock⟩
  · have hclock : m'.pixelClockHz ≠ 0 := fun hc => by
      have hpos := (solve_pos (UInt32.toNat_lt _) hret.solved).1
      rw [← hret.clock, hc] at hpos
      exact absurd hpos (by decide)
    rw [hret.rewritten] at hclock ⊢
    exact ⟨hm.hactive, hm.vactive, hm.fps, hclock⟩

/-- What solving for the clock of an accepted mode gives. -/
theorem Retuned.solved_again {s : Driver} {m m' : Mode} {set : Setting} (h : Retuned s m m' set)
    (hfine : FineGrid s.lim) :
    ∃ set', solve s.lim m'.pixelClockHz.toNat = .ok set' ∧ set'.achievedHz = m'.pixelClockHz.toNat := by
  rw [h.clock]
  exact solve_achieved hfine (UInt32.toNat_lt _) h.solved

/-- **Validation is idempotent** unless the ceiling with its slack leaves 32 bits; on a retunable design the
accepted clock is the one the solver achieves for it. -/
theorem validateMode_idempotent {s : Driver} (hpfd : 1024 ≤ s.lim.pfdMinHz)
    (hceil : s.maxHz.toNat + s.maxHz.toNat / 200 < 2 ^ 32) {m m' : Mode} (h : validateMode s m = .ok m') :
    validateMode s m' = .ok m' ∧ (s.retunable = true →
      ∃ set, solve s.lim m'.pixelClockHz.toNat = .ok set ∧ set.achievedHz = m'.pixelClockHz.toNat) := by
  have hm' := validateMode_complete h
  obtain ⟨hm, ⟨hr, -, -, rfl⟩ | ⟨hr, set, hret⟩⟩ := validateMode_ok_iff.mp h
  · refine ⟨validateMode_ok_iff.mpr ⟨hm', Or.inl ⟨hr, ?_, rfl, rfl⟩⟩, fun hc => ?_⟩
    · simp [absDiff]
    · rw [hr] at hc
      cases hc
  · obtain ⟨set', hset', hach⟩ := hret.solved_again (fineGrid_of_pfdMin hpfd)
    have hbelow : m'.pixelClockHz.toNat ≤ s.maxHz.toNat := hret.clock ▸ hret.below
    refine ⟨validateMode_ok_iff.mpr ⟨hm', Or.inr ⟨hr, set', ?_, ?_, ?_, ?_⟩⟩, fun _ => ⟨set', hset', hach⟩⟩
    · rw [UInt32.not_lt, UInt32.le_iff_toNat_le, UInt32.toNat_add, UInt32.toNat_div]
      rw [show (200 : UInt32).toNat = 200 from rfl, Nat.mod_eq_of_lt hceil]
      omega
    · rw [if_neg]
      · exact hset'
      · rw [UInt32.not_lt, UInt32.le_iff_toNat_le]
        exact hbelow
    · rw [hach]
      exact hbelow
    · rw [hach, UInt32.ofNat_toNat]

/-- A 1080p design with a 100 MHz input. -/
def fullHd : Driver where
  fb := 0x80000000
  fbSize := 0x1000000
  cur := ⟨1920, 88, 44, 148, 1080, 4, 5, 36, 1, 1, 60, 148500000⟩
  retunable := true
  lim := advertised 100000000
  maxHz := 148500000

def hd720 : Mode := ⟨1280, 110, 40, 220, 720, 5, 5, 20, 1, 1, 60, 74250000⟩

theorem hd720_solved : ∃ set, solve fullHd.lim hd720.pixelClockHz.toNat = .ok set ∧
    set.achievedHz = hd720.pixelClockHz.toNat := by
  have htried : Tried (advertised 100000000) 74250000 4 297 100 := by decide
  exact solve_exact (by decide) htried (by decide)

theorem fullHd_accepts_hd720 : validateMode fullHd hd720 = .ok hd720 := by
  obtain ⟨set, hset, hach⟩ := hd720_solved
  refine validateMode_ok_iff.mpr ⟨by decide, Or.inr ⟨rfl, set, by decide, hset, ?_, ?_⟩⟩
  · rw [hach]
    decide
  · rw [hach]
    rfl

/-- The input clock itself is a setting. -/
theorem fullHd_accepts_input {m : Mode} (hm : m.Complete) (hclock : m.pixelClockHz = 100000000) :
    validateMode fullHd m = .ok m := by
  have htried : Tried (advertised 100000000) 100000000 1 80 80 := by decide
  obtain ⟨set, hset, hach⟩ := solve_exact (by decide) htried (by decide)
  refine validateMode_ok_iff.mpr ⟨hm, Or.inr ⟨rfl, set, ?_, ?_, ?_, ?_⟩⟩
  · rw [hclock]
    decide
  · rw [hclock]
    exact hset
  · rw [hach]
    decide
  · rw [hach]
    exact congrArg (fun c => { m with pixelClockHz := c }) hclock

theorem hd720_idempotent : validateMode fullHd hd720 = .ok hd720 ∧ (fullHd.retunable = true →
    ∃ set, solve fullHd.lim hd720.pixelClockHz.toNat = .ok set ∧ set.achievedHz = hd720.pixelClockHz.toNat) :=
  validateMode_idempotent (s := fullHd) (by decide) (by decide) fullHd_accepts_hd720

/-- A pixel-clkwiz node without `soct,pfd-max`: the rest of the budget is read, but the design stays static. -/
def partialBudget : Driver where
  fb := 0x80000000
  fbSize := 0x1000000
  cur := ⟨1920, 88, 44, 148, 1080, 4, 5, 36, 1, 1, 60, 148500000⟩
  retunable := false
  lim := { advertised 100000000 with pfdMaxHz := 0, pfdMax_lt := by decide }
  maxHz := 148500000

/-- Its one mode is accepted, but the solver finds no setting for it. -/
theorem partialBudget_not_solved :
    1024 ≤ partialBudget.lim.pfdMinHz ∧ validateMode partialBudget partialBudget.cur = .ok partialBudget.cur ∧
      ¬ ∃ set, solve partialBudget.lim partialBudget.cur.pixelClockHz.toNat = .ok set := by
  refine ⟨by decide, by decide, ?_⟩
  rintro ⟨set, hset⟩
  obtain ⟨⟨div, m8, o8, ht, -⟩, -⟩ := solve_ok (UInt32.toNat_lt _) hset
  have h := ht.1.pfd_le
  simp [partialBudget, advertised] at h

end Soceteer.Dp
