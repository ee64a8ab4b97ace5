import Soceteer.Dp.Var
import Soceteer.Video.Cvt

/-!
# Soceteer.Video.Fbmode — the `fbmode` tool

The user space end of mode switching: a list of well-known modes, reduced blanking for everything else.

* `cvtRb`: reduced blanking in C's integers; the six products and sums before the widening are 32 bits wide.
* `customMode`: `--custom`, the listed structure where there is one.
* `cvtRb_exact`: when nothing wraps around, `cvtRb` is the standard's computation.
* `customMode_asked`: what a request gets.
* `cvtRb_agrees`: tool and generator compute one timing, with the least vertical blank.
-/

namespace Soceteer.Video.Fbmode

open Dp

/-! ## The model -/

/-- `struct mode`, without the name that is printed. -/
structure Mode where
  w : UInt32
  h : UInt32
  fps : UInt32
  clockHz : UInt64
  hfp : UInt32
  hsync : UInt32
  hbp : UInt32
  vfp : UInt32
  vsync : UInt32
  vbp : UInt32
  hpos : Int32
  vpos : Int32
deriving DecidableEq

/-- The exact standard structures (CEA-861 and VESA DMT). -/
def standard : List Mode :=
  [⟨640, 480, 60, 25175000, 16, 96, 48, 10, 2, 33, 0, 0⟩,
    ⟨800, 600, 60, 40000000, 40, 128, 88, 1, 4, 23, 1, 1⟩,
    ⟨1024, 768, 60, 65000000, 24, 136, 160, 3, 6, 29, 0, 0⟩,
    ⟨1280, 720, 60, 74250000, 110, 40, 220, 5, 5, 20, 1, 1⟩,
    ⟨1280, 1024, 60, 108000000, 48, 112, 248, 1, 3, 38, 1, 1⟩,
    ⟨1920, 1080, 30, 74250000, 88, 44, 148, 4, 5, 36, 1, 1⟩,
    ⟨1920, 1080, 60, 148500000, 88, 44, 148, 4, 5, 36, 1, 1⟩]

/-- The sync width, of 32-bit products. -/
def vsyncOf (w h : UInt32) : UInt32 :=
  if w * 3 = h * 4 then 4
  else if w * 9 = h * 16 then 5
  else if w * 10 = h * 16 then 6
  else if w * 4 = h * 5 then 7
  else if w * 9 = h * 15 then 7
  else 10

/-- `cvt_rb`; `none` is the refusal of a rate that leaves no room for the vertical blank. -/
def cvtRb (w h fps : UInt32) : Option Mode :=
  let vsync := vsyncOf w h
  if 460 * fps.toUInt64 ≥ 1000000 then none
  else
    let lines := (460 * h.toUInt64 * fps.toUInt64 / (1000000 - 460 * fps.toUInt64)).toUInt32 + 1
    let minVbi := 3 + vsync + 6
    let vbi := if lines < minVbi then minVbi else lines
    some
      { w := w
        h := h
        fps := fps
        hfp := 48
        hsync := 32
        hbp := 80
        vfp := 3
        vsync := vsync
        vbp := vbi - 3 - vsync
        hpos := 1
        vpos := 0
        clockHz := (w + 160).toUInt64 * (h + vbi).toUInt64 * fps.toUInt64 }

/-- The last entry that passes the test: the searches overwrite what they found. -/
def lastMatch (p : Mode → Bool) (l : List Mode) : Option Mode :=
  l.foldl (fun found m => if p m then some m else found) none

/-- The geometries of the presented list. -/
def geo : List (UInt32 × UInt32) := [(640, 480), (800, 600), (1024, 768), (1280, 720), (1280, 1024), (1920, 1080)]

/-- `build_modes`: every geometry at 30 and 60 Hz. -/
def modes : List Mode :=
  geo.flatMap fun g => ([30, 60] : List UInt32).filterMap fun fps =>
    match lastMatch (fun m => m.w = g.1 ∧ m.h = g.2 ∧ m.fps = fps) standard with
    | some m => some m
    | none => cvtRb g.1 g.2 fps

/-- The mode of `--custom`: the arguments are compared in 64 bits and narrowed at the call of `cvt_rb`. -/
def customMode (w h fps : UInt64) : Option Mode :=
  match lastMatch (fun m => m.w.toUInt64 = w ∧ m.h.toUInt64 = h ∧ m.fps.toUInt64 = fps) modes with
  | some m => some m
  | none => cvtRb w.toUInt32 h.toUInt32 fps.toUInt32

/-- `mode_to_var`; `none` is its division by zero. -/
def modeToVar (m : Mode) (var : VarScreenInfo) : Option VarScreenInfo :=
  if m.clockHz = 0 then none
  else some
    { var with
      xres := m.w
      xresVirtual := m.w
      yres := m.h
      yresVirtual := m.h
      xoffset := 0
      yoffset := 0
      bitsPerPixel := 24
      pixclock := ((2000000000000 / m.clockHz + 1) / 2).toUInt32
      rightMargin := m.hfp
      hsyncLen := m.hsync
      leftMargin := m.hbp
      lowerMargin := m.vfp
      vsyncLen := m.vsync
      upperMargin := m.vbp
      sync := (if m.hpos ≠ 0 then 1 else 0) ||| (if m.vpos ≠ 0 then 2 else 0)
      vmode := 0
      activate := 0 }

/-! ## The standard's computation -/

/-- The mode is the standard's, with the clock of its totals. -/
structure Mode.IsCvt (m : Mode) (w h fps : ℕ) : Prop where
  width : m.w.toNat = w
  height : m.h.toNat = h
  rate : m.fps.toNat = fps
  horizontal : m.hfp = 48 ∧ m.hsync = 32 ∧ m.hbp = 80
  vfp : m.vfp = 3
  vsync : m.vsync.toNat = Cvt.vsync w h
  vbp : m.vbp.toNat = Cvt.vbi w h fps - 3 - Cvt.vsync w h
  polarity : m.hpos = 1 ∧ m.vpos = 0
  clock : m.clockHz.toNat = Cvt.clock w h fps

/-- Nothing on the way to the clock leaves its type, or the rate that is left of `fps` is refused. -/
structure NoWrap (w h fps : ℕ) : Prop where
  width : w * 10 < 2 ^ 32
  height : h * 16 < 2 ^ 32
  rate : fps < 2 ^ 32 ∨ 1000000 ≤ 460 * (fps % 2 ^ 32)
  vtotal : 460 * fps < 1000000 → h + Cvt.vbi w h fps < 2 ^ 32
  clock : 460 * fps < 1000000 → Cvt.clock w h fps < 2 ^ 64

/-- The pairs of factors the aspect ratio tests multiply by. -/
def ratios : List (UInt32 × UInt32) := [(3, 4), (9, 16), (10, 16), (4, 5), (9, 15)]

section Exact

variable {w h fps : UInt32}

theorem products_exact (hnw : NoWrap w.toNat h.toNat fps.toNat) :
    ∀ r ∈ ratios, (w * r.1).toNat = w.toNat * r.1.toNat ∧ (h * r.2).toNat = h.toNat * r.2.toNat := by
  intro r hr
  have hfactors : r.1.toNat ≤ 10 ∧ r.2.toNat ≤ 16 := by
    revert r
    simp [ratios]
  have hwr : w.toNat * r.1.toNat ≤ w.toNat * 10 := Nat.mul_le_mul_left _ hfactors.1
  have hhr : h.toNat * r.2.toNat ≤ h.toNat * 16 := Nat.mul_le_mul_left _ hfactors.2
  have hw := hnw.width
  have hh := hnw.height
  rw [UInt32.toNat_mul, UInt32.toNat_mul, Nat.mod_eq_of_lt (by omega), Nat.mod_eq_of_lt (by omega)]
  exact ⟨rfl, rfl⟩

theorem vsyncOf_exact (hnw : NoWrap w.toNat h.toNat fps.toNat) :
    (vsyncOf w h).toNat = Cvt.vsync w.toNat h.toNat := by
  have ratio : ∀ r ∈ ratios, (w * r.1 = h * r.2 ↔ w.toNat * r.1.toNat = h.toNat * r.2.toNat) := by
    intro r hr
    rw [← (products_exact hnw r hr).1, ← (products_exact hnw r hr).2]
    exact UInt32.toNat_inj.symm
  simp only [ratios, List.forall_mem_cons] at ratio
  obtain ⟨h43, h169, h1610, h54, h159, -⟩ := ratio
  unfold vsyncOf Cvt.vsync
  simp only [apply_ite UInt32.toNat]
  exact if_congr h43 rfl (if_congr h169 rfl (if_congr h1610 rfl (if_congr h54 rfl (if_congr h159 rfl rfl))))

theorem rate_exact : (460 * fps.toUInt64).toNat = 460 * fps.toNat := by
  have := fps.toNat_lt
  rw [UInt64.toNat_mul, UInt32.toNat_toUInt64]
  change 460 * _ % 2 ^ 64 = _
  omega

theorem toNat_raise (a b : UInt32) : (if a < b then b else a).toNat = max a.toNat b.toNat := by
  split_ifs with hlt
  · exact (max_eq_right (UInt32.lt_iff_toNat_lt.mp hlt).le).symm
  · exact (max_eq_left (UInt32.le_iff_toNat_le.mp (UInt32.not_lt.mp hlt))).symm

/-- The quotient is exact in 64 bits and stays exact when it is narrowed. -/
theorem lines_exact (hnw : NoWrap w.toNat h.toNat fps.toNat) (hf : 460 * fps.toNat < 1000000) :
    ((460 * h.toUInt64 * fps.toUInt64 / (1000000 - 460 * fps.toUInt64)).toUInt32 + 1).toNat =
      Cvt.lines h.toNat fps.toNat := by
  have hh := hnw.height
  have hle : Cvt.lines h.toNat fps.toNat ≤ Cvt.vbi w.toNat h.toNat fps.toNat := le_max_left _ _
  have hlt := hnw.vtotal hf
  have hprod : 460 * h.toNat * fps.toNat < 2 ^ 64 := by
    have : h.toNat * (460 * fps.toNat) < 2 ^ 28 * 2 ^ 20 := Nat.mul_lt_mul'' (by omega) (by omega)
    have hcomm : 460 * h.toNat * fps.toNat = h.toNat * (460 * fps.toNat) := by ring
    omega
  have hnum : (460 * h.toUInt64 * fps.toUInt64).toNat = 460 * h.toNat * fps.toNat := by
    have h460 : (460 * h.toUInt64).toNat = 460 * h.toNat := rate_exact
    rw [UInt64.toNat_mul, h460, UInt32.toNat_toUInt64]
    exact Nat.mod_eq_of_lt hprod
  have hden : (1000000 - 460 * fps.toUInt64).toNat = 1000000 - 460 * fps.toNat := by
    have hsub : 460 * fps.toUInt64 ≤ 1000000 := by
      rw [UInt64.le_iff_toNat_le, rate_exact]
      exact hf.le
    rw [UInt64.toNat_sub_of_le _ _ hsub, rate_exact]
    rfl
  have hdef : Cvt.lines h.toNat fps.toNat = 460 * h.toNat * fps.toNat / (1000000 - 460 * fps.toNat) + 1 := rfl
  rw [UInt32.toNat_add, UInt64.toNat_toUInt32, UInt64.toNat_div, hnum, hden]
  change (_ + 1) % 2 ^ 32 = _
  omega

/-- **`cvt_rb` is the standard's computation** when nothing wraps around; it refuses exactly the rates the standard
has no blank for. -/
theorem cvtRb_exact (hnw : NoWrap w.toNat h.toNat fps.toNat) :
    (1000000 ≤ 460 * fps.toNat ∧ cvtRb w h fps = none) ∨
      460 * fps.toNat < 1000000 ∧ ∃ m, cvtRb w h fps = some m ∧ m.IsCvt w.toNat h.toNat fps.toNat := by
  have htest : 460 * fps.toUInt64 ≥ 1000000 ↔ 1000000 ≤ 460 * fps.toNat := by
    rw [ge_iff_le, UInt64.le_iff_toNat_le, rate_exact]
    rfl
  have hvsync := vsyncOf_exact hnw
  unfold cvtRb
  by_cases hf : 1000000 ≤ 460 * fps.toNat
  · rw [if_pos (htest.mpr hf)]
    exact .inl ⟨hf, rfl⟩
  rw [if_neg (fun hc => hf (htest.mp hc))]
  rw [not_le] at hf
  refine .inr ⟨hf, _, rfl, ?_⟩
  have hlines := lines_exact hnw hf
  have hlt := hnw.vtotal hf
  have hw := hnw.width
  obtain ⟨hs4, hs10⟩ := Cvt.vsync_bounds w.toNat h.toNat
  have hfloor : 3 + Cvt.vsync w.toNat h.toNat + 6 ≤ Cvt.vbi w.toNat h.toNat fps.toNat := le_max_right _ _
  have hmin : (3 + vsyncOf w h + 6).toNat = 3 + Cvt.vsync w.toNat h.toNat + 6 := by
    rw [UInt32.toNat_add, UInt32.toNat_add, hvsync]
    change ((3 + _) % 2 ^ 32 + 6) % 2 ^ 32 = _
    omega
  set lines := (460 * h.toUInt64 * fps.toUInt64 / (1000000 - 460 * fps.toUInt64)).toUInt32 + 1
  have hvbi : (if lines < 3 + vsyncOf w h + 6 then 3 + vsyncOf w h + 6 else lines).toNat =
      Cvt.vbi w.toNat h.toNat fps.toNat := by
    rw [toNat_raise, hlines, hmin]
    rfl
  set vbi := if lines < 3 + vsyncOf w h + 6 then 3 + vsyncOf w h + 6 else lines
  have hframe : (h + vbi).toNat = h.toNat + Cvt.vbi w.toNat h.toNat fps.toNat := by
    rw [UInt32.toNat_add, hvbi]
    omega
  have hline : (w + 160).toNat = w.toNat + 160 := by
    rw [UInt32.toNat_add]
    change (_ + 160) % 2 ^ 32 = _
    omega
  refine ⟨rfl, rfl, rfl, ⟨rfl, rfl, rfl⟩, rfl, hvsync, ?_, ⟨rfl, rfl⟩, ?_⟩
  · have h3 : 3 ≤ vbi := by
      rw [UInt32.le_iff_toNat_le, hvbi]
      change 3 ≤ _
      omega
    have hsub : vsyncOf w h ≤ vbi - 3 := by
      rw [UInt32.le_iff_toNat_le, UInt32.toNat_sub_of_le _ _ h3, hvbi, hvsync]
      change _ ≤ _ - 3
      omega
    rw [UInt32.toNat_sub_of_le _ _ hsub, UInt32.toNat_sub_of_le _ _ h3, hvbi, hvsync]
    rfl
  · have hclock := hnw.clock hf
    unfold Cvt.clock at hclock ⊢
    rw [UInt64.toNat_mul, UInt64.toNat_mul, UInt32.toNat_toUInt64, UInt32.toNat_toUInt64,
      UInt32.toNat_toUInt64, hline,
      hframe, Nat.mod_mul_mod]
    exact Nat.mod_eq_of_lt hclock

end Exact

/-! ## Requests -/

/-- The arguments are the geometry and the rate of the entry. -/
def Mode.Named (m : Mode) (w h fps : UInt64) : Prop := m.w.toUInt64 = w ∧ m.h.toUInt64 = h ∧ m.fps.toUInt64 = fps

instance (m : Mode) (w h fps : UInt64) : Decidable (m.Named w h fps) := inferInstanceAs (Decidable (_ ∧ _))

/-- The var asks the kernel for the geometry and the blanking of the mode. -/
structure Mode.Asked (m : Mode) (var : VarScreenInfo) : Prop where
  geometry : var.xres = m.w ∧ var.yres = m.h
  horizontal : var.rightMargin = m.hfp ∧ var.hsyncLen = m.hsync ∧ var.leftMargin = m.hbp
  vertical : var.lowerMargin = m.vfp ∧ var.vsyncLen = m.vsync ∧ var.upperMargin = m.vbp

/-- The request is refused, or the kernel is asked for the standard's mode; the sync width is chosen by exact
products. -/
def AsAsked (w h fps : UInt64) (var : VarScreenInfo) : Prop :=
  (customMode w h fps = none ∨ ∃ m var', customMode w h fps = some m ∧ m.IsCvt w.toNat h.toNat fps.toNat ∧
    m.clockHz ≠ 0 ∧ modeToVar m var = some var' ∧ m.Asked var') ∧
  ∀ r ∈ ratios, (w.toUInt32 * r.1).toNat = w.toNat * r.1.toNat ∧ (h.toUInt32 * r.2).toNat = h.toNat * r.2.toNat

theorem foldl_lastMatch {p : Mode → Bool} {m : Mode} : ∀ (l : List Mode) (found : Option Mode),
    l.foldl (fun found m => if p m then some m else found) found = some m → found = some m ∨ m ∈ l ∧ p m
  | [], _, h => .inl h
  | x :: l, found, h => by
    rcases foldl_lastMatch l _ h with hx | ⟨hmem, hp⟩
    · dsimp only at hx
      split_ifs at hx with hpx
      · cases hx
        exact .inr ⟨List.mem_cons_self, hpx⟩
      · exact .inl hx
    · exact .inr ⟨List.mem_cons_of_mem _ hmem, hp⟩

theorem lastMatch_some {p : Mode → Bool} {l : List Mode} {m : Mode}
    (h : lastMatch p l = some m) : m ∈ l ∧ p m := by
  rcases foldl_lastMatch l none h with hnone | hmem
  · cases hnone
  · exact hmem

/-- What the list adds to the standard structures is computed. -/
theorem modes_computed : ∀ m ∈ modes, m ∈ standard ∨ cvtRb m.w m.h m.fps = some m := by decide

theorem standard_listed :
    ∀ m ∈ standard, customMode m.w.toUInt64 m.h.toUInt64 m.fps.toUInt64 = some m ∧ m.clockHz ≠ 0 := by
  decide

theorem customMode_eq_cvtRb {w h fps : UInt64} (hstd : ∀ m ∈ standard, ¬ m.Named w h fps) :
    customMode w h fps = cvtRb w.toUInt32 h.toUInt32 fps.toUInt32 := by
  unfold customMode
  split
  · rename_i m hlast
    obtain ⟨hmem, hnamed⟩ := lastMatch_some hlast
    rw [decide_eq_true_eq] at hnamed
    obtain hs | hcvt := modes_computed m hmem
    · exact absurd hnamed (hstd m hs)
    · obtain ⟨rfl, rfl, rfl⟩ := hnamed
      simp only [UInt32.toUInt32_toUInt64]
      exact hcvt.symm
  · rfl

theorem modeToVar_asked {m : Mode} (hclock : m.clockHz ≠ 0) (var : VarScreenInfo) :
    ∃ var', modeToVar m var = some var' ∧ m.Asked var' := by
  unfold modeToVar
  rw [if_neg hclock]
  exact ⟨_, rfl, ⟨rfl, rfl⟩, ⟨rfl, rfl, rfl⟩, ⟨rfl, rfl, rfl⟩⟩

theorem Mode.IsCvt.clockHz_ne {m : Mode} {w h fps : ℕ} (hm : m.IsCvt w h fps) (hh : 0 < h) (hf : 0 < fps) :
    m.clockHz ≠ 0 := by
  intro hzero
  have hclock := hm.clock
  rw [hzero] at hclock
  exact (Cvt.clock_pos hf hh).ne hclock

theorem toNat_narrow {a : UInt64} (h : a.toNat < 2 ^ 32) : a.toUInt32.toNat = a.toNat := by
  rw [UInt64.toNat_toUInt32]
  exact Nat.mod_eq_of_lt h

/-- **What `--custom` gets**: a standard structure as it is listed, for everything else the standard's computation
or a refusal, as long as nothing wraps around. -/
theorem customMode_asked (w h fps : UInt64) (hw : w ≠ 0) (hh : h ≠ 0) (hf : fps ≠ 0) (var : VarScreenInfo) :
    (∀ m ∈ standard, m.Named w h fps → customMode w h fps = some m ∧ m.clockHz ≠ 0 ∧
      ∃ var', modeToVar m var = some var' ∧ m.Asked var') ∧
    ((∀ m ∈ standard, ¬ m.Named w h fps) → NoWrap w.toNat h.toNat fps.toNat → AsAsked w h fps var) := by
  constructor
  · rintro m hm ⟨rfl, rfl, rfl⟩
    obtain ⟨hlisted, hclock⟩ := standard_listed m hm
    exact ⟨hlisted, hclock, modeToVar_asked hclock var⟩
  · intro hstd hnw
    have hpos : ∀ {a : UInt64}, a ≠ 0 → 0 < a.toNat := fun {a} ha =>
      Nat.pos_of_ne_zero fun hz => ha (UInt64.toNat_inj.mp hz)
    have hw32 := toNat_narrow (a := w) (by have := hnw.width; omega)
    have hh32 := toNat_narrow (a := h) (by have := hnw.height; omega)
    have hf32 : fps.toUInt32.toNat = fps.toNat % 2 ^ 32 := UInt64.toNat_toUInt32 fps
    have hsame : 460 * fps.toUInt32.toNat < 1000000 → fps.toUInt32.toNat = fps.toNat := by
      intro hlt
      rw [hf32] at hlt ⊢
      exact Nat.mod_eq_of_lt (hnw.rate.resolve_right (by omega))
    have hnw32 : NoWrap w.toUInt32.toNat h.toUInt32.toNat fps.toUInt32.toNat := by
      rw [hw32, hh32]
      refine ⟨hnw.width, hnw.height, .inl fps.toUInt32.toNat_lt, fun hlt => ?_, fun hlt => ?_⟩
      · have heq := hsame hlt
        rw [heq] at hlt ⊢
        exact hnw.vtotal hlt
      · have heq := hsame hlt
        rw [heq] at hlt ⊢
        exact hnw.clock hlt
    constructor
    · rw [customMode_eq_cvtRb hstd]
      obtain ⟨-, hnone⟩ | ⟨hlt, m, hm, hcvt⟩ := cvtRb_exact hnw32
      · exact .inl hnone
      · rw [hw32, hh32, hsame hlt] at hcvt
        have hclock := hcvt.clockHz_ne (hpos hh) (hpos hf)
        obtain ⟨var', hvar', hasked⟩ := modeToVar_asked hclock var
        exact .inr ⟨m, var', hm, hcvt, hclock, hvar', hasked⟩
    · have hexact := products_exact hnw32
      rw [hw32, hh32] at hexact
      exact hexact

/-- A width no table carries. -/
theorem wide_asked : AsAsked 1366 768 60 VarScreenInfo.zero :=
  (customMode_asked 1366 768 60 (by decide) (by decide) (by decide) VarScreenInfo.zero).2 (by decide)
    ⟨by decide, by decide, by decide, fun _ => by decide, fun _ => by decide⟩

/-- 800x600 at 60 Hz has the standard clock of 40 MHz, reduced blanking would take 35.6 MHz. -/
theorem svga_not_asked : ¬ AsAsked 800 600 60 VarScreenInfo.zero := by
  rintro ⟨hnone | ⟨m, var', hm, hcvt, -⟩, -⟩
  · exact absurd hnone (by decide)
  · have hlisted : customMode 800 600 60 = some ⟨800, 600, 60, 40000000, 40, 128, 88, 1, 4, 23, 1, 1⟩ := by
      decide
    rw [hlisted] at hm
    cases hm
    have hclock := hcvt.clock
    revert hclock
    decide

/-! ## The generator -/

/-- Both timings have the same blanking, polarities and clock. -/
structure Agrees (m : Mode) (t : VideoTiming) : Prop where
  horizontal : m.hfp.toNat = t.hFrontPorch.toInt ∧ m.hsync.toNat = t.hSyncLen.toInt ∧
    m.hbp.toNat = t.hBackPorch.toInt
  vertical : m.vfp.toNat = t.vFrontPorch.toInt ∧ m.vsync.toNat = t.vSyncLen.toInt ∧
    m.vbp.toNat = t.vBackPorch.toInt
  polarity : (m.hpos ≠ 0 ↔ t.hSyncPositive) ∧ (m.vpos ≠ 0 ↔ t.vSyncPositive)
  clock : m.clockHz.toNat = t.pixelClock

/-- The lines of the vertical blank. -/
def Mode.blank (m : Mode) : ℕ := m.vfp.toNat + m.vsync.toNat + m.vbp.toNat

theorem Mode.IsCvt.blank_eq {m : Mode} {w h fps : ℕ} (hm : m.IsCvt w h fps) : m.blank = Cvt.vbi w h fps := by
  have hfloor : 3 + Cvt.vsync w h + 6 ≤ Cvt.vbi w h fps := le_max_right _ _
  unfold Mode.blank
  rw [hm.vfp, hm.vsync, hm.vbp]
  change 3 + _ + _ = _
  omega

theorem Mode.IsCvt.agrees {m : Mode} {w h fps : ℕ} (hm : m.IsCvt w h fps) (hw : w < 2 ^ 24) (hpos : 0 < fps)
    (hf : 460 * fps < 1000000) (hclock : Cvt.clock w h fps < 2 ^ 32) : Agrees m (VideoTiming.exact w h fps) := by
  have htotal := VideoTiming.vtotal_lt hpos hclock
  obtain ⟨-, hs10⟩ := Cvt.vsync_bounds w h
  obtain ⟨hfp, hsync, hbp⟩ := hm.horizontal
  obtain ⟨hpos', vpos'⟩ := hm.polarity
  refine ⟨?_, ⟨?_, ?_, ?_⟩, ?_, ?_⟩
  · rw [hfp, hsync, hbp]
    exact ⟨rfl, rfl, rfl⟩
  · rw [hm.vfp]
    rfl
  · rw [hm.vsync]
    exact (VideoTiming.toInt_ofNat_small (by omega)).symm
  · rw [hm.vbp]
    exact (VideoTiming.toInt_ofNat_small (by omega)).symm
  · rw [hpos', vpos']
    exact ⟨by change (1 : Int32) ≠ 0 ↔ true = true; decide, by change (0 : Int32) ≠ 0 ↔ false = true; decide⟩
  · rw [hm.clock, VideoTiming.exact_pixelClock hw hpos hf hclock]

/-- **Tool and generator agree**, and the vertical blank is the least that lasts more than 460 µs at the line rate
it gives, or the floor of the standard. -/
theorem cvtRb_agrees (w h fps : ℕ) (hw : 1 ≤ w ∧ w ≤ 2 ^ 24 - 1) (hh : 1 ≤ h ∧ h ≤ 2 ^ 24 - 1) (hpos : 1 ≤ fps)
    (hf : 460 * fps < 1000000) (hclock : (w + 160) * (h + Cvt.vbi w h fps) * fps < 2 ^ 32) :
    ∃ m t, cvtRb (UInt32.ofNat w) (UInt32.ofNat h) (UInt32.ofNat fps) = some m ∧
      VideoTiming.cvtReducedBlanking (Int32.ofNat w) (Int32.ofNat h) (Int32.ofNat fps) = .ok t ∧ Agrees m t ∧
      460 < m.blank * Cvt.linePeriodUs h fps m.blank ∧
      ∃ n, IsLeast {n : ℕ | 460 < n * Cvt.linePeriodUs h fps n} n ∧ m.blank = max n (3 + m.vsync.toNat + 6) := by
  have hsmall : ∀ {n : ℕ}, n < 2 ^ 32 → (UInt32.ofNat n).toNat = n := fun hn => UInt32.toNat_ofNat_of_lt' hn
  have hw32 : (UInt32.ofNat w).toNat = w := hsmall (by omega)
  have hh32 : (UInt32.ofNat h).toNat = h := hsmall (by omega)
  have hf32 : (UInt32.ofNat fps).toNat = fps := hsmall (by omega)
  have htotal : h + Cvt.vbi w h fps < 2 ^ 25 := VideoTiming.vtotal_lt hpos hclock
  have hnw : NoWrap w h fps :=
    ⟨by omega, by omega, .inl (by omega), fun _ => by omega, fun _ => lt_trans hclock (by norm_num)⟩
  have hcvt := @cvtRb_exact (UInt32.ofNat w) (UInt32.ofNat h) (UInt32.ofNat fps)
  rw [hw32, hh32, hf32] at hcvt
  obtain ⟨hge, -⟩ | ⟨-, m, hm, hcvt⟩ := hcvt hnw
  · omega
  have hscala := VideoTiming.cvtReducedBlanking_exact hw.1 (by omega) hh.1 (by omega) hpos hf hclock
  refine ⟨m, _, hm, hscala, hcvt.agrees (by omega) hpos hf hclock, ?_, Cvt.lines h fps,
    Cvt.isLeast_lines hh.1 hpos hf, ?_⟩
  · rw [hcvt.blank_eq]
    exact Cvt.vbi_blanks hh.1 hpos hf
  · rw [hcvt.blank_eq, hcvt.vsync]
    rfl

/-- 1366x768 at 60 Hz. -/
theorem wide_agrees :
    ∃ m t, cvtRb 1366 768 60 = some m ∧ VideoTiming.cvtReducedBlanking 1366 768 60 = .ok t ∧ Agrees m t ∧
      460 < m.blank * Cvt.linePeriodUs 768 60 m.blank ∧
      ∃ n, IsLeast {n : ℕ | 460 < n * Cvt.linePeriodUs 768 60 n} n ∧ m.blank = max n (3 + m.vsync.toNat + 6) :=
  cvtRb_agrees 1366 768 60 (by decide) (by decide) (by decide) (by decide) (by decide)

end Soceteer.Video.Fbmode
