import Soceteer.Dp.Switch
import Soceteer.Lib.Round

/-!
# Soceteer.Dp.Var — modes as user space asks for them

The framebuffer device takes timings as `fb_var_screeninfo`.  `soct_dp_fb_var_to_mode` decodes one,
`soct_dp_fb_fill_var` encodes the accepted mode; the clock travels as a period in picoseconds.

* `varToMode`: the decoding, in `u32` sums and a `u64` product; a zero product is a division by zero.
* `checkVar`: acceptance, with the var rewritten.
* `checkVar_ok_iff`: what an accepted var has passed.
* `decodes_iff`: when the refresh rate is the one of the timing.
-/

namespace Soceteer.Dp

open Clk Round

/-! ## The model -/

/-- `struct fb_bitfield`. -/
structure FbBitfield where
  offset : UInt32
  length : UInt32
  msbRight : UInt32
deriving DecidableEq

/-- `struct fb_var_screeninfo`, the fields that are read or written here. -/
structure VarScreenInfo where
  xres : UInt32
  yres : UInt32
  xresVirtual : UInt32
  yresVirtual : UInt32
  xoffset : UInt32
  yoffset : UInt32
  bitsPerPixel : UInt32
  grayscale : UInt32
  red : FbBitfield
  green : FbBitfield
  blue : FbBitfield
  transp : FbBitfield
  nonstd : UInt32
  activate : UInt32
  height : UInt32
  width : UInt32
  pixclock : UInt32
  leftMargin : UInt32
  rightMargin : UInt32
  upperMargin : UInt32
  lowerMargin : UInt32
  hsyncLen : UInt32
  vsyncLen : UInt32
  sync : UInt32
  vmode : UInt32
deriving DecidableEq

/-- How a var is refused: an error code, or a division by zero on the way. -/
inductive Refusal
  | errno (e : Errno)
  | divideByZero
deriving DecidableEq

/-- A second in picoseconds.  `DIV_ROUND_CLOSEST_ULL` and `DIV64_U64_ROUND_CLOSEST` of it do not leave 64 bits. -/
def second : ℕ := 1000000000000

namespace VarScreenInfo

variable (var : VarScreenInfo)

/-- The `u32` sum of the horizontal parts. -/
def htotal : UInt32 := var.xres + var.rightMargin + var.hsyncLen + var.leftMargin

/-- The `u32` sum of the vertical parts. -/
def vtotal : UInt32 := var.yres + var.lowerMargin + var.vsyncLen + var.upperMargin

/-- The duration of a frame in picoseconds, a `u64`. -/
def dots : UInt64 := var.pixclock.toUInt64 * var.htotal.toUInt64 * var.vtotal.toUInt64

end VarScreenInfo

/-- The mode the var describes, with the given refresh rate. -/
def modeOf (var : VarScreenInfo) (fps : UInt32) : Mode where
  hactive := var.xres
  hfrontPorch := var.rightMargin
  hsyncLen := var.hsyncLen
  hbackPorch := var.leftMargin
  vactive := var.yres
  vfrontPorch := var.lowerMargin
  vsyncLen := var.vsyncLen
  vbackPorch := var.upperMargin
  hsyncActive := if var.sync &&& 1 ≠ 0 then 1 else 0
  vsyncActive := if var.sync &&& 2 ≠ 0 then 1 else 0
  fps := fps
  pixelClockHz := UInt32.ofNat (divRoundClosest second var.pixclock.toNat)

/-- `soct_dp_fb_var_to_mode`; clock and rate are narrowed to a `u32`. -/
def varToMode (var : VarScreenInfo) : Except Refusal Mode :=
  if var.pixclock = 0 ∨ var.vmode &&& 255 ≠ 0 then .error (.errno .einval)
  else if var.dots = 0 then .error .divideByZero
  else
    let fps := UInt32.ofNat (divRoundClosest second var.dots.toNat)
    if fps = 0 then .error (.errno .einval) else .ok (modeOf var fps)

/-- `fb_nframes`, a `u64` product. -/
def nframes (carveoutSize : ℕ) (stride height : UInt32) : UInt32 :=
  if 2 * stride.toNat * height.toNat % 2 ^ 64 ≤ carveoutSize then 2 else 1

/-- `soct_dp_fb_fill_var`. -/
def fillVar (carveoutSize : ℕ) (m : Mode) (var : VarScreenInfo) : VarScreenInfo :=
  { var with
    xres := m.hactive
    yres := m.vactive
    xresVirtual := m.hactive
    yresVirtual := m.vactive * nframes carveoutSize (m.hactive * 3) m.vactive
    xoffset := 0
    yoffset := 0
    bitsPerPixel := 24
    grayscale := 0
    red := ⟨16, 8, 0⟩
    green := ⟨8, 8, 0⟩
    blue := ⟨0, 8, 0⟩
    transp := ⟨0, 0, 0⟩
    nonstd := 0
    height := 0xFFFFFFFF
    width := 0xFFFFFFFF
    pixclock := UInt32.ofNat (divRoundClosest second m.pixelClockHz.toNat)
    leftMargin := m.hbackPorch
    rightMargin := m.hfrontPorch
    upperMargin := m.vbackPorch
    lowerMargin := m.vfrontPorch
    hsyncLen := m.hsyncLen
    vsyncLen := m.vsyncLen
    sync := (if m.hsyncActive ≠ 0 then 1 else 0) ||| (if m.vsyncActive ≠ 0 then 2 else 0)
    vmode := 0 }

/-- The state `fbs` of `fb.c`, apart from the damage rectangle. -/
structure Fbs where
  carveoutSize : ℕ
  mode : Mode
  width : UInt32
  height : UInt32
  stride : UInt32
  frames : UInt32
  mmapOk : Bool
  defioSize : UInt32
  parkReq : Bool
  parkFrame : UInt32

/-- The size of a frame, a `u64`. -/
def frameSize (m : Mode) : ℕ := m.hactive.toNat * m.vactive.toNat * 3 % 2 ^ 64

/-- The size tests of `soct_dp_fb_check_var`. -/
def fits (fbs : Fbs) (m : Mode) : Bool :=
  frameSize m ≤ fbs.carveoutSize &&
    (!fbs.mmapOk ||
      frameSize m * (nframes fbs.carveoutSize (m.hactive * 3) m.vactive).toNat % 2 ^ 64 ≤ fbs.defioSize.toNat)

/-- `soct_dp_fb_check_var`. -/
def checkVar (fbs : Fbs) (s : Driver) (var : VarScreenInfo) : Except Refusal VarScreenInfo :=
  match varToMode var with
  | .error e => .error e
  | .ok m =>
    if !fits fbs m then .error (.errno .einval)
    else
      match validateMode s m with
      | .error _ => .error (.errno .einval)
      | .ok m => .ok (fillVar fbs.carveoutSize m var)

/-- **Decoding.** -/
theorem varToMode_ok_iff {var : VarScreenInfo} {m : Mode} : varToMode var = .ok m ↔
    var.pixclock ≠ 0 ∧ var.vmode &&& 255 = 0 ∧ var.dots ≠ 0 ∧
      UInt32.ofNat (divRoundClosest second var.dots.toNat) ≠ 0 ∧
      m = modeOf var (UInt32.ofNat (divRoundClosest second var.dots.toNat)) := by
  unfold varToMode
  dsimp only
  constructor
  · intro h
    split_ifs at h with h1 h2 h3
    cases h
    push Not at h1
    exact ⟨h1.1, h1.2, h2, h3, rfl⟩
  · rintro ⟨h1, h2, h3, h4, rfl⟩
    rw [if_neg (by push Not; exact ⟨h1, h2⟩), if_neg h3, if_neg h4]

theorem varToMode_eq_modeOf {var : VarScreenInfo} {m : Mode} (h : varToMode var = .ok m) :
    m = modeOf var m.fps := by
  obtain ⟨-, -, -, -, rfl⟩ := varToMode_ok_iff.mp h
  rfl

/-- **Acceptance.** -/
theorem checkVar_ok_iff {fbs : Fbs} {s : Driver} {var var' : VarScreenInfo} : checkVar fbs s var = .ok var' ↔
    ∃ m m', varToMode var = .ok m ∧ fits fbs m = true ∧ validateMode s m = .ok m' ∧
      var' = fillVar fbs.carveoutSize m' var := by
  unfold checkVar
  cases hm : varToMode var with
  | error e => exact ⟨fun h => (by cases h), fun h => (by obtain ⟨m, m', hm', -⟩ := h; cases hm')⟩
  | ok m =>
    dsimp only
    constructor
    · intro h
      cases hf : fits fbs m with
      | false => rw [hf] at h; cases h
      | true =>
        rw [hf] at h
        cases hv : validateMode s m with
        | error e => rw [hv] at h; cases h
        | ok m' =>
          rw [hv] at h
          cases h
          exact ⟨m, m', rfl, hf, hv, rfl⟩
    · rintro ⟨m₁, m', hm₁, hf, hv, rfl⟩
      cases hm₁
      rw [hf, hv]
      rfl

/-! ## Exact decoding -/

namespace VarScreenInfo

variable (var : VarScreenInfo)

/-- The unbounded sum of the horizontal parts. -/
def lineDots : ℕ := var.xres.toNat + var.rightMargin.toNat + var.hsyncLen.toNat + var.leftMargin.toNat

/-- The unbounded sum of the vertical parts. -/
def frameLines : ℕ := var.yres.toNat + var.lowerMargin.toNat + var.vsyncLen.toNat + var.upperMargin.toNat

/-- The duration of a frame in picoseconds. -/
def frameTime : ℕ := var.pixclock.toNat * var.lineDots * var.frameLines

theorem htotal_toNat : var.htotal.toNat = var.lineDots % 2 ^ 32 := by
  rw [htotal, lineDots, UInt32.toNat_add, UInt32.toNat_add, UInt32.toNat_add]
  omega

theorem vtotal_toNat : var.vtotal.toNat = var.frameLines % 2 ^ 32 := by
  rw [vtotal, frameLines, UInt32.toNat_add, UInt32.toNat_add, UInt32.toNat_add]
  omega

theorem dots_toNat (hh : var.lineDots < 2 ^ 32) (hv : var.frameLines < 2 ^ 32) :
    var.dots.toNat = var.frameTime % 2 ^ 64 := by
  rw [dots, UInt64.toNat_mul, UInt64.toNat_mul, UInt32.toNat_toUInt64, UInt32.toNat_toUInt64,
    UInt32.toNat_toUInt64,
    htotal_toNat, vtotal_toNat, Nat.mod_eq_of_lt hh, Nat.mod_eq_of_lt hv, Nat.mod_mul_mod, frameTime]

end VarScreenInfo

/-- The rate is the one of the timing, and nothing on the way to it wraps or divides by zero. -/
structure Decodes (var : VarScreenInfo) : Prop where
  result : varToMode var = .error (.errno .einval) ∨
    ∃ m, varToMode var = .ok m ∧ m.fps.toNat = divRoundClosest second var.frameTime
  exact : var.pixclock ≠ 0 → var.vmode &&& 255 = 0 → var.dots ≠ 0 ∧ var.htotal.toNat = var.lineDots ∧
    var.vtotal.toNat = var.frameLines ∧ var.dots.toNat = var.frameTime

theorem rate_lt {t : ℕ} (h : 233 ≤ t) : divRoundClosest second t < 2 ^ 32 := by
  rw [divRoundClosest_lt_iff (by omega), second]
  omega

/-- Frames shorter than 233 ps have a rate that leaves 32 bits, and none that is zero in them. -/
theorem rate_wraps : ∀ t ∈ List.range' 64 169,
    2 ^ 32 ≤ divRoundClosest second t ∧ divRoundClosest second t % 2 ^ 32 ≠ 0 := by decide +kernel

section Decode

variable {var : VarScreenInfo} (hpix : var.pixclock ≠ 0) (hmode : var.vmode &&& 255 = 0)
include hpix

theorem le_frameTime (hx : 8 ≤ var.xres.toNat) (hy : 8 ≤ var.yres.toNat) : 64 ≤ var.frameTime := by
  have hp : 1 ≤ var.pixclock.toNat := by
    by_contra hc
    exact hpix (UInt32.toNat_inj.mp (by rw [UInt32.toNat_zero]; omega))
  have hh : 8 ≤ var.lineDots := by unfold VarScreenInfo.lineDots; omega
  have hv : 8 ≤ var.frameLines := by unfold VarScreenInfo.frameLines; omega
  exact Nat.mul_le_mul (Nat.mul_le_mul hp hh) hv

include hmode

/-- A var that is not refused at once. -/
theorem varToMode_timed : varToMode var = if var.dots = 0 then .error .divideByZero
    else if UInt32.ofNat (divRoundClosest second var.dots.toNat) = 0 then .error (.errno .einval)
    else .ok (modeOf var (UInt32.ofNat (divRoundClosest second var.dots.toNat))) := by
  rw [varToMode, if_neg (by push Not; exact ⟨hpix, hmode⟩)]

/-- The rate of a frame shorter than 233 ps is cut off. -/
theorem Decodes.le_time (h : Decodes var) (hx : 8 ≤ var.xres.toNat) (hy : 8 ≤ var.yres.toNat) :
    233 ≤ var.frameTime := by
  obtain ⟨hne, -, -, hd⟩ := h.exact hpix hmode
  have h64 := le_frameTime hpix hx hy
  have hres := h.result
  by_contra hc
  obtain ⟨hbig, hnz⟩ := rate_wraps var.frameTime (List.mem_range'_1.mpr (by omega))
  rw [varToMode_timed hpix hmode, if_neg hne, hd] at hres
  have hfps : UInt32.ofNat (divRoundClosest second var.frameTime) ≠ 0 := fun h0 => by
    have hval := congrArg UInt32.toNat h0
    rw [UInt32.toNat_ofNat', UInt32.toNat_zero] at hval
    exact hnz hval
  rw [if_neg hfps] at hres
  rcases hres with hres | ⟨m, hm, hrate⟩
  · cases hres
  · cases hm
    have hlt := (UInt32.ofNat (divRoundClosest second var.frameTime)).toNat_lt
    rw [← hrate] at hbig
    exact absurd hlt (Nat.not_lt.mpr hbig)

/-- Without overflow the rate is exact. -/
theorem decodes_of_fits (hh : var.lineDots < 2 ^ 32) (hv : var.frameLines < 2 ^ 32) (hlo : 233 ≤ var.frameTime)
    (hhi : var.frameTime < 2 ^ 64) : Decodes var := by
  have hd : var.dots.toNat = var.frameTime := by rw [var.dots_toNat hh hv, Nat.mod_eq_of_lt hhi]
  have hne : var.dots ≠ 0 := fun h0 => by
    rw [h0, UInt64.toNat_zero] at hd
    omega
  refine ⟨?_, fun _ _ => ⟨hne, ?_, ?_, hd⟩⟩
  · rw [varToMode_timed hpix hmode, if_neg hne, hd]
    split_ifs
    · exact Or.inl rfl
    · exact Or.inr ⟨_, rfl, UInt32.toNat_ofNat_of_lt' (rate_lt hlo)⟩
  · rw [var.htotal_toNat, Nat.mod_eq_of_lt hh]
  · rw [var.vtotal_toNat, Nat.mod_eq_of_lt hv]

end Decode

/-- **When the timing is decoded exactly**: both totals fit 32 bits and the duration of the frame lies between 233
ps and 64 bits of picoseconds, unless the var is refused at once. -/
theorem decodes_iff (var : VarScreenInfo) (hx : 8 ≤ var.xres.toNat) (hy : 8 ≤ var.yres.toNat) :
    Decodes var ↔ var.pixclock = 0 ∨ var.vmode &&& 255 ≠ 0 ∨
      (var.lineDots < 2 ^ 32 ∧ var.frameLines < 2 ^ 32 ∧ 233 ≤ var.frameTime ∧ var.frameTime < 2 ^ 64) := by
  by_cases hearly : var.pixclock = 0 ∨ var.vmode &&& 255 ≠ 0
  · have herr : varToMode var = .error (.errno .einval) := by rw [varToMode, if_pos hearly]
    refine ⟨fun _ => hearly.imp_right Or.inl, fun _ => ⟨Or.inl herr, fun hp hm => ?_⟩⟩
    exact absurd hearly (by push Not; exact ⟨hp, hm⟩)
  · push Not at hearly
    obtain ⟨hpix, hmode⟩ := hearly
    constructor
    · intro h
      obtain ⟨-, hh, hv, hd⟩ := h.exact hpix hmode
      have hh' := var.htotal.toNat_lt
      have hv' := var.vtotal.toNat_lt
      have hd' := var.dots.toNat_lt
      exact Or.inr (Or.inr ⟨by omega, by omega, h.le_time hpix hmode hx hy, by omega⟩)
    · rintro (hp | hm | ⟨hh, hv, hlo, hhi⟩)
      · exact absurd hp hpix
      · exact absurd hmode hm
      · exact decodes_of_fits hpix hmode hh hv hlo hhi

/-- The var `memset` leaves. -/
def VarScreenInfo.zero : VarScreenInfo :=
  ⟨0, 0, 0, 0, 0, 0, 0, 0, ⟨0, 0, 0⟩, ⟨0, 0, 0⟩, ⟨0, 0, 0⟩, ⟨0, 0, 0⟩, 0, 0, 0, 0, 0, 0, 0, 0, 0, 0, 0, 0, 0⟩

/-- 720p60 as the driver reports it. -/
def hd720Var : VarScreenInfo := fillVar 0x1000000 hd720 .zero

theorem hd720Var_decodes : 8 ≤ hd720Var.xres.toNat ∧ 8 ≤ hd720Var.yres.toNat ∧ Decodes hd720Var :=
  ⟨by decide, by decide, (decodes_iff hd720Var (by decide) (by decide)).mpr
    (Or.inr (Or.inr ⟨by decide, by decide, by decide, by decide⟩))⟩

/-- A front porch that brings the line total to zero. -/
def zeroTotal : VarScreenInfo := { hd720Var with rightMargin := 4294965756 }

theorem zeroTotal_divides_by_zero : 8 ≤ zeroTotal.xres.toNat ∧ 8 ≤ zeroTotal.yres.toNat ∧
    varToMode zeroTotal = .error .divideByZero ∧ ¬ Decodes zeroTotal := by
  have hzero : varToMode zeroTotal = .error .divideByZero := by decide
  refine ⟨by decide, by decide, hzero, fun h => ?_⟩
  rcases h.result with he | ⟨m, hm, -⟩
  · rw [hzero] at he
    cases he
  · rw [hzero] at hm
    cases hm

end Soceteer.Dp
