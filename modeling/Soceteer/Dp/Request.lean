import Soceteer.Dp.Registers

/-!
# Soceteer.Dp.Request — the framebuffer device and its requests

The state of the device is spread over `fbs`, the `fb_info` and the pipeline of `dp-main.c`.

* `Fbdev`: all three; `prepare` and `register` set it up.
* `setPar`, `setVar`, `panDisplay`: the requests; `runRequests` a sequence of them.
* `readSpan`, `writeSpan`: the bytes the file operations touch.
* `varToMode_fillVar`: what a rewritten var decodes to.
-/

namespace Soceteer.Dp

open Clk Round

/-! ## The device -/

/-- The part of `struct fb_fix_screeninfo` that depends on the mode. -/
structure FixScreenInfo where
  smemLen : UInt32
  lineLength : UInt32
  ypanstep : UInt32

/-- The device: `fbs`, `info->fix`, `info->var`, and the pipeline with everything done to the hardware. -/
structure Fbdev where
  fbs : Fbs
  fix : FixScreenInfo
  var : VarScreenInfo
  sys : Sys

/-- `soct_dp_fb_prepare`, where the L2 and the carve-out can be mapped; `mmapOk` says whether the carve-out has
struct pages. -/
def prepare (fbSize : ℕ) (mmapOk : Bool) (mode : Mode) : Except Errno Fbs :=
  let size := mode.hactive.toNat * 3 * mode.vactive.toNat % 2 ^ 64
  if size > fbSize then .error .einval
  else
    let stride := mode.hactive * 3
    .ok ⟨fbSize, mode, mode.hactive, mode.vactive, stride, nframes fbSize stride mode.vactive, mmapOk, 0, false, 0⟩

/-- `soct_dp_fb_register`; the length is a `u32` product. -/
def register (fbs : Fbs) (sys : Sys) : Fbdev where
  fbs := { fbs with defioSize := if fbs.mmapOk then fbs.stride * fbs.height * fbs.frames else fbs.defioSize }
  fix := ⟨fbs.stride * fbs.height * fbs.frames, fbs.stride, if fbs.frames = 2 then fbs.height else 0⟩
  var := { fillVar fbs.carveoutSize fbs.mode .zero with activate := 0 }
  sys := sys

/-- The geometry `soct_dp_fb_set_par` installs after a switch. -/
def reshape (d : Fbdev) (m : Mode) (sys : Sys) : Fbdev :=
  let stride := m.hactive * 3
  let frames := nframes d.fbs.carveoutSize stride m.vactive
  let size := stride.toNat * m.vactive.toNat
  { d with
    fbs := { d.fbs with
      mode := m, width := m.hactive, height := m.vactive, stride := stride, frames := frames, parkReq := false }
    fix := ⟨UInt32.ofNat (size * frames.toNat), stride, if frames = 2 then m.vactive else 0⟩
    sys := sys }

/-- `soct_dp_fb_set_par`. -/
def setPar (d : Fbdev) (var : VarScreenInfo) (o : Outcome) : Option Refusal × Fbdev :=
  match varToMode var with
  | .error e => (some e, d)
  | .ok m =>
    match validateMode d.sys.drv m with
    | .error _ => (some (.errno .einval), d)
    | .ok m =>
      if m = d.fbs.mode then (none, d)
      else
        match switchMode d.sys m o with
        | (some e, sys) =>
          (some (.errno e), { d with fbs := { d.fbs with mode := .zero, parkReq := false }, sys := sys })
        | (none, sys) => (none, reshape d m sys)

/-- `fb_set_var`: `core` is the framebuffer core's own check; `info->var` is restored when the mode is not set. -/
def setVar (core : VarScreenInfo → Bool) (d : Fbdev) (var : VarScreenInfo) (o : Outcome) :
    Option Refusal × Fbdev :=
  if !core var then (some (.errno .einval), d)
  else
    match checkVar d.fbs d.sys.drv var with
    | .error e => (some e, d)
    | .ok var' =>
      match setPar d var' o with
      | (some e, d') => (some e, d')
      | (none, d') => (none, { d' with var := var' })

/-- `soct_dp_fb_pan_display`. -/
def panDisplay (d : Fbdev) (var : VarScreenInfo) : Option Refusal × Fbdev :=
  if var.xoffset ≠ 0 then (some (.errno .einval), d)
  else if d.fbs.height = 0 then (some .divideByZero, d)
  else if var.yoffset % d.fbs.height ≠ 0 then (some (.errno .einval), d)
  else if var.yoffset / d.fbs.height ≥ d.fbs.frames then (some (.errno .einval), d)
  else (none, { d with fbs := { d.fbs with parkFrame := var.yoffset / d.fbs.height, parkReq := true } })

/-- A request of user space. -/
inductive Request
  | setVar (var : VarScreenInfo) (o : Outcome)
  | pan (var : VarScreenInfo)

def handle (core : VarScreenInfo → Bool) (d : Fbdev) : Request → Option Refusal × Fbdev
  | .setVar var o => setVar core d var o
  | .pan var => panDisplay d var

def runRequests (core : VarScreenInfo → Bool) (d : Fbdev) (reqs : List Request) : Fbdev :=
  reqs.foldl (fun d r => (handle core d r).2) d

/-- `soct_dp_fb_read`: the first byte copied and how many. -/
def readSpan (fix : FixScreenInfo) (pos : Int64) (count : UInt64) : Option (ℕ × ℕ) :=
  let total := fix.smemLen.toNat
  if pos < 0 then none
  else if pos.toNatClampNeg ≥ total ∨ count = 0 then none
  else some (pos.toNatClampNeg, min count.toNat (total - pos.toNatClampNeg))

/-- `soct_dp_fb_write`. -/
def writeSpan (fix : FixScreenInfo) (pos : Int64) (count : UInt64) : Option (ℕ × ℕ) :=
  let total := fix.smemLen.toNat
  if pos < 0 ∨ pos.toNatClampNeg > total then none
  else if min count.toNat (total - pos.toNatClampNeg) = 0 then none
  else some (pos.toNatClampNeg, min count.toNat (total - pos.toNatClampNeg))

/-! ## Rewritten vars -/

/-- The period the driver reports for a clock, and the clock it reads back. -/
def reportedPeriod (clock : UInt32) : UInt32 := UInt32.ofNat (divRoundClosest second clock.toNat)

def readClock (period : UInt32) : UInt32 := UInt32.ofNat (divRoundClosest second period.toNat)

/-- Polarities survive the round trip through `sync`. -/
theorem sync_roundtrip (a b : UInt32) :
    ((((if a ≠ 0 then (1 : UInt32) else 0) ||| (if b ≠ 0 then 2 else 0)) &&& 1 ≠ 0) ↔ a ≠ 0) ∧
      ((((if a ≠ 0 then (1 : UInt32) else 0) ||| (if b ≠ 0 then 2 else 0)) &&& 2 ≠ 0) ↔ b ≠ 0) := by
  by_cases ha : a = 0 <;> by_cases hb : b = 0 <;> simp [ha, hb] <;> decide

/-- A polarity is 0 or 1. -/
def Mode.Polar (m : Mode) : Prop :=
  (m.hsyncActive = 0 ∨ m.hsyncActive = 1) ∧ (m.vsyncActive = 0 ∨ m.vsyncActive = 1)

theorem polar_modeOf (var : VarScreenInfo) (fps : UInt32) : (modeOf var fps).Polar := by
  constructor <;> simp only [modeOf] <;> split_ifs <;> simp

theorem modeOf_fillVar (carveoutSize : ℕ) {m : Mode} (hm : m.Polar) (var : VarScreenInfo) (fps : UInt32) :
    modeOf (fillVar carveoutSize m var) fps =
      { m with fps := fps, pixelClockHz := readClock (reportedPeriod m.pixelClockHz) } := by
  obtain ⟨hh, hv⟩ := sync_roundtrip m.hsyncActive m.vsyncActive
  have hha : (if m.hsyncActive ≠ 0 then (1 : UInt32) else 0) = m.hsyncActive := by
    rcases hm.1 with h | h <;> rw [h] <;> rfl
  have hva : (if m.vsyncActive ≠ 0 then (1 : UInt32) else 0) = m.vsyncActive := by
    rcases hm.2 with h | h <;> rw [h] <;> rfl
  simp only [modeOf, fillVar, hh, hv]
  rw [hha, hva]
  rfl

/-- **What a rewritten var decodes to**: the mode it was written from, with another rate and clock. -/
theorem varToMode_fillVar {carveoutSize : ℕ} {m m' : Mode} (hm : m.Polar) {var : VarScreenInfo}
    (h : varToMode (fillVar carveoutSize m var) = .ok m') :
    m' = { m with fps := m'.fps, pixelClockHz := readClock (reportedPeriod m.pixelClockHz) } := by
  rw [← modeOf_fillVar carveoutSize hm var]
  exact varToMode_eq_modeOf h

end Soceteer.Dp
