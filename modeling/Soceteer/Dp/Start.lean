import Soceteer.Clk.Mmcm
import Soceteer.Dp.Mode
import Soceteer.Video.Timing

/-!
# Soceteer.Dp.Start — the generated device tree and the driver started on it

`VideoStreamFeature.scala` emits the synthesized timing and the retune budget after asking its own solver whether
the clock can be synthesized.  `soct_dp_work` reads them and normalizes the boot clock with
`soct_dp_validate_mode`.

* `videoStream`: the checks of the generator and the nodes it emits.
* `VideoTree.driver`, `bringUp`: the driver on these nodes, before and after the normalization.
* `bootAccepted_iff`: the boot mode is accepted exactly when the pixel clock keeps itself as the ceiling
  (`CeilingKept`).
-/

namespace Soceteer.Dp

open Clk Video

/-! ## The generator -/

/-- `VideoStreamParams`. -/
structure VideoStreamParams where
  width : Int32
  height : Int32
  fps : Int32
  incoherent : Bool

/-- The `soct,pixel-clkwiz` node. -/
structure PixClk where
  inputFrequency : UInt32
  maxFrequency : UInt32
  vcoMin : UInt32
  vcoMax : UInt32
  pfdMin : UInt32
  pfdMax : UInt32

/-- The nodes the driver reads; `vtc` is the timing of the `xlnx,v-tc-6.2` node. -/
structure VideoTree where
  vtc : Mode
  pixclk : Option PixClk

/-- Why the generator refuses a pipeline. -/
inductive VideoError
  | impossible (e : VideoTiming.ImpossibleMode)
  | needsL2
  | carveOut (bytes : Int64)
  | noSetting (e : MmcmSolver.NoSetting)

def VideoFbSize : ℕ := 0xC00000

/-- Below the USB DMA pool at the end of the `HpmLpd` window. -/
def VideoFbBase : ℕ := 0x80000000 + 0x20000000 - 0x1000000 - VideoFbSize

/-- `ResourceInt`, as the cell it becomes. -/
def resourceInt (x : ℤ) : UInt32 := UInt32.ofInt x

/-- The properties of the timing generator's node. -/
def vtcDts (vs : VideoStreamParams) (t : VideoTiming) : Mode where
  hactive := resourceInt vs.width.toInt
  hfrontPorch := resourceInt t.hFrontPorch.toInt
  hsyncLen := resourceInt t.hSyncLen.toInt
  hbackPorch := resourceInt t.hBackPorch.toInt
  vactive := resourceInt vs.height.toInt
  vfrontPorch := resourceInt t.vFrontPorch.toInt
  vsyncLen := resourceInt t.vSyncLen.toInt
  vbackPorch := resourceInt t.vBackPorch.toInt
  hsyncActive := if t.hSyncPositive then 1 else 0
  vsyncActive := if t.vSyncPositive then 1 else 0
  fps := resourceInt vs.fps.toInt
  pixelClockHz := resourceInt t.pixelClock

/-- The retune budget. -/
def pixClkDts (periphery : UInt32) (t : VideoTiming) : PixClk where
  inputFrequency := periphery
  maxFrequency := resourceInt t.pixelClock
  vcoMin := 800000000
  vcoMax := 1600000000
  pfdMin := 10000000
  pfdMax := 500000000

def timingFor (vs : VideoStreamParams) : Except VideoTiming.ImpossibleMode VideoTiming :=
  VideoTiming.forMode vs.width vs.height vs.fps

/-- `VideoStreamFeature`, the checks in the order of the source; `l2` says whether the design has an L2. -/
def videoStream (periphery : UInt32) (l2 : Bool) (vs : VideoStreamParams) : Except VideoError VideoTree :=
  match timingFor vs with
  | .error e => .error (.impossible e)
  | .ok t =>
    if vs.incoherent && !l2 then .error .needsL2
    else
      let bytes := vs.width.toInt64 * vs.height.toInt64 * 3
      if bytes > Int64.ofNat VideoFbSize then .error (.carveOut bytes)
      else if vs.incoherent then
        match MmcmSolver.solve periphery.toNat t.pixelClock (1 / 200) with
        | .error e => .error (.noSetting e)
        | .ok _ => .ok ⟨vtcDts vs t, some (pixClkDts periphery t)⟩
      else .ok ⟨vtcDts vs t, none⟩

/-! ## The driver -/

def PixClk.limits (b : PixClk) : Limits :=
  ⟨b.inputFrequency.toNat, b.vcoMin.toNat, b.vcoMax.toNat, b.pfdMin.toNat, b.pfdMax.toNat,
    b.inputFrequency.toNat_lt, b.vcoMin.toNat_lt, b.vcoMax.toNat_lt, b.pfdMin.toNat_lt, b.pfdMax.toNat_lt⟩

/-- The driver's state after `parse_pixclk`; without the node the budget stays zero. -/
def VideoTree.driver (dt : VideoTree) : Driver where
  fb := VideoFbBase
  fbSize := VideoFbSize
  cur := dt.vtc
  retunable := dt.pixclk.isSome
  lim := (dt.pixclk.getD ⟨0, 0, 0, 0, 0, 0⟩).limits
  maxHz := (dt.pixclk.getD ⟨0, 0, 0, 0, 0, 0⟩).maxFrequency

/-- What `soct_dp_validate_mode` leaves of a mode it refuses: a clock a hair above the ceiling has been clamped. -/
def refusedMode (s : Driver) (m : Mode) : Mode :=
  if m.hactive = 0 ∨ m.vactive = 0 ∨ m.fps = 0 ∨ m.pixelClockHz = 0 ∨
    m.pixelClockHz > s.maxHz + s.maxHz / 200 then m
  else if m.pixelClockHz > s.maxHz then { m with pixelClockHz := s.maxHz }
  else m

/-- The normalization of the boot clock in `soct_dp_work`; a refusal disables resolution switching. -/
def bringUp (s : Driver) : Driver :=
  if s.retunable then
    match validateMode s s.cur with
    | .ok m => { s with cur := m }
    | .error _ => { s with cur := refusedMode s s.cur, retunable := false }
  else s

/-! ## The boot mode -/

/-- The driver accepts the mode it is started on, and switching stays enabled. -/
def BootAccepted (dt : VideoTree) : Prop :=
  (∃ m, validateMode dt.driver dt.driver.cur = .ok m) ∧ (bringUp dt.driver).retunable = true

theorem bringUp_retunable {s : Driver} (hr : s.retunable = true) :
    (bringUp s).retunable = true ↔ ∃ m, validateMode s s.cur = .ok m := by
  unfold bringUp
  rw [if_pos hr]
  cases hv : validateMode s s.cur with
  | ok m => exact ⟨fun _ => ⟨m, rfl⟩, fun _ => hr⟩
  | error e => exact ⟨fun h => (by cases h), fun h => (by obtain ⟨m, hm⟩ := h; cases hm)⟩

/-- A mode whose clock is the ceiling is accepted when the solver ends at or below it. -/
theorem validateMode_ceiling_iff {s : Driver} {m : Mode} (hr : s.retunable = true) (hm : m.Complete)
    (hclock : m.pixelClockHz = s.maxHz) (hlt : s.maxHz.toNat + s.maxHz.toNat / 200 < 2 ^ 32) :
    (∃ m', validateMode s m = .ok m') ↔
      ∃ set, solve s.lim s.maxHz.toNat = .ok set ∧ set.achievedHz ≤ s.maxHz.toNat := by
  have hclamp : (if m.pixelClockHz > s.maxHz then s.maxHz else m.pixelClockHz) = s.maxHz := by
    rw [hclock]
    exact ite_self _
  constructor
  · rintro ⟨m', h⟩
    obtain ⟨-, ⟨hf, -⟩ | ⟨-, set, hret⟩⟩ := validateMode_ok_iff.mp h
    · rw [hr] at hf
      cases hf
    · have hsolved := hret.solved
      rw [hclamp] at hsolved
      exact ⟨set, hsolved, hret.below⟩
  · rintro ⟨set, hsolved, hbelow⟩
    refine ⟨_, validateMode_ok_iff.mpr ⟨hm, Or.inr ⟨hr, set, ?_, ?_, hbelow, rfl⟩⟩⟩
    · rw [hclock, gt_iff_lt, UInt32.lt_iff_toNat_lt, UInt32.toNat_add, UInt32.toNat_div,
        show (200 : UInt32).toNat = 200 from rfl]
      omega
    · rw [hclamp]
      exact hsolved

/-- What a tree that is emitted says of the generator's checks. -/
theorem videoStream_ok {periphery : UInt32} {l2 : Bool} {vs : VideoStreamParams} (hinc : vs.incoherent = true)
    {dt : VideoTree} (h : videoStream periphery l2 vs = .ok dt) : ∃ t, timingFor vs = .ok t ∧
      dt = ⟨vtcDts vs t, some (pixClkDts periphery t)⟩ ∧
      ∃ set, MmcmSolver.solve periphery.toNat t.pixelClock (1 / 200) = .ok set := by
  unfold videoStream at h
  split at h
  · cases h
  · rename_i t ht
    dsimp only at h
    rw [hinc] at h
    split_ifs at h
    · split at h
      · cases h
      · rename_i set hset
        cases h
        exact ⟨t, ht, rfl, set, hset⟩
    · contradiction

theorem resourceInt_toNat {x : ℤ} (h : 0 ≤ x) (hlt : x < 2 ^ 32) : (resourceInt x).toNat = x.toNat := by
  rw [resourceInt, UInt32.ofInt, UInt32.toNat_ofNat_of_lt']
  · rw [Int.emod_eq_of_lt h hlt]
  · rw [UInt32.size]
    omega

theorem resourceInt_ne_zero {x : Int32} (h : x > 0) : resourceInt x.toInt ≠ 0 := fun hc => by
  have hpos : 0 < x.toInt := Int32.lt_iff_toInt_lt.mp h
  have hlt := x.toInt_lt
  have hval := congrArg UInt32.toNat hc
  rw [resourceInt_toNat hpos.le (by omega), UInt32.toNat_zero] at hval
  omega

/-- What the generator accepts is slower than the fastest VCO and the tolerance. -/
theorem ExactWithin.target_le {periphery : UInt32} {target div m8 o8 : ℕ}
    (ht : STried (advertised periphery) target div m8 o8)
    (hw : ExactWithin (advertised periphery) target div m8 o8) : target ≤ 2000000000 := by
  have hpair := ht.1.toLegalPair
  have hpos : (0 : ℚ) < div * o8 := by
    have hdiv := hpair.div_pos
    have ho8 := hpair.odiv_ge
    exact_mod_cast Nat.mul_pos (by omega : 0 < div) (by omega : 0 < o8)
  have hvco : (periphery.toNat * m8 : ℚ) ≤ 1600000000 * (div * o8) := by
    have hle : periphery.toNat * m8 ≤ 1600000000 * (div * o8) := by
      calc periphery.toNat * m8 ≤ 1600000000 * 8 * div := ht.1.vco_le
        _ = 1600000000 * (div * 8) := by ring
        _ ≤ 1600000000 * (div * o8) := Nat.mul_le_mul_left _ (Nat.mul_le_mul_left _ hpair.odiv_ge)
    exact_mod_cast hle
  have hout : exactHz (advertised periphery) div m8 o8 ≤ 1600000000 := by
    rw [exactHz, div_le_iff₀ hpos]
    exact hvco
  unfold ExactWithin exactErr at hw
  have habs := neg_abs_le (exactHz (advertised periphery) div m8 o8 - target)
  have hle : (target : ℚ) ≤ 2000000000 := by linarith
  exact_mod_cast hle

/-- **When the boot mode is accepted.**  Of what the divisions of the pixel clock's multiples by the periphery
clock leave, none says that an output above the pixel clock is closer than those at or below it. -/
theorem bootAccepted_iff (periphery : UInt32) (l2 : Bool) (vs : VideoStreamParams) (hinc : vs.incoherent = true)
    (t : VideoTiming) (ht : timingFor vs = .ok t) (hclock : t.pixelClock < 2 ^ 32) (dt : VideoTree)
    (h : videoStream periphery l2 vs = .ok dt) :
    BootAccepted dt ↔ CeilingKept (advertised periphery) t.pixelClock.toNat t.pixelClock.toNat := by
  obtain ⟨t', ht', rfl, set, hset⟩ := videoStream_ok hinc h
  obtain rfl : t' = t := Except.ok.inj (ht'.symm.trans ht)
  -- the generator's setting bounds the clock, so that no `u32` wraps
  have hpos : 0 < t'.pixelClock := by
    obtain ⟨div, m8, o8, htried, -⟩ := MmcmSolver.solve_ok hset
    exact_mod_cast htried.target_pos
  obtain ⟨clock, hclk⟩ : ∃ n : ℕ, t'.pixelClock = n := ⟨t'.pixelClock.toNat, by omega⟩
  have hlt : clock < 2 ^ 32 := by omega
  obtain ⟨hin, hbound⟩ : 0 < (advertised periphery).inputHz ∧ clock ≤ 2000000000 := by
    rw [hclk, Int.cast_natCast] at hset
    obtain ⟨div, m8, o8, htried, hw⟩ := mmcm_solve_ok_iff.mp ⟨set, hset⟩
    exact ⟨htried.1.input_pos (pfdMin_pos periphery), ExactWithin.target_le htried hw⟩
  have hcell : (resourceInt t'.pixelClock).toNat = clock := by
    rw [resourceInt_toNat hpos.le hclock]
    omega
  have hcomplete : (vtcDts vs t').Complete := by
    obtain ⟨-, hw, hh, hf⟩ := VideoTiming.forMode_active ht
    refine ⟨resourceInt_ne_zero hw, resourceInt_ne_zero hh, resourceInt_ne_zero hf, fun hc => ?_⟩
    have hval := congrArg UInt32.toNat hc
    simp only [vtcDts] at hval
    rw [hcell, UInt32.toNat_zero] at hval
    omega
  have hmax : (resourceInt t'.pixelClock).toNat + (resourceInt t'.pixelClock).toNat / 200 < 2 ^ 32 := by
    rw [hcell]
    omega
  have hiff := validateMode_ceiling_iff (s := VideoTree.driver ⟨vtcDts vs t', some (pixClkDts periphery t')⟩)
    rfl hcomplete rfl hmax
  rw [BootAccepted, bringUp_retunable rfl, and_self, hclk, Int.toNat_natCast,
    ← solve_ceiling_iff hlt hin le_rfl, ← hcell]
  exact hiff

/-- A pipeline that fits the carve-out and that the generator finds a setting for is emitted. -/
theorem videoStream_emits {periphery : UInt32} {vs : VideoStreamParams} {t : VideoTiming} {clock div m8 o8 : ℕ}
    (hinc : vs.incoherent = true) (ht : timingFor vs = .ok t)
    (hfits : ¬ vs.width.toInt64 * vs.height.toInt64 * 3 > Int64.ofNat VideoFbSize) (hclock : t.pixelClock = clock)
    (htried : STried (advertised periphery) clock div m8 o8)
    (hw : ExactWithin (advertised periphery) clock div m8 o8) :
    videoStream periphery true vs = .ok ⟨vtcDts vs t, some (pixClkDts periphery t)⟩ := by
  obtain ⟨set, hset⟩ := mmcm_solve_ok_iff.mpr ⟨div, m8, o8, htried, hw⟩
  unfold videoStream
  rw [ht]
  dsimp only
  rw [hinc, if_neg (by decide), if_neg hfits, if_pos rfl, hclock, Int.cast_natCast, hset]

def fullHdStream : VideoStreamParams := ⟨1920, 1080, 60, true⟩

def fullHdTiming : VideoTiming := ⟨1920, 88, 44, 148, 1080, 4, 5, 36, true, true, 60⟩

/-- 1080p60 out of 100 MHz is hit exactly. -/
theorem fullHd_boots : ∃ dt, videoStream 100000000 true fullHdStream = .ok dt ∧ BootAccepted dt := by
  have htiming : timingFor fullHdStream = .ok fullHdTiming := by decide
  have htried : Tried (advertised 100000000) 148500000 4 297 50 := by decide
  have hexact : ExactWithin (advertised 100000000) 148500000 4 297 50 := by
    norm_num [ExactWithin, exactErr, exactHz, advertised, show UInt32.toNat 100000000 = 100000000 from rfl]
  have hemit := @videoStream_emits 100000000 _ _ 148500000 _ _ _ rfl htiming (by decide) (by decide)
    ⟨htried.1, Or.inl (by decide)⟩ hexact
  refine ⟨_, hemit,
    (bootAccepted_iff 100000000 true fullHdStream rfl fullHdTiming htiming (by decide) _ hemit).mpr ?_⟩
  -- the quotient of the pair (4, 50) is whole
  refine ⟨0, 4, 50, Nat.zero_le _, .inl ⟨htried.1, ?_⟩, fun div' o8' hx => .inl ?_⟩
  · change rest (advertised 100000000) 148500000 4 50 ≤ 0 * (4 * 50)
    decide
  · have hx := hx.2
    rwa [Nat.sub_self] at hx

def fullHd75Stream : VideoStreamParams := ⟨1920, 1080, 75, true⟩

def fullHd75Timing : VideoTiming := ⟨1920, 48, 32, 80, 1080, 3, 5, 31, true, false, 75⟩

/-- Around 174.564 MHz out of 100 MHz no tried multiplier ends in the last 459 Hz below. -/
theorem fullHd75_none_below : ∀ div ∈ List.range' 1 10, ∀ o8 ∈ List.range' 8 66, ∀ i ∈ List.range 2,
    achieved (advertised 100000000) div (multFloor (advertised 100000000) 174564000 div o8 + i) o8 < 174563541 ∨
      174564000 < achieved (advertised 100000000) div
        (multFloor (advertised 100000000) 174564000 div o8 + i) o8 := by
  decide

/-- The closest setting for 1080p75 out of 100 MHz is 459 Hz fast: the generator accepts the mode, the driver
refuses it. -/
theorem fullHd75_not_booted :
    ∃ dt, videoStream 100000000 true fullHd75Stream = .ok dt ∧ fullHd75Timing.pixelClock < 2 ^ 32 ∧
      ¬ BootAccepted dt := by
  have htiming : timingFor fullHd75Stream = .ok fullHd75Timing := by decide +kernel
  have htried : Tried (advertised 100000000) 174564000 7 501 41 := by decide
  have hexact : ExactWithin (advertised 100000000) 174564000 7 501 41 := by
    norm_num [ExactWithin, exactErr, exactHz, advertised, show UInt32.toNat 100000000 = 100000000 from rfl, abs_le]
  have hemit := @videoStream_emits 100000000 _ _ 174564000 _ _ _ rfl htiming (by decide) (by decide)
    ⟨htried.1, Or.inr ⟨by decide, by decide⟩⟩ hexact
  refine ⟨_, hemit, by decide, fun h => ?_⟩
  obtain ⟨set, hsolved, hbelow⟩ := (validateMode_ceiling_iff (s := VideoTree.driver
    ⟨vtcDts fullHd75Stream fullHd75Timing, some (pixClkDts 100000000 fullHd75Timing)⟩) rfl
    (by decide) rfl (by decide)).mp h.1
  have hsolved : solve (advertised 100000000) 174564000 = .ok set := hsolved
  have hbelow : set.achievedHz ≤ 174564000 := hbelow
  obtain ⟨⟨div, m8, o8, ht, rfl⟩, -, hbest⟩ := solve_ok (by decide) hsolved
  have hclose := hbest 7 501 41 htried
  rw [show freqErr 174564000 (achieved (advertised 100000000) 7 501 41) = 459 by decide] at hclose
  simp only [settingOf] at hclose hbelow
  rw [freqErr, if_neg (by omega)] at hclose
  -- the windows leave ten input dividers, and output dividers up to nine
  obtain ⟨hdiv, ho8, i, hi, rfl⟩ := ht.mem_box (D := 10) (B := 74) (by decide) (by decide) (by decide)
  have hnone := fullHd75_none_below div hdiv o8 ho8 i hi
  omega

end Soceteer.Dp
