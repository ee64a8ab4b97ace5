import Soceteer.Clk.Mmcm

/-!
# Soceteer.Video.Timing — `VideoTiming.scala`

* `VideoTiming`: an active area with its blanking, in Scala `Int`s; `pixelClock` is the product it implies.
* `cvtReducedBlanking`: VESA CVT reduced blanking; `Double`s are read as exact rationals.
* `forMode`: the CEA-861 table, reduced blanking for everything else.
* `forMode_active`: the timing of a mode has the mode's active area and rate, all positive.
-/

namespace Soceteer.Video

/-- `VideoTiming`. -/
structure VideoTiming where
  hActive : Int32
  hFrontPorch : Int32
  hSyncLen : Int32
  hBackPorch : Int32
  vActive : Int32
  vFrontPorch : Int32
  vSyncLen : Int32
  vBackPorch : Int32
  hSyncPositive : Bool
  vSyncPositive : Bool
  fps : Int32
deriving DecidableEq

namespace VideoTiming

def hTotal (t : VideoTiming) : Int32 := t.hActive + t.hFrontPorch + t.hSyncLen + t.hBackPorch

def vTotal (t : VideoTiming) : Int32 := t.vActive + t.vFrontPorch + t.vSyncLen + t.vBackPorch

/-- The clock in Hz. -/
def pixelClock (t : VideoTiming) : ℤ := t.hTotal.toInt * t.vTotal.toInt * t.fps.toInt

/-- The CEA-861 modes. -/
def Cta861Modes : List VideoTiming :=
  [⟨640, 16, 96, 48, 480, 10, 2, 33, false, false, 60⟩,
    ⟨1280, 110, 40, 220, 720, 5, 5, 20, true, true, 60⟩,
    ⟨1920, 88, 44, 148, 1080, 4, 5, 36, true, true, 60⟩]

/-- The `IllegalArgumentException` of a mode that is not positive. -/
structure ImpossibleMode where
  hActive : Int32
  vActive : Int32
  fps : Int32
deriving DecidableEq

/-- The vertical sync width encodes the aspect ratio. -/
def vSyncOf (hActive vActive : Int32) : Int32 :=
  if hActive * 3 = vActive * 4 then 4
  else if hActive * 9 = vActive * 16 then 5
  else if hActive * 10 = vActive * 16 then 6
  else if hActive * 4 = vActive * 5 then 7
  else if hActive * 9 = vActive * 15 then 7
  else 10

/-- `floor(RbMinVBlankUs / hPeriodEstUs)`. -/
def blankLines (vActive fps : Int32) : ℤ :=
  let framePeriodUs : ℚ := 1000000 / fps.toInt
  let hPeriodEstUs := (framePeriodUs - 460) / vActive.toInt
  ⌊460 / hPeriodEstUs⌋

/-- `cvtReducedBlanking`. -/
def cvtReducedBlanking (hActive vActive fps : Int32) : Except ImpossibleMode VideoTiming :=
  if hActive > 0 ∧ vActive > 0 ∧ fps > 0 then
    let vSync := vSyncOf hActive vActive
    let vbiLines := Int32.ofInt (Clk.MmcmSolver.toInt (blankLines vActive fps)) + 1
    let actVbiLines := max vbiLines (3 + vSync + 6)
    .ok ⟨hActive, 48, 32, 80, vActive, 3, vSync, actVbiLines - 3 - vSync, true, false, fps⟩
  else .error ⟨hActive, vActive, fps⟩

/-- `forMode`. -/
def forMode (hActive vActive fps : Int32) : Except ImpossibleMode VideoTiming :=
  match Cta861Modes.find? fun t => t.hActive = hActive ∧ t.vActive = vActive ∧ t.fps = fps with
  | some t => .ok t
  | none => cvtReducedBlanking hActive vActive fps

theorem cvtReducedBlanking_active {hActive vActive fps : Int32} {t : VideoTiming}
    (h : cvtReducedBlanking hActive vActive fps = .ok t) :
    (t.hActive = hActive ∧ t.vActive = vActive ∧ t.fps = fps) ∧ hActive > 0 ∧ vActive > 0 ∧ fps > 0 := by
  unfold cvtReducedBlanking at h
  split_ifs at h with hpos
  cases h
  exact ⟨⟨rfl, rfl, rfl⟩, hpos⟩

theorem cta861_positive : ∀ t ∈ Cta861Modes, t.hActive > 0 ∧ t.vActive > 0 ∧ t.fps > 0 := by decide

/-- **A timing is one of its mode**, and the mode is positive. -/
theorem forMode_active {hActive vActive fps : Int32} {t : VideoTiming} (h : forMode hActive vActive fps = .ok t) :
    (t.hActive = hActive ∧ t.vActive = vActive ∧ t.fps = fps) ∧ hActive > 0 ∧ vActive > 0 ∧ fps > 0 := by
  unfold forMode at h
  split at h
  · rename_i t' hfind
    cases h
    have hmem := List.mem_of_find?_eq_some hfind
    have hmode := List.find?_some hfind
    simp only [decide_eq_true_eq] at hmode
    obtain ⟨rfl, rfl, rfl⟩ := hmode
    exact ⟨⟨rfl, rfl, rfl⟩, cta861_positive t hmem⟩
  · exact cvtReducedBlanking_active h

end VideoTiming

end Soceteer.Video
