import Soceteer.Dp.Request

/-!
# Soceteer.Dp.Shape — one geometry in four places

The geometry of the framebuffer is kept in `fbs`, in the `fb_info`, in the pipeline's current mode and in the
registers of the VDMA, and a switch can fail halfway.

* `Shaped`: they agree, and nothing leaves the carve-out.
* `WordSized`: the frames of a geometry take less than 32 bits.
* `Switches`, `StepOk`: what a request has to meet when its switch succeeds; `stepOk_of_fineGrid`: the designs
  where every request does.
* `setVar_cases`: the ends of a request.
* `ShapeInv`: the invariant; `ShapeInv.handle`: one request keeps it.
* `shaped_run`: every state of a run is shaped, as long as its requests meet `StepOk`.
-/

namespace Soceteer.Dp

open Clk

/-! ## Agreement of the four -/

/-- Store 1 of the VDMA's last start is one frame behind store 0 exactly when the framebuffer has two frames. -/
def ScansFrames (d : Fbdev) : Prop :=
  ∃ pre writes post a b, d.sys.log = pre ++ .vdma writes :: post ∧ (∀ ev ∈ post, ev.onVdma = false) ∧
    writes.lookup 0x5C = some a ∧ writes.lookup 0x60 = some b ∧
    (d.fbs.frames = 2 ↔ b = a + d.fbs.stride * d.fbs.height)

/-- The length of the framebuffer in bytes. -/
def Fbs.length (fbs : Fbs) : ℕ := fbs.stride.toNat * fbs.height.toNat * fbs.frames.toNat

structure Shaped (d : Fbdev) : Prop where
  size : d.fbs.length ≤ d.fbs.carveoutSize
  smemLen : d.fix.smemLen.toNat = d.fbs.length
  defio : d.fbs.mmapOk = true → d.fix.smemLen ≤ d.fbs.defioSize
  mode : d.fbs.mode = .zero ∨ (d.fbs.mode = d.sys.drv.cur ∧ d.fbs.width = d.sys.drv.cur.hactive ∧
    d.fbs.height = d.sys.drv.cur.vactive ∧ d.fbs.stride.toNat = d.sys.drv.cur.hactive.toNat * 3)
  scans : d.sys.drv.cur ≠ .zero → ScansFrames d
  pan : ∀ var d', panDisplay d var = (none, d') →
    (d'.fbs.parkFrame.toNat + 1) * (d.fbs.stride.toNat * d.fbs.height.toNat) ≤ d.fbs.carveoutSize
  read : ∀ pos count off n, readSpan d.fix pos count = some (off, n) → ∀ i < n, off + i < d.fix.smemLen.toNat
  write : ∀ pos count off n, writeSpan d.fix pos count = some (off, n) → ∀ i < n, off + i < d.fix.smemLen.toNat

/-! ## Sizes -/

/-- The bytes of a frame. -/
def frameBytes (w h : ℕ) : ℕ := w * 3 * h

/-- How many frames the carve-out holds, two at most. -/
def frameCount (carveoutSize w h : ℕ) : ℕ := if 2 * frameBytes w h ≤ carveoutSize then 2 else 1

/-- The stride and the framebuffer fit 32 bits. -/
structure WordSized (carveoutSize w h : ℕ) : Prop where
  stride : w * 3 < 2 ^ 32
  length : frameBytes w h * frameCount carveoutSize w h < 2 ^ 32

theorem frameCount_cases (carveoutSize w h : ℕ) :
    (2 * frameBytes w h ≤ carveoutSize ∧ frameCount carveoutSize w h = 2) ∨
      (¬ 2 * frameBytes w h ≤ carveoutSize ∧ frameCount carveoutSize w h = 1) := by
  unfold frameCount
  by_cases hle : 2 * frameBytes w h ≤ carveoutSize
  · exact Or.inl ⟨hle, if_pos hle⟩
  · exact Or.inr ⟨hle, if_neg hle⟩

theorem WordSized.frame_lt {carveoutSize w h : ℕ} (hw : WordSized carveoutSize w h) : frameBytes w h < 2 ^ 32 := by
  have hlen := hw.length
  obtain ⟨-, hc⟩ | ⟨-, hc⟩ := frameCount_cases carveoutSize w h <;> rw [hc] at hlen <;> omega

/-- A framebuffer that fits a carve-out below 4 GiB is below 4 GiB. -/
theorem length_lt_of_carveout {carveoutSize w h : ℕ} (hc : carveoutSize < 2 ^ 32)
    (hfit : frameBytes w h ≤ carveoutSize) : frameBytes w h * frameCount carveoutSize w h < 2 ^ 32 := by
  obtain ⟨hle, hcount⟩ | ⟨-, hcount⟩ := frameCount_cases carveoutSize w h <;> rw [hcount] <;> omega

/-- The stride is no longer than a frame. -/
theorem wordSized_of_length {carveoutSize w h : ℕ} (hh : h ≠ 0)
    (hlen : frameBytes w h * frameCount carveoutSize w h < 2 ^ 32) : WordSized carveoutSize w h := by
  have hstride : w * 3 ≤ frameBytes w h := Nat.le_mul_of_pos_right _ (Nat.pos_of_ne_zero hh)
  refine ⟨?_, hlen⟩
  obtain ⟨-, hc⟩ | ⟨-, hc⟩ := frameCount_cases carveoutSize w h <;> rw [hc] at hlen <;> omega

section Words

variable {carveoutSize : ℕ} {w h : UInt32} (hw : WordSized carveoutSize w.toNat h.toNat)
include hw

theorem stride_toNat : (w * 3).toNat = w.toNat * 3 := by
  rw [UInt32.toNat_mul]
  exact Nat.mod_eq_of_lt hw.stride

/-- The `u64` product of `fb_nframes` is exact. -/
theorem nframes_toNat : (nframes carveoutSize (w * 3) h).toNat = frameCount carveoutSize w.toNat h.toNat := by
  have hlt := hw.frame_lt
  have hprod : 2 * (w * 3).toNat * h.toNat % 2 ^ 64 = 2 * frameBytes w.toNat h.toNat := by
    rw [stride_toNat hw, Nat.mul_assoc]
    exact Nat.mod_eq_of_lt (by unfold frameBytes at hlt; omega)
  unfold nframes frameCount
  rw [hprod]
  split_ifs <;> rfl

theorem frame_toNat : (w * 3 * h).toNat = frameBytes w.toNat h.toNat := by
  rw [UInt32.toNat_mul, stride_toNat hw]
  exact Nat.mod_eq_of_lt hw.frame_lt

theorem length_toNat : (w * 3 * h * nframes carveoutSize (w * 3) h).toNat =
    frameBytes w.toNat h.toNat * frameCount carveoutSize w.toNat h.toNat := by
  rw [UInt32.toNat_mul, frame_toNat hw, nframes_toNat hw]
  exact Nat.mod_eq_of_lt hw.length

/-- **Both decisions about a second frame agree**, that of the framebuffer and that of the VDMA. -/
theorem vdmaWrites_stores (fb : ℕ) (dmacr : UInt32) : ∃ a b,
    (vdmaWrites fb carveoutSize w h dmacr).lookup 0x5C = some a ∧
      (vdmaWrites fb carveoutSize w h dmacr).lookup 0x60 = some b ∧
      (nframes carveoutSize (w * 3) h = 2 ↔ b = a + w * 3 * h) := by
  have hlt := hw.frame_lt
  have hframe : w.toNat * 3 * h.toNat % 2 ^ 64 = frameBytes w.toNat h.toNat :=
    Nat.mod_eq_of_lt (lt_trans hlt (by decide))
  have hdouble : 2 * frameBytes w.toNat h.toNat % 2 ^ 64 = 2 * frameBytes w.toNat h.toNat :=
    Nat.mod_eq_of_lt (by omega)
  have hcount := nframes_toNat hw
  have htwo : nframes carveoutSize (w * 3) h = 2 ↔ frameCount carveoutSize w.toNat h.toNat = 2 := by
    rw [← UInt32.toNat_inj, hcount]
    rfl
  have hword : UInt32.ofNat (frameBytes w.toNat h.toNat) = w * 3 * h := by
    rw [← UInt32.toNat_inj, frame_toNat hw, UInt32.toNat_ofNat_of_lt' hlt]
  refine ⟨UInt32.ofNat fb, UInt32.ofNat (if 2 * frameBytes w.toNat h.toNat ≤ carveoutSize then
    fb + frameBytes w.toNat h.toNat else fb), ?_, ?_, ?_⟩
  · rfl
  · unfold vdmaWrites
    rw [hframe]
    simp only [hdouble]
    simp [List.lookup_cons, List.range_succ]
  · rw [htwo]
    obtain ⟨hle, hc⟩ | ⟨hle, hc⟩ := frameCount_cases carveoutSize w.toNat h.toNat
    · rw [hc, if_pos hle, UInt32.ofNat_add, hword]
      exact ⟨fun _ => rfl, fun _ => rfl⟩
    · rw [hc, if_neg hle]
      refine ⟨fun hc => (by cases hc), fun heq => ?_⟩
      have hzero : w * 3 * h = 0 := by
        have := heq.symm
        rwa [UInt32.add_eq_left] at this
      have hval := frame_toNat hw
      rw [hzero, UInt32.toNat_zero] at hval
      omega

end Words

/-! ## The invariant -/

/-- The VDMA was last started with the geometry of the current mode. -/
def LastStart (s : Driver) (log : List Event) : Prop :=
  ∃ pre dmacr post, log = pre ++ .vdma (vdmaWrites s.fb s.fbSize s.cur.hactive s.cur.vactive dmacr) :: post ∧
    ∀ ev ∈ post, ev.onVdma = false

/-- The state is that of a framebuffer of `w` by `h` pixels. -/
structure HasShape (d : Fbdev) (w h : UInt32) : Prop where
  carveout : d.fbs.carveoutSize = d.sys.drv.fbSize
  width : d.fbs.width = w
  height : d.fbs.height = h
  stride : d.fbs.stride = w * 3
  frames : d.fbs.frames = nframes d.fbs.carveoutSize (w * 3) h
  smemLen : d.fix.smemLen = w * 3 * h * nframes d.fbs.carveoutSize (w * 3) h
  sized : WordSized d.fbs.carveoutSize w.toNat h.toNat
  fit : frameBytes w.toNat h.toNat ≤ d.fbs.carveoutSize
  defio : d.fbs.mmapOk = true →
    frameBytes w.toNat h.toNat * frameCount d.fbs.carveoutSize w.toNat h.toNat ≤ d.fbs.defioSize.toNat

/-- A forgotten mode leaves the framebuffer in the shape it had. -/
structure ShapeInv (d : Fbdev) : Prop where
  shape : ∃ w h, HasShape d w h ∧ (d.sys.drv.cur ≠ .zero → w = d.sys.drv.cur.hactive ∧ h = d.sys.drv.cur.vactive)
  mode : d.fbs.mode = .zero ∨ d.fbs.mode = d.sys.drv.cur
  start : d.sys.drv.cur ≠ .zero → LastStart d.sys.drv d.sys.log

theorem HasShape.length {d : Fbdev} {w h : UInt32} (hs : HasShape d w h) :
    d.fbs.length = frameBytes w.toNat h.toNat * frameCount d.fbs.carveoutSize w.toNat h.toNat := by
  unfold Fbs.length
  rw [hs.stride, hs.height, hs.frames, nframes_toNat hs.sized, stride_toNat hs.sized]
  rfl

theorem HasShape.length_le {d : Fbdev} {w h : UInt32} (hs : HasShape d w h) :
    d.fbs.length ≤ d.fbs.carveoutSize := by
  have hfit := hs.fit
  rw [hs.length]
  obtain ⟨hle, hc⟩ | ⟨-, hc⟩ := frameCount_cases d.fbs.carveoutSize w.toNat h.toNat <;> rw [hc] <;> omega

theorem HasShape.smemLen_toNat {d : Fbdev} {w h : UInt32} (hs : HasShape d w h) :
    d.fix.smemLen.toNat = d.fbs.length := by
  rw [hs.smemLen, length_toNat hs.sized, hs.length]

/-- The two ends of a pan: refused, or parked on one of the frames. -/
theorem panDisplay_cases (d : Fbdev) (var : VarScreenInfo) : (∃ e, panDisplay d var = (some e, d)) ∨
    ∃ k < d.fbs.frames,
      panDisplay d var = (none, { d with fbs := { d.fbs with parkFrame := k, parkReq := true } }) := by
  unfold panDisplay
  split_ifs with h1 h2 h3 h4
  · exact Or.inl ⟨_, rfl⟩
  · exact Or.inl ⟨_, rfl⟩
  · exact Or.inl ⟨_, rfl⟩
  · exact Or.inl ⟨_, rfl⟩
  · exact Or.inr ⟨_, UInt32.not_le.mp h4, rfl⟩

theorem HasShape.pan {d d' : Fbdev} {w h : UInt32} (hs : HasShape d w h) {var : VarScreenInfo}
    (hpan : panDisplay d var = (none, d')) :
    (d'.fbs.parkFrame.toNat + 1) * (d.fbs.stride.toNat * d.fbs.height.toNat) ≤ d.fbs.carveoutSize := by
  obtain ⟨e, he⟩ | ⟨k, hk, hok⟩ := panDisplay_cases d var
  · rw [he] at hpan
    cases hpan
  · rw [hok] at hpan
    cases hpan
    calc (k.toNat + 1) * (d.fbs.stride.toNat * d.fbs.height.toNat)
        ≤ d.fbs.frames.toNat * (d.fbs.stride.toNat * d.fbs.height.toNat) :=
          Nat.mul_le_mul_right _ (UInt32.lt_iff_toNat_lt.mp hk)
      _ = d.fbs.length := Nat.mul_comm _ _
      _ ≤ d.fbs.carveoutSize := hs.length_le

theorem readSpan_below {fix : FixScreenInfo} {pos : Int64} {count : UInt64} {off n : ℕ}
    (h : readSpan fix pos count = some (off, n)) : ∀ i < n, off + i < fix.smemLen.toNat := by
  unfold readSpan at h
  dsimp only at h
  split_ifs at h with h1 h2
  cases h
  intro i hi
  push Not at h2
  omega

theorem writeSpan_below {fix : FixScreenInfo} {pos : Int64} {count : UInt64} {off n : ℕ}
    (h : writeSpan fix pos count = some (off, n)) : ∀ i < n, off + i < fix.smemLen.toNat := by
  unfold writeSpan at h
  dsimp only at h
  split_ifs at h with h1 h2
  cases h
  intro i hi
  push Not at h1
  omega

/-- What the invariant gives. -/
theorem ShapeInv.shaped {d : Fbdev} (hi : ShapeInv d) : Shaped d := by
  obtain ⟨w, h, hs, hcur⟩ := hi.shape
  refine ⟨hs.length_le, hs.smemLen_toNat, fun hm => ?_, ?_, fun hne => ?_, fun var d' hpan => hs.pan hpan,
    fun pos count off n hspan => readSpan_below hspan, fun pos count off n hspan => writeSpan_below hspan⟩
  · rw [UInt32.le_iff_toNat_le, hs.smemLen, length_toNat hs.sized]
    exact hs.defio hm
  · by_cases hzero : d.fbs.mode = .zero
    · exact Or.inl hzero
    · have hmode := hi.mode.resolve_left hzero
      obtain ⟨rfl, rfl⟩ := hcur (hmode ▸ hzero)
      exact Or.inr ⟨hmode, hs.width, hs.height, by rw [hs.stride, stride_toNat hs.sized]⟩
  · obtain ⟨pre, dmacr, post, hlog, hpost⟩ := hi.start hne
    obtain ⟨rfl, rfl⟩ := hcur hne
    obtain ⟨a, b, ha, hb, htwo⟩ := vdmaWrites_stores hs.sized d.sys.drv.fb dmacr
    rw [hs.carveout] at ha hb
    refine ⟨pre, _, post, a, b, hlog, hpost, ha, hb, ?_⟩
    rw [hs.frames, hs.stride, hs.height]
    exact htwo

/-! ## One request -/

/-- The request gets as far as a switch, and the switch succeeds. -/
def Switches (d : Fbdev) (var : VarScreenInfo) (o : Outcome) : Prop :=
  ∃ var' m₂ m, checkVar d.fbs d.sys.drv var = .ok var' ∧ varToMode var' = .ok m₂ ∧
    validateMode d.sys.drv m₂ = .ok m ∧
    m ≠ d.fbs.mode ∧ (switchMode d.sys m o).1 = none

/-- What a request has to meet: a geometry that fits the carve-out fits 32 bits too, and a switch that succeeds is
one of a static design or of a fine divider grid. -/
def StepOk (d : Fbdev) : Request → Prop
  | .setVar var o =>
    (frameBytes var.xres.toNat var.yres.toNat ≤ d.fbs.carveoutSize →
      frameBytes var.xres.toNat var.yres.toNat *
        frameCount d.fbs.carveoutSize var.xres.toNat var.yres.toNat < 2 ^ 32) ∧
    (Switches d var o → d.sys.drv.retunable = false ∨ FineGrid d.sys.drv.lim)
  | .pan _ => True

/-- A mode accepted on such a design is accepted again with the same clock. -/
theorem validateMode_lands {s : Driver} (h : s.retunable = false ∨ FineGrid s.lim) {m m' m'' : Mode}
    (hm' : validateMode s m = .ok m') (hm'' : validateMode s m' = .ok m'') : m'' = m' := by
  obtain ⟨-, ⟨hr, -, -, rfl⟩ | ⟨hr, set, hret⟩⟩ := validateMode_ok_iff.mp hm'
  · exact validateMode_static hr hm''
  · have hfine : FineGrid s.lim := h.resolve_left (by rw [hr]; decide)
    obtain ⟨set', hset', hach⟩ := hret.solved_again hfine
    obtain ⟨-, ⟨hr', -⟩ | ⟨-, set'', hret'⟩⟩ := validateMode_ok_iff.mp hm''
    · rw [hr] at hr'
      cases hr'
    · have hbelow : ¬ m'.pixelClockHz > s.maxHz := by
        rw [gt_iff_lt, UInt32.not_lt, UInt32.le_iff_toNat_le, hret.clock]
        exact hret.below
      have hsolved := hret'.solved
      rw [if_neg hbelow, hset'] at hsolved
      cases hsolved
      rw [hret'.rewritten, hach, UInt32.ofNat_toNat]

/-- A design with a fine divider grid and a carve-out below 4 GiB meets every request. -/
theorem stepOk_of_fineGrid {d : Fbdev} (hc : d.fbs.carveoutSize < 2 ^ 32) (hfine : FineGrid d.sys.drv.lim) :
    ∀ r : Request, StepOk d r
  | .setVar _ _ => ⟨length_lt_of_carveout hc, fun _ => .inr hfine⟩
  | .pan _ => trivial

/-- The ends of `fb_set_var`: nothing changes, the mode is the current one, the switch fails, or it succeeds. -/
theorem setVar_cases (core : VarScreenInfo → Bool) (d : Fbdev) (var : VarScreenInfo) (o : Outcome) :
    (∃ e, setVar core d var o = (some e, d)) ∨ (∃ var', setVar core d var o = (none, { d with var := var' })) ∨
    ∃ var' m₂ m, core var = true ∧ checkVar d.fbs d.sys.drv var = .ok var' ∧ varToMode var' = .ok m₂ ∧
      validateMode d.sys.drv m₂ = .ok m ∧ m ≠ d.fbs.mode ∧
      ((∃ e sys, switchMode d.sys m o = (some e, sys) ∧ setVar core d var o =
          (some (.errno e), { d with fbs := { d.fbs with mode := .zero, parkReq := false }, sys := sys })) ∨
        ∃ sys, switchMode d.sys m o = (none, sys) ∧
          setVar core d var o = (none, { reshape d m sys with var := var' })) := by
  unfold setVar
  cases hcore : core var with
  | false => exact Or.inl ⟨_, rfl⟩
  | true =>
    cases hcheck : checkVar d.fbs d.sys.drv var with
    | error e => exact Or.inl ⟨e, rfl⟩
    | ok var' =>
      dsimp only
      unfold setPar
      cases hmode : varToMode var' with
      | error e => exact Or.inl ⟨e, rfl⟩
      | ok m₂ =>
        dsimp only
        cases hval : validateMode d.sys.drv m₂ with
        | error e => exact Or.inl ⟨_, rfl⟩
        | ok m =>
          dsimp only
          by_cases hsame : m = d.fbs.mode
          · rw [if_pos hsame]
            exact Or.inr (Or.inl ⟨var', rfl⟩)
          · rw [if_neg hsame]
            refine Or.inr (Or.inr ⟨var', m₂, m, rfl, rfl, hmode, hval, hsame, ?_⟩)
            cases hsw : switchMode d.sys m o with
            | mk err sys =>
              cases err with
              | some e => exact Or.inl ⟨e, sys, rfl, rfl⟩
              | none => exact Or.inr ⟨sys, rfl, rfl⟩

/-- A request that passes every check and whose switch succeeds. -/
theorem setVar_switches {core : VarScreenInfo → Bool} {d : Fbdev} {var var' : VarScreenInfo}
    {o : Outcome} {m₂ m : Mode}
    {sys : Sys} (hcore : core var = true) (hcheck : checkVar d.fbs d.sys.drv var = .ok var')
    (hmode : varToMode var' = .ok m₂) (hval : validateMode d.sys.drv m₂ = .ok m) (hne : m ≠ d.fbs.mode)
    (hsw : switchMode d.sys m o = (none, sys)) :
    setVar core d var o = (none, { reshape d m sys with var := var' }) := by
  have hpar : setPar d var' o = (none, reshape d m sys) := by
    unfold setPar
    rw [hmode]
    dsimp only
    rw [hval]
    dsimp only
    rw [if_neg hne, hsw]
  unfold setVar
  rw [hcore, hcheck]
  dsimp only
  rw [hpar]
  rfl

/-- From the var to the mode that is switched to, the geometry stays. -/
theorem accepted_geometry {fbs : Fbs} {s : Driver} {var var' : VarScreenInfo} {m₂ m : Mode}
    (hcheck : checkVar fbs s var = .ok var') (hmode : varToMode var' = .ok m₂) (hval : validateMode s m₂ = .ok m) :
    m.hactive = var.xres ∧ m.vactive = var.yres := by
  obtain ⟨m₀, m₁, hm₀, -, hm₁, rfl⟩ := checkVar_ok_iff.mp hcheck
  have h₀ := varToMode_eq_modeOf hm₀
  have h₁ := validateMode_geometry hm₁
  have h₂ := varToMode_eq_modeOf hmode
  have h₃ := validateMode_geometry hval
  have hfill : ∀ fps, (modeOf (fillVar fbs.carveoutSize m₁ var) fps).hactive = m₁.hactive ∧
      (modeOf (fillVar fbs.carveoutSize m₁ var) fps).vactive = m₁.vactive := fun _ => ⟨rfl, rfl⟩
  constructor
  · rw [h₃, h₂]
    change (modeOf (fillVar fbs.carveoutSize m₁ var) m₂.fps).hactive = _
    rw [(hfill m₂.fps).1, h₁, h₀]
    rfl
  · rw [h₃, h₂]
    change (modeOf (fillVar fbs.carveoutSize m₁ var) m₂.fps).vactive = _
    rw [(hfill m₂.fps).2, h₁, h₀]
    rfl

/-- The size tests, in exact numbers; the framebuffer core refuses a geometry whose product leaves 32 bits. -/
theorem checkVar_fits {fbs : Fbs} {s : Driver} {var var' : VarScreenInfo} (hcheck : checkVar fbs s var = .ok var')
    (hcore : var.xres.toNat * var.yres.toNat < 2 ^ 32) :
    frameBytes var.xres.toNat var.yres.toNat ≤ fbs.carveoutSize ∧
      (WordSized fbs.carveoutSize var.xres.toNat var.yres.toNat → fbs.mmapOk = true →
        frameBytes var.xres.toNat var.yres.toNat * frameCount fbs.carveoutSize var.xres.toNat var.yres.toNat ≤
          fbs.defioSize.toNat) := by
  obtain ⟨m, m', hm, hfits, -, -⟩ := checkVar_ok_iff.mp hcheck
  have hgeom := varToMode_eq_modeOf hm
  have hx : m.hactive = var.xres := by rw [hgeom]; rfl
  have hy : m.vactive = var.yres := by rw [hgeom]; rfl
  have hbytes : frameBytes var.xres.toNat var.yres.toNat = var.xres.toNat * var.yres.toNat * 3 := by
    unfold frameBytes
    ring
  have hsize : frameSize m = frameBytes var.xres.toNat var.yres.toNat := by
    unfold frameSize
    rw [hx, hy, hbytes]
    exact Nat.mod_eq_of_lt (by omega)
  unfold fits at hfits
  rw [hsize, hx, hy, Bool.and_eq_true, decide_eq_true_eq] at hfits
  refine ⟨hfits.1, fun hw hmmap => ?_⟩
  have hdefio := hfits.2
  rw [hmmap, nframes_toNat hw, Nat.mod_eq_of_lt (lt_trans hw.length (by decide))] at hdefio
  simpa using hdefio

/-- The mode and the park request do not shape the framebuffer. -/
theorem HasShape.keep {d d' : Fbdev} {w h : UInt32} (hs : HasShape d w h)
    (hfbs : ∃ m r k, d'.fbs = { d.fbs with mode := m, parkReq := r, parkFrame := k }) (hfix : d'.fix = d.fix)
    (hdrv : d'.sys.drv.fbSize = d.sys.drv.fbSize) : HasShape d' w h := by
  obtain ⟨m, r, k, hfbs⟩ := hfbs
  constructor <;> rw [hfbs]
  · rw [hdrv]
    exact hs.carveout
  · exact hs.width
  · exact hs.height
  · exact hs.stride
  · exact hs.frames
  · rw [hfix]
    exact hs.smemLen
  · exact hs.sized
  · exact hs.fit
  · exact hs.defio

theorem HasShape.reshape {d : Fbdev} {w h : UInt32} (hs : HasShape d w h) {m : Mode} {sys : Sys}
    {var : VarScreenInfo}
    (hdrv : sys.drv.fbSize = d.sys.drv.fbSize)
    (hsized : WordSized d.fbs.carveoutSize m.hactive.toNat m.vactive.toNat)
    (hfit : frameBytes m.hactive.toNat m.vactive.toNat ≤ d.fbs.carveoutSize)
    (hdefio : d.fbs.mmapOk = true → frameBytes m.hactive.toNat m.vactive.toNat *
      frameCount d.fbs.carveoutSize m.hactive.toNat m.vactive.toNat ≤ d.fbs.defioSize.toNat) :
    HasShape { reshape d m sys with var := var } m.hactive m.vactive := by
  refine ⟨hs.carveout.trans hdrv.symm, rfl, rfl, rfl, rfl, ?_, hsized, hfit, hdefio⟩
  change UInt32.ofNat ((m.hactive * 3).toNat * m.vactive.toNat *
    (nframes d.fbs.carveoutSize (m.hactive * 3) m.vactive).toNat) = _
  rw [UInt32.ofNat_mul, UInt32.ofNat_mul, UInt32.ofNat_toNat, UInt32.ofNat_toNat, UInt32.ofNat_toNat]
  rfl

/-- A successful switch ends with the start of the VDMA. -/
theorem lastStart_switchEvents (s : Driver) (log : List Event) (want : Mode) (set : Option Setting)
    (dmacr : UInt32) :
    LastStart { s with cur := want } (log ++ switchEvents s want set dmacr) := by
  cases set with
  | none => exact ⟨log ++ [.halt, .halt], dmacr, [.vtc (vtcWrites want), .stream want], by simp [switchEvents],
      by simp [Event.onVdma]⟩
  | some set => exact ⟨log ++ [.halt, .wzrd (wzrdWrites set), .load set true, .halt], dmacr,
      [.vtc (vtcWrites want), .stream want], by simp [switchEvents], by simp [Event.onVdma]⟩

/-- **`fb_set_var` keeps the invariant.** -/
theorem ShapeInv.setVar {core : VarScreenInfo → Bool}
    (hcore : ∀ var, core var = true → var.xres.toNat * var.yres.toNat < 2 ^ 32) {d : Fbdev} (hi : ShapeInv d)
    {var : VarScreenInfo} {o : Outcome} (hok : StepOk d (.setVar var o)) : ShapeInv (setVar core d var o).2 := by
  obtain ⟨w, h, hs, hcur⟩ := hi.shape
  obtain ⟨e, he⟩ | ⟨var', he⟩ | ⟨var', m₂, m, hvar, hcheck, hmode, hval, hne, hend⟩ := setVar_cases core d var o
  · rw [he]
    exact hi
  · rw [he]
    exact ⟨⟨w, h, hs.keep ⟨_, _, _, rfl⟩ rfl rfl, hcur⟩, hi.mode, hi.start⟩
  obtain ⟨hx, hy⟩ := accepted_geometry hcheck hmode hval
  obtain ⟨hfit, hdefio⟩ := checkVar_fits hcheck (hcore var hvar)
  have hy0 : var.yres.toNat ≠ 0 := fun hc =>
    (validateMode_complete hval).vactive (hy.trans (UInt32.toNat_inj.mp hc))
  have hsized : WordSized d.fbs.carveoutSize var.xres.toNat var.yres.toNat :=
    wordSized_of_length hy0 (hok.1 hfit)
  have hnew : ∀ sys, sys.drv.fbSize = d.sys.drv.fbSize →
      HasShape { reshape d m sys with var := var' } m.hactive m.vactive := by
    intro sys hsys
    rw [← hx, ← hy] at hsized hfit hdefio
    exact hs.reshape hsys hsized hfit (hdefio hsized)
  rcases hend with ⟨e, sys, hsw, he⟩ | ⟨sys, hsw, he⟩ <;> rw [he]
  · -- the framebuffer keeps its shape; the current mode is what it was or forgotten
    rcases switchMode_cases d.sys m o with ⟨e', he'⟩ | ⟨-, he'⟩ | ⟨want, set, -, -, -, ⟨e', he'⟩ | ⟨-, he'⟩⟩ <;>
      rw [he'] at hsw <;> cases hsw
    · exact ⟨⟨w, h, hs.keep ⟨_, _, _, rfl⟩ rfl rfl, hcur⟩, Or.inl rfl, hi.start⟩
    · exact ⟨⟨w, h, hs.keep ⟨_, _, _, rfl⟩ rfl rfl, fun hc => absurd rfl hc⟩, Or.inl rfl, fun hc => absurd rfl hc⟩
  · have hfine := hok.2 ⟨var', m₂, m, hcheck, hmode, hval, hne, by rw [hsw]⟩
    rcases switchMode_cases d.sys m o with ⟨e', he'⟩ | ⟨hwant, he'⟩ | ⟨want, set, hwant, -, -,
      ⟨e', he'⟩ | ⟨-, he'⟩⟩ <;>
      rw [he'] at hsw <;> cases hsw
    · have hm := validateMode_lands hfine hval hwant
      exact ⟨⟨_, _, hnew _ rfl, fun _ => ⟨congrArg Mode.hactive hm.symm, congrArg Mode.vactive hm.symm⟩⟩,
        Or.inr hm.symm, hi.start⟩
    · obtain rfl := validateMode_lands hfine hval hwant
      exact ⟨⟨_, _, hnew _ rfl, fun _ => ⟨rfl, rfl⟩⟩, Or.inr rfl, fun _ => lastStart_switchEvents ..⟩

/-- **One request keeps the invariant.** -/
theorem ShapeInv.handle {core : VarScreenInfo → Bool}
    (hcore : ∀ var, core var = true → var.xres.toNat * var.yres.toNat < 2 ^ 32) {d : Fbdev} (hi : ShapeInv d)
    {r : Request} (hok : StepOk d r) : ShapeInv (handle core d r).2 := by
  cases r with
  | setVar var o => exact hi.setVar hcore hok
  | pan var =>
    change ShapeInv (panDisplay d var).2
    obtain ⟨w, h, hs, hcur⟩ := hi.shape
    obtain ⟨e, he⟩ | ⟨k, -, he⟩ := panDisplay_cases d var <;> rw [he]
    · exact hi
    · exact ⟨⟨w, h, hs.keep ⟨_, _, _, rfl⟩ rfl rfl, hcur⟩, hi.mode, hi.start⟩

/-! ## Runs -/

/-- Every request of the run meets its condition in the state it finds. -/
def RunOk (core : VarScreenInfo → Bool) : Fbdev → List Request → Prop
  | _, [] => True
  | d, r :: reqs => StepOk d r ∧ RunOk core (handle core d r).2 reqs

theorem ShapeInv.run {core : VarScreenInfo → Bool}
    (hcore : ∀ var, core var = true → var.xres.toNat * var.yres.toNat < 2 ^ 32) :
    ∀ (reqs : List Request) {d : Fbdev}, ShapeInv d → RunOk core d reqs → ShapeInv (runRequests core d reqs)
  | [], _, hi, _ => hi
  | _ :: reqs, _, hi, hok => ShapeInv.run hcore reqs (hi.handle hcore hok.1) hok.2

/-- The device as it is registered. -/
theorem shapeInv_register {sys : Sys} {mmapOk : Bool} {fbs : Fbs}
    (hprep : prepare sys.drv.fbSize mmapOk sys.drv.cur = .ok fbs) (hstart : LastStart sys.drv sys.log)
    (hsized : WordSized sys.drv.fbSize sys.drv.cur.hactive.toNat sys.drv.cur.vactive.toNat) :
    ShapeInv (register fbs sys) := by
  unfold prepare at hprep
  dsimp only at hprep
  split_ifs at hprep with hfit
  cases hprep
  have hexact : sys.drv.cur.hactive.toNat * 3 * sys.drv.cur.vactive.toNat % 2 ^ 64 =
      frameBytes sys.drv.cur.hactive.toNat sys.drv.cur.vactive.toNat :=
    Nat.mod_eq_of_lt (lt_trans hsized.frame_lt (by decide))
  rw [hexact] at hfit
  refine ⟨⟨_, _, ⟨rfl, rfl, rfl, rfl, rfl, rfl, hsized, Nat.not_lt.mp hfit, fun hm => ?_⟩, fun _ => ⟨rfl, rfl⟩⟩,
    Or.inr rfl, fun _ => hstart⟩
  change mmapOk = true at hm
  change _ ≤ (if mmapOk = true then sys.drv.cur.hactive * 3 * sys.drv.cur.vactive *
    nframes sys.drv.fbSize (sys.drv.cur.hactive * 3) sys.drv.cur.vactive else 0).toNat
  rw [if_pos hm, length_toNat hsized]
  rfl

/-- **The four geometries agree in every state of a run.**  The device is prepared and registered in the mode the
VDMA was started with, and the framebuffer core refuses products of `xres` and `yres` that leave 32 bits. -/
theorem shaped_run (core : VarScreenInfo → Bool)
    (hcore : ∀ var, core var = true → var.xres.toNat * var.yres.toNat < 2 ^ 32) (sys : Sys)
    (mmapOk : Bool) (fbs : Fbs)
    (hprep : prepare sys.drv.fbSize mmapOk sys.drv.cur = .ok fbs) (hstart : LastStart sys.drv sys.log)
    (hsized : WordSized sys.drv.fbSize sys.drv.cur.hactive.toNat sys.drv.cur.vactive.toNat) (reqs : List Request)
    (hok : RunOk core (register fbs sys) reqs) : Shaped (runRequests core (register fbs sys) reqs) :=
  (ShapeInv.run hcore reqs (shapeInv_register hprep hstart hsized) hok).shaped

/-- The framebuffer core's own check of a var. -/
def coreCheck (var : VarScreenInfo) : Bool :=
  8 ≤ var.xres.toNat && 8 ≤ var.yres.toNat && var.xres.toNat * var.yres.toNat < 2 ^ 32 &&
    var.xresVirtual.toNat * var.yresVirtual.toNat < 2 ^ 32

theorem coreCheck_product {var : VarScreenInfo} (h : coreCheck var = true) :
    var.xres.toNat * var.yres.toNat < 2 ^ 32 := by
  simp only [coreCheck, Bool.and_eq_true, decide_eq_true_eq] at h
  exact h.1.2

theorem lastStart_bootSys (s : Driver) (set : Setting) : LastStart (bootSys s set).drv (bootSys s set).log :=
  lastStart_switchEvents s [] s.cur (some set) 0

/-- A switch to 720p and a pan to the second frame. -/
theorem fastVar_shaped :
    Shaped (runRequests coreCheck (register fullHdFbs (bootSys fullHd ⟨4, 297, 50, 148500000⟩))
    [.setVar fastVar smooth, .pan { VarScreenInfo.zero with yoffset := 720 }]) :=
  shaped_run coreCheck (fun _ => coreCheck_product) (bootSys fullHd ⟨4, 297, 50, 148500000⟩) false fullHdFbs rfl
    (lastStart_bootSys _ _) ⟨by decide, by decide⟩ _
    ⟨stepOk_of_fineGrid (by decide) (fineGrid_of_pfdMin (by decide)) _, trivial, trivial⟩

/-! ## A clock that does not land -/

def coarseFbs : Fbs := ⟨0x1000000, coarse.cur, 8, 8, 24, 2, false, 0, false, 0⟩

def coarseDev : Fbdev := register coarseFbs (bootSys coarse ⟨92, 895, 750, 765⟩)

/-- The timing of `coarse` with a clock of 770 Hz. -/
def coarseVar : VarScreenInfo := { fillVar 0x1000000 coarse.cur .zero with pixclock := 1298701299 }

/-- The timing of `coarse` with another clock. -/
def coarseMode (clock : UInt32) : Mode := { coarse.cur with pixelClockHz := clock }

theorem coarse_validate : ∀ p ∈ [(768, 748), (769, 747), (770, 746)],
    validateMode coarse (coarseMode (UInt32.ofNat p.1)) = .ok (coarseMode (UInt32.ofNat (p.1 - 1))) := by
  intro p hp
  have hsolve := coarse_solve p (List.mem_cons_of_mem _ (List.mem_cons_of_mem _ hp))
  simp only [List.mem_cons, List.not_mem_nil, or_false] at hp
  rcases hp with rfl | rfl | rfl <;>
    exact validateMode_ok_iff.mpr ⟨by decide, Or.inr ⟨rfl, _, by decide, hsolve, by decide, rfl⟩⟩

/-- The clock goes down by 1 Hz in `check_var`, in `set_par` and in the switch, so that the framebuffer is left
with a mode of 768 Hz and the pipeline with one of 767 Hz. -/
theorem coarseVar_not_shaped :
    (∀ var, coreCheck var = true → var.xres.toNat * var.yres.toNat < 2 ^ 32) ∧
      prepare coarse.fbSize false coarse.cur = .ok coarseFbs ∧ LastStart coarseDev.sys.drv coarseDev.sys.log ∧
      ¬ Shaped (runRequests coreCheck coarseDev [.setVar coarseVar smooth]) := by
  refine ⟨fun _ => coreCheck_product, rfl, lastStart_bootSys _ _, fun hs => ?_⟩
  have hcheck : checkVar coarseDev.fbs coarseDev.sys.drv coarseVar =
      .ok (fillVar 0x1000000 (coarseMode 769) coarseVar) :=
    checkVar_ok_iff.mpr ⟨coarseMode 770, coarseMode 769, by decide, by decide,
      coarse_validate (770, 746) (by decide), rfl⟩
  have hmode : varToMode (fillVar 0x1000000 (coarseMode 769) coarseVar) = .ok (coarseMode 769) := by decide
  have hval : validateMode coarseDev.sys.drv (coarseMode 769) = .ok (coarseMode 768) :=
    coarse_validate (769, 747) (by decide)
  have hval' : validateMode coarseDev.sys.drv (coarseMode 768) = .ok (coarseMode 767) :=
    coarse_validate (768, 748) (by decide)
  have hsw := switchMode_smooth hval' (by decide) (coarse_solve (767, 749) (by decide))
  have hcore : coreCheck coarseVar = true := by decide
  have hrun := setVar_switches hcore hcheck hmode hval (by decide) hsw
  rw [runRequests, List.foldl_cons, handle, hrun] at hs
  have hbad : coarseMode 768 = .zero ∨ coarseMode 768 = coarseMode 767 := hs.mode.imp_right And.left
  revert hbad
  decide

end Soceteer.Dp
