import Soceteer.Dp.Mode

/-!
# Soceteer.Dp.Switch — switching modes

`soct_dp_switch_mode` halts the VDMA, retunes the pixel MMCM, and restarts the VDMA, the timing generator and the
stream.  Every stage can fail.

* `Event`: what the driver does to the hardware, with the register words it writes; `Outcome`: how the hardware
  answers during one request.
* `switchMode`: one request; `run`: a sequence of requests.
* `switchMode_cases`: the four ways a request ends.
* `Programmed`: the hardware is programmed for the cached mode, the geometry after the clock.
* `switch_run`: what holds in every reachable state.
-/

namespace Soceteer.Dp

open Clk

/-! ## Register words -/

/-- A word written at a register offset. -/
abbrev RegWrite := ℕ × UInt32

/-- The configuration words of `soct_clk_wzrd_retune`; eighths are thousandths of 125. -/
def wzrdWrites (set : Setting) : List RegWrite :=
  let multFrac := UInt32.ofNat (set.multEighths % 8 * 125)
  let odivFrac := UInt32.ofNat (set.odivEighths % 8 * 125)
  [(0x208, UInt32.ofNat (set.odivEighths / 8) ||| odivFrac <<< 8),
    (0x200, UInt32.ofNat set.div ||| UInt32.ofNat (set.multEighths / 8) <<< 8 ||| multFrac <<< 16),
    (0x20C, 0)]

/-- The words of `vdma_start`; `dmacr` is the control register after the reset. -/
def vdmaWrites (fb fbSize : ℕ) (width height dmacr : UInt32) : List RegWrite :=
  let frame := width.toNat * 3 * height.toNat % 2 ^ 64
  let store i := if i = 1 ∧ 2 * frame % 2 ^ 64 ≤ fbSize then fb + frame else fb
  [(0x00, (dmacr ||| 1) &&& ~~~2), (0x28, 0)] ++
    (List.range 3).map (fun i => (0x5C + 4 * i, UInt32.ofNat (store i))) ++
    [(0x54, width * 3), (0x58, width * 3), (0x50, height)]

def Mode.htotal (m : Mode) : UInt32 := m.hactive + m.hfrontPorch + m.hsyncLen + m.hbackPorch

def Mode.vtotal (m : Mode) : UInt32 := m.vactive + m.vfrontPorch + m.vsyncLen + m.vbackPorch

/-- The words of `vtc_start`. -/
def vtcWrites (m : Mode) : List RegWrite :=
  let hss := m.hactive + m.hfrontPorch
  let hbs := hss + m.hsyncLen
  let vss := m.vactive + m.vfrontPorch
  let vbs := vss + m.vsyncLen
  [(0x070, m.htotal), (0x074, m.vtotal ||| m.vtotal <<< 16), (0x060, m.hactive ||| m.vactive <<< 16),
    (0x094, m.vactive <<< 16), (0x078, hss ||| hbs <<< 16), (0x080, vss ||| vbs <<< 16),
      (0x08C, vss ||| vbs <<< 16),
    (0x068, 0), (0x07C, m.hactive ||| m.hactive <<< 16), (0x084, hss ||| hss <<< 16),
    (0x088, m.hactive ||| m.hactive <<< 16), (0x090, hss ||| hss <<< 16),
    (0x06C, 0x73 ||| (if m.hsyncActive ≠ 0 then 0x08 else 0) ||| (if m.vsyncActive ≠ 0 then 0x04 else 0)),
    (0x000, 0x03FDEF00 ||| 2 ||| 4 ||| 1)]

/-! ## Requests -/

inductive Event
  /-- VDMA reset -/
  | halt
  /-- configuration words of the clocking wizard -/
  | wzrd (writes : List RegWrite)
  /-- load of the configuration, and whether the MMCM relocks -/
  | load (set : Setting) (relocked : Bool)
  /-- VDMA restart -/
  | vdma (writes : List RegWrite)
  /-- timing generator -/
  | vtc (writes : List RegWrite)
  /-- main stream attributes of the DisplayPort link -/
  | stream (m : Mode)
deriving DecidableEq

/-- How the hardware answers during a request. -/
structure Outcome where
  haltOk : Bool
  locked : Bool
  relocked : Bool
  restartOk : Bool
  dmacr : UInt32
  running : Bool

/-- The driver and everything it has done to the hardware. -/
structure Sys where
  drv : Driver
  log : List Event

/-- A piece of a request: its error and what it did. -/
abbrev Attempt := Option Errno × List Event

/-- `b` unless `a` fails. -/
def Attempt.andThen (a b : Attempt) : Attempt :=
  match a with
  | (some e, ev) => (some e, ev)
  | (none, ev) => (b.1, ev ++ b.2)

/-- `vdma_halt`. -/
def vdmaHalt (ok : Bool) : Attempt := (if ok then none else some .eio, [.halt])

/-- `pixclk_retune`: a load is accepted only while locked. -/
def pixclkRetune (set : Setting) (o : Outcome) : Attempt :=
  Attempt.andThen (if o.locked then none else some .ebusy, [.wzrd (wzrdWrites set)])
    (if o.relocked then none else some .etimedout, [.load set o.relocked])

/-- `vdma_start`. -/
def vdmaStart (s : Driver) (width height : UInt32) (o : Outcome) : Attempt :=
  (vdmaHalt o.restartOk).andThen
    (if o.running then none else some .eio, [.vdma (vdmaWrites s.fb s.fbSize width height o.dmacr)])

/-- `soct_dp_switch_mode` from the halt to the update of the cached mode; `set` is the setting to retune to. -/
def reprogram (s : Driver) (want : Mode) (set : Option Setting) (o : Outcome) : Attempt :=
  (vdmaHalt o.haltOk).andThen <|
    (match set with | some set => pixclkRetune set o | none => (none, [])).andThen <|
      (vdmaStart s want.hactive want.vactive o).andThen (none, [.vtc (vtcWrites want), .stream want])

/-- The setting to retune to, if the clock changes. -/
def retuneSetting (s : Driver) (want : Mode) : Except Errno (Option Setting) :=
  if want.pixelClockHz ≠ s.cur.pixelClockHz then (solve s.lim want.pixelClockHz.toNat).map some else .ok none

/-- `soct_dp_switch_mode`; a failure after the halt forgets the cached mode. -/
def switchMode (σ : Sys) (m : Mode) (o : Outcome) : Option Errno × Sys :=
  match validateMode σ.drv m with
  | .error e => (some e, σ)
  | .ok want =>
    if want = σ.drv.cur then (none, σ)
    else
      match retuneSetting σ.drv want with
      | .error e => (some e, σ)
      | .ok set =>
        match reprogram σ.drv want set o with
        | (some e, ev) => (some e, ⟨{ σ.drv with cur := .zero }, σ.log ++ ev⟩)
        | (none, ev) => (none, ⟨{ σ.drv with cur := want }, σ.log ++ ev⟩)

def run (σ : Sys) (reqs : List (Mode × Outcome)) : Sys := reqs.foldl (fun σ r => (switchMode σ r.1 r.2).2) σ

/-! ## How a request ends -/

def Event.isLoad : Event → Bool
  | .load .. => true
  | _ => false

def Event.onVdma : Event → Bool
  | .halt | .vdma .. => true
  | _ => false

def Event.onVtc : Event → Bool
  | .vtc .. => true
  | _ => false

/-- The events of a successful switch. -/
def switchEvents (s : Driver) (want : Mode) (set : Option Setting) (dmacr : UInt32) : List Event :=
  [.halt] ++ (match set with | some set => [.wzrd (wzrdWrites set), .load set true] | none => []) ++
    [.halt, .vdma (vdmaWrites s.fb s.fbSize want.hactive want.vactive dmacr), .vtc (vtcWrites want), .stream want]

/-- The VDMA restarts only after a successful load of the MMCM. -/
def Redriven : List Event → Bool
  | [] => true
  | .vdma _ :: _ => false
  | .load _ true :: _ => true
  | _ :: ev => Redriven ev

theorem reprogram_ok {s : Driver} {want : Mode} {set : Option Setting} {o : Outcome} {ev : List Event}
    (h : reprogram s want set o = (none, ev)) : ev = switchEvents s want set o.dmacr := by
  obtain ⟨h1, h2, h3, h4, dmacr, h5⟩ := o
  cases set <;> cases h1 <;> cases h2 <;> cases h3 <;> cases h4 <;> cases h5 <;>
    simp [reprogram, vdmaStart, vdmaHalt, pixclkRetune, Attempt.andThen] at h <;> simp [← h, switchEvents]

theorem reprogram_ne_nil (s : Driver) (want : Mode) (set : Option Setting) (o : Outcome) :
    (reprogram s want set o).2 ≠ [] := by
  obtain ⟨h1, h2, h3, h4, dmacr, h5⟩ := o
  cases h1 <;> simp [reprogram, vdmaHalt, Attempt.andThen]

theorem redriven_reprogram (s : Driver) (want : Mode) (set : Setting) (o : Outcome) :
    Redriven (reprogram s want (some set) o).2 = true := by
  obtain ⟨h1, h2, h3, h4, dmacr, h5⟩ := o
  cases h1 <;> cases h2 <;> cases h3 <;> cases h4 <;> cases h5 <;>
    simp [reprogram, vdmaStart, vdmaHalt, pixclkRetune, Attempt.andThen, Redriven]

/-- **The four ends of a request**: refused without touching anything, already current, failed after the halt with
the cached mode forgotten, or switched. -/
theorem switchMode_cases (σ : Sys) (m : Mode) (o : Outcome) :
    (∃ e, switchMode σ m o = (some e, σ)) ∨
    (validateMode σ.drv m = .ok σ.drv.cur ∧ switchMode σ m o = (none, σ)) ∨
    ∃ want set, validateMode σ.drv m = .ok want ∧ want ≠ σ.drv.cur ∧ retuneSetting σ.drv want = .ok set ∧
      ((∃ e, switchMode σ m o = (some e, ⟨{ σ.drv with cur := .zero }, σ.log ++ (reprogram σ.drv want set o).2⟩)) ∨
        ((reprogram σ.drv want set o).2 = switchEvents σ.drv want set o.dmacr ∧
          switchMode σ m o =
            (none, ⟨{ σ.drv with cur := want }, σ.log ++ switchEvents σ.drv want set o.dmacr⟩))) := by
  unfold switchMode
  cases hv : validateMode σ.drv m with
  | error e => exact Or.inl ⟨e, rfl⟩
  | ok want =>
    dsimp only
    by_cases hcur : want = σ.drv.cur
    · rw [if_pos hcur, hcur]
      exact Or.inr (Or.inl ⟨rfl, rfl⟩)
    · rw [if_neg hcur]
      cases hs : retuneSetting σ.drv want with
      | error e => exact Or.inl ⟨e, rfl⟩
      | ok set =>
        refine Or.inr (Or.inr ⟨want, set, rfl, hcur, hs, ?_⟩)
        dsimp only
        cases hr : reprogram σ.drv want set o with
        | mk err ev =>
          cases err with
          | some e => exact Or.inl ⟨e, rfl⟩
          | none =>
            obtain rfl := reprogram_ok hr
            exact Or.inr ⟨rfl, rfl⟩

/-! ## The invariant -/

/-- The MMCM's last load succeeded with the cached clock, and after it the VDMA and the timing generator were last
programmed with the cached mode. -/
structure Programmed (s : Driver) (log : List Event) : Prop where
  split : ∃ pre set post, log = pre ++ .load set true :: post ∧ set.achievedHz = s.cur.pixelClockHz.toNat ∧
    (∀ ev ∈ post, ev.isLoad = false) ∧
    (∃ a dmacr b, post = a ++ .vdma (vdmaWrites s.fb s.fbSize s.cur.hactive s.cur.vactive dmacr) :: b ∧
      ∀ ev ∈ b, ev.onVdma = false) ∧
    ∃ a b, post = a ++ .vtc (vtcWrites s.cur) :: b ∧ ∀ ev ∈ b, ev.onVtc = false

theorem retuneSetting_some {s : Driver} {want : Mode} {set : Setting} (h : retuneSetting s want = .ok (some set)) :
    solve s.lim want.pixelClockHz.toNat = .ok set := by
  unfold retuneSetting at h
  split_ifs at h
  · cases hs : solve s.lim want.pixelClockHz.toNat with
    | error e => rw [hs] at h; cases h
    | ok set' => rw [hs] at h; cases h; rfl
  · cases h

theorem retuneSetting_none {s : Driver} {want : Mode} (h : retuneSetting s want = .ok none) :
    want.pixelClockHz = s.cur.pixelClockHz := by
  unfold retuneSetting at h
  split_ifs at h with hne
  · cases hs : solve s.lim want.pixelClockHz.toNat with
    | error e => rw [hs] at h; cases h
    | ok set' => rw [hs] at h; cases h
  · exact not_not.mp hne

/-- On a static design an accepted mode is the cached one. -/
theorem validateMode_static {s : Driver} (hr : s.retunable = false) {m want : Mode}
    (h : validateMode s m = .ok want) :
    want = s.cur := by
  obtain ⟨-, ⟨-, -, -, h⟩ | ⟨hr', -⟩⟩ := validateMode_ok_iff.mp h
  · exact h
  · rw [hr] at hr'
    cases hr'

/-- An accepted clock is what the solver achieves for it. -/
theorem achieved_of_validateMode {s : Driver} (hfine : FineGrid s.lim) {m want : Mode}
    (h : validateMode s m = .ok want) (hr : s.retunable = true) {set : Setting}
    (hs : solve s.lim want.pixelClockHz.toNat = .ok set) : set.achievedHz = want.pixelClockHz.toNat := by
  obtain ⟨-, ⟨hr', -⟩ | ⟨-, set', hret⟩⟩ := validateMode_ok_iff.mp h
  · rw [hr] at hr'
    cases hr'
  · obtain ⟨set'', hset, hach⟩ := hret.solved_again hfine
    rw [hs] at hset
    cases hset
    exact hach

/-- Programming anew without a load keeps the clock. -/
theorem Programmed.switch_none {s : Driver} {log : List Event} (h : Programmed s log) {want : Mode}
    (hclock : want.pixelClockHz = s.cur.pixelClockHz) (dmacr : UInt32) :
    Programmed { s with cur := want } (log ++ switchEvents s want none dmacr) := by
  obtain ⟨pre, set, post, rfl, hach, hload, -, -⟩ := h.split
  refine ⟨pre, set, post ++ switchEvents s want none dmacr, by simp, by rw [hach, hclock], ?_, ?_, ?_⟩
  · intro ev hev
    rcases List.mem_append.mp hev with hev | hev
    · exact hload ev hev
    · simp only [switchEvents, List.append_nil, List.cons_append, List.nil_append, List.mem_cons, List.not_mem_nil,
        or_false] at hev
      rcases hev with rfl | rfl | rfl | rfl | rfl <;> rfl
  · exact ⟨post ++ [.halt, .halt], dmacr, [.vtc (vtcWrites want), .stream want], by simp [switchEvents],
      by simp [Event.onVdma]⟩
  · exact ⟨post ++ [.halt, .halt, .vdma (vdmaWrites s.fb s.fbSize want.hactive want.vactive dmacr)],
      [.stream want],
      by simp [switchEvents], by simp [Event.onVtc]⟩

/-- A load and programming after it need nothing from before. -/
theorem Programmed.switch_some {s : Driver} {log : List Event} {want : Mode} {set : Setting}
    (hach : set.achievedHz = want.pixelClockHz.toNat) (dmacr : UInt32) :
    Programmed { s with cur := want } (log ++ switchEvents s want (some set) dmacr) := by
  refine ⟨log ++ [.halt, .wzrd (wzrdWrites set)], set,
    [.halt, .vdma (vdmaWrites s.fb s.fbSize want.hactive want.vactive dmacr), .vtc (vtcWrites want), .stream want],
    by simp [switchEvents], hach, by simp [Event.isLoad], ?_, ?_⟩
  · exact ⟨[.halt], dmacr, [.vtc (vtcWrites want), .stream want], by simp, by simp [Event.onVdma]⟩
  · exact ⟨[.halt, .vdma (vdmaWrites s.fb s.fbSize want.hactive want.vactive dmacr)], [.stream want], by simp,
      by simp [Event.onVtc]⟩

/-- What every reachable state satisfies; `σ₀` is where the run starts. -/
structure Inv (σ₀ σ : Sys) : Prop where
  programmed : σ.drv.cur ≠ .zero → Programmed σ.drv σ.log
  lim : σ.drv.lim = σ₀.drv.lim
  retunable : σ.drv.retunable = σ₀.drv.retunable
  static : σ₀.drv.retunable = false → σ.drv.cur = σ₀.drv.cur

theorem Inv.step {σ₀ σ : Sys} (hfine : σ₀.drv.retunable = false ∨ FineGrid σ₀.drv.lim) (h : Inv σ₀ σ)
    (m : Mode) (o : Outcome) :
    Inv σ₀ (switchMode σ m o).2 := by
  rcases switchMode_cases σ m o with ⟨e, he⟩ | ⟨-, he⟩ | ⟨want, set, hv, hne, hs, ⟨e, he⟩ | ⟨-, he⟩⟩ <;> rw [he]
  · exact h
  · exact h
  · refine ⟨fun hc => absurd rfl hc, h.lim, h.retunable, fun hr => ?_⟩
    exact absurd (validateMode_static (h.retunable.trans hr) hv) hne
  · have hr : σ.drv.retunable = true := by
      by_contra hr
      exact hne (validateMode_static (by simpa using hr) hv)
    have hfine : FineGrid σ.drv.lim := by
      rw [h.lim]
      exact hfine.resolve_left (by rw [← h.retunable, hr]; decide)
    refine ⟨fun _ => ?_, h.lim, h.retunable, fun hr' => ?_⟩
    · cases set with
      | none =>
        -- the clock is unchanged and not zero, so the cached mode was not forgotten
        have hclock := retuneSetting_none hs
        refine (h.programmed fun hc => ?_).switch_none hclock o.dmacr
        rw [hc] at hclock
        exact (validateMode_complete hv).pixelClockHz hclock
      | some set =>
        exact Programmed.switch_some (achieved_of_validateMode hfine hv hr (retuneSetting_some hs)) o.dmacr
    · rw [h.retunable, hr'] at hr
      cases hr

theorem Inv.run {σ₀ : Sys} (hfine : σ₀.drv.retunable = false ∨ FineGrid σ₀.drv.lim)
    (reqs : List (Mode × Outcome)) : ∀ {σ : Sys}, Inv σ₀ σ →
    Inv σ₀ (Dp.run σ reqs) := by
  induction reqs with
  | nil => exact fun h => h
  | cons r reqs ih => exact fun h => ih (h.step hfine r.1 r.2)

/-- With the cached mode forgotten every restart is preceded by a load. -/
theorem redriven_of_forgotten {σ : Sys} (hcur : σ.drv.cur = .zero) {m : Mode} {o : Outcome} {ev : List Event}
    (hlog : (switchMode σ m o).2.log = σ.log ++ ev) : Redriven ev = true := by
  have hnone : ∀ want', validateMode σ.drv m = .ok want' → retuneSetting σ.drv want' ≠ .ok none :=
    fun want' hv' hs => by
    have hclock := retuneSetting_none hs
    rw [hcur] at hclock
    exact (validateMode_complete hv').pixelClockHz hclock
  have hnil : ∀ {ev' : List Event}, σ.log = σ.log ++ ev' → Redriven ev' = true := fun h => by
    rw [List.self_eq_append_right.mp h]
    rfl
  rcases switchMode_cases σ m o with ⟨e, he⟩ | ⟨-, he⟩ | ⟨want', set, hv', -, hs, ⟨e, he⟩ | ⟨hev, he⟩⟩ <;>
    rw [he] at hlog
  · exact hnil hlog
  · exact hnil hlog
  · cases set with
    | none => exact absurd hs (hnone want' hv')
    | some set =>
      rw [← List.append_cancel_left hlog]
      exact redriven_reprogram ..
  · cases set with
    | none => exact absurd hs (hnone want' hv')
    | some set =>
      rw [← List.append_cancel_left hlog, ← hev]
      exact redriven_reprogram ..

/-- **Mode switching**, on a static design or a fine divider grid.  In every state reached by any requests with any
outcomes: a cached mode that is not forgotten is what the hardware is programmed for; with a forgotten one no
accepted request is taken for current and every restart is preceded by a load; an error without a hardware access
leaves everything as it was; and on a static design the cached mode never changes. -/
theorem switch_run {σ₀ : Sys} (hfine : σ₀.drv.retunable = false ∨ FineGrid σ₀.drv.lim)
    (hinit : Programmed σ₀.drv σ₀.log)
    (reqs : List (Mode × Outcome)) :
    ((run σ₀ reqs).drv.cur ≠ .zero → Programmed (run σ₀ reqs).drv (run σ₀ reqs).log) ∧
    ((run σ₀ reqs).drv.cur = .zero → ∀ m o want, validateMode (run σ₀ reqs).drv m = .ok want →
      want ≠ (run σ₀ reqs).drv.cur ∧
        ∀ ev, (switchMode (run σ₀ reqs) m o).2.log = (run σ₀ reqs).log ++ ev → Redriven ev = true) ∧
    (∀ m o e, (switchMode (run σ₀ reqs) m o).1 = some e →
      (switchMode (run σ₀ reqs) m o).2.log = (run σ₀ reqs).log → (switchMode (run σ₀ reqs) m o).2 = run σ₀ reqs) ∧
    (σ₀.drv.retunable = false → (run σ₀ reqs).drv.cur = σ₀.drv.cur) := by
  have hinv := Inv.run hfine reqs (σ := σ₀) ⟨fun _ => hinit, rfl, rfl, fun _ => rfl⟩
  generalize run σ₀ reqs = σ at hinv
  refine ⟨hinv.programmed, fun hcur m o want hv => ⟨?_, fun ev hlog => redriven_of_forgotten hcur hlog⟩, ?_,
    hinv.static⟩
  · rw [hcur]
    exact (validateMode_complete hv).ne_zero
  · intro m o e herr hlog
    rcases switchMode_cases σ m o with ⟨e, he⟩ | ⟨-, he⟩ | ⟨want, set, -, -, -, ⟨e, he⟩ | ⟨-, he⟩⟩
    · rw [he]
    · rw [he]
    · rw [he] at hlog
      exact absurd (List.append_right_eq_self.mp hlog) (reprogram_ne_nil σ.drv want set o)
    · rw [he] at herr
      cases herr

/-- The hardware answers as it should. -/
def smooth : Outcome := ⟨true, true, true, true, 0, true⟩

theorem switchMode_smooth {σ : Sys} {m want : Mode} {set : Setting} (hv : validateMode σ.drv m = .ok want)
    (hclock : want.pixelClockHz ≠ σ.drv.cur.pixelClockHz)
    (hs : solve σ.drv.lim want.pixelClockHz.toNat = .ok set) :
    switchMode σ m smooth =
      (none, ⟨{ σ.drv with cur := want }, σ.log ++ switchEvents σ.drv want (some set) 0⟩) := by
  have hne : want ≠ σ.drv.cur := fun hc => hclock (by rw [hc])
  have hset : retuneSetting σ.drv want = .ok (some set) := by
    rw [retuneSetting, if_pos hclock, hs]
    rfl
  rw [switchMode, hv]
  dsimp only
  rw [if_neg hne, hset]
  rfl

/-- A driver that has come up in its cached mode with the given setting. -/
def bootSys (s : Driver) (set : Setting) : Sys := ⟨s, switchEvents s s.cur (some set) 0⟩

theorem programmed_bootSys {s : Driver} {set : Setting} (h : set.achievedHz = s.cur.pixelClockHz.toNat) :
    Programmed (bootSys s set).drv (bootSys s set).log :=
  @Programmed.switch_some s [] s.cur set h 0

theorem fullHd_switches :
    (run (bootSys fullHd ⟨4, 297, 50, 148500000⟩) [(hd720, smooth)]).drv.cur = hd720 ∧
      Programmed (run (bootSys fullHd ⟨4, 297, 50, 148500000⟩) [(hd720, smooth)]).drv
        (run (bootSys fullHd ⟨4, 297, 50, 148500000⟩) [(hd720, smooth)]).log := by
  obtain ⟨set, hset, -⟩ := hd720_solved
  have hsw := switchMode_smooth (σ := bootSys fullHd ⟨4, 297, 50, 148500000⟩) fullHd_accepts_hd720 (by decide) hset
  have hcur : (run (bootSys fullHd ⟨4, 297, 50, 148500000⟩) [(hd720, smooth)]).drv.cur = hd720 := by
    rw [run, List.foldl_cons, List.foldl_nil, hsw]
  refine ⟨hcur, (@switch_run (bootSys fullHd ⟨4, 297, 50, 148500000⟩) (.inr (fineGrid_of_pfdMin (by decide)))
    (programmed_bootSys rfl) [(hd720, smooth)]).1 ?_⟩
  rw [hcur]
  decide

/-! ## A coarse divider grid -/

/-- A budget whose only divider and multiplier are 92 and 895 eighths: the output divider steps in more than the
input frequency. -/
def coarse : Driver where
  fb := 0x80000000
  fbSize := 0x1000000
  cur := ⟨8, 1, 1, 1, 8, 1, 1, 1, 0, 0, 6, 765⟩
  retunable := true
  lim := ⟨59042, 71794, 71798, 641, 642, by decide, by decide, by decide, by decide, by decide⟩
  maxHz := 770

theorem coarse_tried {target div m8 o8 : ℕ} (h : Tried coarse.lim target div m8 o8) :
    div = 92 ∧ m8 = 895 ∧ (895 = target * 92 * o8 / 59042 ∨ 895 = target * 92 * o8 / 59042 + 1) := by
  have h1 := h.1.pfd_ge
  have h2 := h.1.pfd_le
  have h3 := h.1.vco_ge
  have h4 := h.1.vco_le
  simp only [coarse] at h1 h2 h3 h4
  obtain rfl : div = 92 := by omega
  obtain rfl : m8 = 895 := by omega
  exact ⟨rfl, rfl, h.2⟩

theorem coarse_legal {o8 : ℕ} (h : 16 ≤ o8 ∧ o8 ≤ 1024) : Legal coarse.lim 92 895 o8 := by
  have hpair : LegalPair coarse.lim 92 o8 := ⟨by decide, by decide, by omega, h.2, by omega, by decide, by decide⟩
  exact ⟨hpair, by decide, by decide, by decide, by decide⟩

/-- Just below its ceiling the solver lands one step too low, each time. -/
theorem coarse_solve : ∀ p ∈ [(766, 750), (767, 749), (768, 748), (769, 747), (770, 746)],
    solve coarse.lim p.1 = .ok ⟨92, 895, p.2, p.1 - 1⟩ := by
  intro p hp
  simp only [List.mem_cons, List.not_mem_nil, or_false] at hp
  rcases hp with rfl | rfl | rfl | rfl | rfl <;>
  · refine solve_unique (by decide) ⟨coarse_legal (by decide), by decide⟩ (by decide) fun div m8 o8 h => ?_
    obtain ⟨h1, h2, h3⟩ := coarse_tried h
    omega

/-- The last load of a log. -/
theorem Programmed.last_load {s : Driver} {log : List Event} {set : Setting} {post : List Event}
    (h : Programmed s (log ++ .load set true :: post)) (hpost : ∀ ev ∈ post, ev.isLoad = false) :
    set.achievedHz = s.cur.pixelClockHz.toNat := by
  obtain ⟨pre, set', post', heq, hach, hpost', -, -⟩ := h.split
  have hfilter : ∀ {l : List Event}, (∀ ev ∈ l, ev.isLoad = false) → l.filter Event.isLoad = [] := fun hl =>
    List.filter_eq_nil_iff.mpr fun ev hev => by simp [hl ev hev]
  have hlast := congrArg (fun l => (l.filter Event.isLoad).getLast?) heq
  simp only [List.filter_append, List.filter_cons, hfilter hpost, hfilter hpost', Event.isLoad, if_true,
    List.getLast?_append, List.getLast?_singleton, Option.some_or, Option.some.injEq, Event.load.injEq] at hlast
  rw [hlast.1]
  exact hach

/-- Asked for 767 Hz the driver accepts 766 Hz, whose own setting the solver does not find again: it loads 765
Hz. -/
theorem coarse_not_programmed :
    Programmed (bootSys coarse ⟨92, 895, 750, 765⟩).drv (bootSys coarse ⟨92, 895, 750, 765⟩).log ∧
      (run (bootSys coarse ⟨92, 895, 750, 765⟩)
        [({ coarse.cur with pixelClockHz := 767 }, smooth)]).drv.cur ≠ .zero ∧
      ¬ Programmed (run (bootSys coarse ⟨92, 895, 750, 765⟩)
        [({ coarse.cur with pixelClockHz := 767 }, smooth)]).drv
        (run (bootSys coarse ⟨92, 895, 750, 765⟩) [({ coarse.cur with pixelClockHz := 767 }, smooth)]).log := by
  have hv : validateMode coarse { coarse.cur with pixelClockHz := 767 } =
      .ok { coarse.cur with pixelClockHz := 766 } :=
    validateMode_ok_iff.mpr ⟨by decide, Or.inr ⟨rfl, ⟨92, 895, 749, 766⟩, by decide,
      coarse_solve (767, 749) (by decide), by decide, rfl⟩⟩
  have hsw := switchMode_smooth (σ := bootSys coarse ⟨92, 895, 750, 765⟩) hv (by decide)
    (coarse_solve (766, 750) (by decide))
  have hrun : run (bootSys coarse ⟨92, 895, 750, 765⟩) [({ coarse.cur with pixelClockHz := 767 }, smooth)] =
      ⟨{ coarse with cur := { coarse.cur with pixelClockHz := 766 } }, (bootSys coarse ⟨92, 895, 750, 765⟩).log ++
        switchEvents coarse { coarse.cur with pixelClockHz := 766 } (some ⟨92, 895, 750, 765⟩) 0⟩ := by
    rw [run, List.foldl_cons, List.foldl_nil, hsw]
    rfl
  rw [hrun]
  refine ⟨programmed_bootSys rfl, by decide, fun hp => ?_⟩
  have hsplit : (bootSys coarse ⟨92, 895, 750, 765⟩).log ++
      switchEvents coarse { coarse.cur with pixelClockHz := 766 } (some ⟨92, 895, 750, 765⟩) 0 =
      ((bootSys coarse ⟨92, 895, 750, 765⟩).log ++ [.halt, .wzrd (wzrdWrites ⟨92, 895, 750, 765⟩)]) ++
        .load ⟨92, 895, 750, 765⟩ true :: [.halt, .vdma (vdmaWrites coarse.fb coarse.fbSize 8 8 0),
          .vtc (vtcWrites { coarse.cur with pixelClockHz := 766 }),
          .stream { coarse.cur with pixelClockHz := 766 }] := by
    simp [switchEvents, coarse]
  rw [hsplit] at hp
  exact absurd (hp.last_load (by simp [Event.isLoad])) (by decide)

end Soceteer.Dp
