import Mathlib.Algebra.Group.Nat.Defs
import Mathlib.Data.Nat.Basic
import Soceteer.Lib.Trace

/-!
# Soceteer.Dp.Fb — damage tracking of the console framebuffer

On incoherent designs `fb.c` records what was drawn as a dirty rectangle, and a delayed worker pushes the lines of
the rectangle out of the caches and then applies a pending pan.  Callers and the worker interleave: the rectangle
is updated and taken under a lock, the flushes run outside it, one line at a time.

* `Geometry`: a fixed mode in the carve-out.
* `flushRange`, `rectFlush`: the lines one run of the worker flushes.
* `State`, `step`, `run`: calls and worker as interleaved steps, with a log of what happened.
* `Inv`: where every damaged line is; `Inv.step`.
* `fb_run`: no damage is lost, and a pan is applied only after all damage recorded before it is flushed.
-/

namespace Soceteer.Dp.Fb

open Trace

/-! ## Geometry -/

/-- A mode and the carve-out it lives in; the VDMA and `fix.smem_len` address it with 32 bits. -/
structure Geometry where
  phys : ℕ
  carveoutSize : ℕ
  width : ℕ
  height : ℕ
  width_pos : 1 ≤ width
  height_pos : 1 ≤ height
  fits : width * 3 * height ≤ carveoutSize
  carveout_lt : carveoutSize < 2 ^ 32
  phys_le : phys + carveoutSize ≤ 2 ^ 64

namespace Geometry

variable (geo : Geometry)

def stride : ℕ := geo.width * 3 % 2 ^ 32

/-- `fb_nframes`. -/
def frames : ℕ := if 2 * geo.stride * geo.height ≤ geo.carveoutSize then 2 else 1

/-- Rows of the virtual screen. -/
def vh : ℕ := geo.height * geo.frames % 2 ^ 32

theorem stride_le : geo.width * 3 ≤ geo.carveoutSize :=
  Nat.le_trans (Nat.le_mul_of_pos_right _ geo.height_pos) geo.fits

theorem stride_eq : geo.stride = geo.width * 3 :=
  Nat.mod_eq_of_lt (lt_of_le_of_lt geo.stride_le geo.carveout_lt)

theorem stride_pos : 0 < geo.stride := by
  rw [geo.stride_eq]
  exact Nat.mul_pos geo.width_pos (by omega)

theorem frames_fit : geo.stride * (geo.height * geo.frames) ≤ geo.carveoutSize := by
  unfold frames
  split_ifs with h
  · calc geo.stride * (geo.height * 2) = 2 * geo.stride * geo.height := by
          rw [← Nat.mul_assoc, Nat.mul_comm, ← Nat.mul_assoc]
      _ ≤ geo.carveoutSize := h
  · rw [geo.stride_eq, Nat.mul_one]
    exact geo.fits

theorem vh_eq : geo.vh = geo.height * geo.frames := by
  refine Nat.mod_eq_of_lt (lt_of_le_of_lt ?_ geo.carveout_lt)
  exact Nat.le_trans (Nat.le_mul_of_pos_left _ geo.stride_pos) geo.frames_fit

theorem virtual_fits : geo.stride * geo.vh ≤ geo.carveoutSize := by
  rw [geo.vh_eq]
  exact geo.frames_fit

theorem vh_le : geo.vh ≤ geo.carveoutSize :=
  Nat.le_trans (Nat.le_mul_of_pos_left _ geo.stride_pos) geo.virtual_fits

/-- Address of byte `c` of a pixel. -/
def pixelAddr (x y c : ℕ) : ℕ := geo.phys + y * geo.stride + x * 3 + c

end Geometry

/-! ## Flushing -/

/-- The 64-byte line of an address. -/
def lineAddr (a : ℕ) : ℕ := a / 64 * 64

/-- The loop of `flush_range`. -/
def lineLoop : ℕ → ℕ → ℕ → List ℕ
  | 0, _, _ => []
  | fuel + 1, a, stop => if a < stop then a :: lineLoop fuel (a + 64) stop else []

/-- `flush_range`: the lines it flushes; there are at most `len + 1`. -/
def flushRange (start len : ℕ) : List ℕ := lineLoop (len + 1) (lineAddr start) (start + len)

/-- The dirty rectangle, inclusive. -/
structure Rect where
  x0 : ℕ
  y0 : ℕ
  x1 : ℕ
  y1 : ℕ
deriving DecidableEq

def Rect.union (r s : Rect) : Rect := ⟨min r.x0 s.x0, min r.y0 s.y0, max r.x1 s.x1, max r.y1 s.y1⟩

/-- The row loop of `soct_dp_fb_flush_work`. -/
def rectFlush (geo : Geometry) (r : Rect) : List ℕ :=
  (List.range' r.y0 (r.y1 + 1 - r.y0)).flatMap fun y =>
    flushRange (geo.phys + y * geo.stride + r.x0 * 3 % 2 ^ 32) ((r.x1 - r.x0 + 1) % 2 ^ 32 * 3)

/-! ## Calls and worker -/

/-- What a caller reports as drawn. -/
inductive Damage
  /-- `soct_dp_fb_damage_area` -/
  | area (x y w h : ℕ)
  /-- `soct_dp_fb_damage_range` -/
  | range (off len : ℕ)
deriving DecidableEq

/-- The history of the framebuffer. -/
inductive Event
  | record (d : Damage)
  | pan (frame : ℕ)
  | snapshot
  | flush (line : ℕ)
  | park (frame : ℕ)
deriving DecidableEq

inductive Worker
  | idle
  /-- running, before it takes the lock -/
  | started
  /-- the lines it still has to flush, and the frame to park on after them -/
  | flushing (todo : List ℕ) (park : Option ℕ)
deriving DecidableEq

structure State where
  dirty : Bool
  rect : Rect
  parkReq : Bool
  parkFrame : ℕ
  /-- the work item is pending -/
  queued : Bool
  worker : Worker
  /-- calls that have released the lock and not yet scheduled the work -/
  callers : ℕ
  log : List Event

/-- After `soct_dp_fb_prepare`. -/
def State.init : State := ⟨false, ⟨0, 0, 0, 0⟩, false, 0, false, .idle, 0, []⟩

inductive Label
  | damage (d : Damage)
  | pan (xoffset yoffset : ℕ)
  /-- a call schedules the work and returns -/
  | schedule
  /-- the workqueue starts the pending work; it never runs beside itself -/
  | start
  | snapshot
  | flush
  | finish
deriving DecidableEq

section Step

variable (geo : Geometry)

/-- The arguments `soct_dp_fb_damage_area` gets. -/
def Damage.args : Damage → ℕ × ℕ × ℕ × ℕ
  | .area x y w h => (x, y, w, h)
  | .range off len =>
    let y0 := off / geo.stride % 2 ^ 32
    let y1 := (off + len - 1) / geo.stride % 2 ^ 32
    (0, y0, geo.width, (y1 - y0 + 1) % 2 ^ 32)

/-- The locked part of `soct_dp_fb_damage_area`. -/
def damageArea (σ : State) (d : Damage) : State :=
  let (x, y, w, h) := d.args geo
  if w = 0 ∨ h = 0 ∨ x ≥ geo.width ∨ y ≥ geo.vh then σ
  else
    let x1 := min ((x + w - 1) % 2 ^ 32) (geo.width - 1)
    let y1 := min ((y + h - 1) % 2 ^ 32) (geo.vh - 1)
    let r : Rect := if σ.dirty then σ.rect.union ⟨x, y, x1, y1⟩ else ⟨x, y, x1, y1⟩
    { σ with dirty := true, rect := r, callers := σ.callers + 1, log := σ.log ++ [.record d] }

/-- The locked part of `soct_dp_fb_pan_display`; a pan that is refused changes nothing. -/
def panDisplay (σ : State) (xoffset yoffset : ℕ) : State :=
  if xoffset ≠ 0 ∨ yoffset % geo.height ≠ 0 then σ
  else if yoffset / geo.height ≥ geo.frames then σ
  else
    let frame := yoffset / geo.height
    { σ with parkFrame := frame, parkReq := true, callers := σ.callers + 1, log := σ.log ++ [.pan frame] }

/-- The locked part of `soct_dp_fb_flush_work`. -/
def takeSnapshot (σ : State) : State :=
  let todo := if σ.dirty then rectFlush geo σ.rect else []
  let park := if σ.parkReq then some σ.parkFrame else none
  { σ with dirty := false, parkReq := false, worker := .flushing todo park, log := σ.log ++ [.snapshot] }

/-- One step; one that is not enabled changes nothing. -/
def step (σ : State) : Label → State
  | .damage d => damageArea geo σ d
  | .pan xoffset yoffset => panDisplay geo σ xoffset yoffset
  | .schedule => if 0 < σ.callers then { σ with callers := σ.callers - 1, queued := true } else σ
  | .start => if σ.queued ∧ σ.worker = .idle then { σ with queued := false, worker := .started } else σ
  | .snapshot => if σ.worker = .started then takeSnapshot geo σ else σ
  | .flush =>
    match σ.worker with
    | .flushing (line :: todo) park => { σ with worker := .flushing todo park, log := σ.log ++ [.flush line] }
    | _ => σ
  | .finish =>
    match σ.worker with
    | .flushing [] (some f) => { σ with worker := .idle, log := σ.log ++ [.park f] }
    | .flushing [] none => { σ with worker := .idle }
    | _ => σ

def run (labels : List Label) : State := labels.foldl (step geo) .init

end Step

/-! ## Damaged lines -/

/-- The damaged pixels of the virtual screen. -/
def Damage.Pixel (geo : Geometry) : Damage → ℕ → ℕ → Prop
  | .area x y w h, px, py => x ≤ px ∧ px < x + w ∧ y ≤ py ∧ py < y + h
  | .range off len, px, py =>
    px < geo.width ∧ py < geo.vh ∧ py * geo.stride + px * 3 < off + len ∧ off < py * geo.stride + px * 3 + 3

/-- The cache lines that overlap a damaged pixel. -/
def Damage.Line (geo : Geometry) (d : Damage) (line : ℕ) : Prop :=
  ∃ px py c, d.Pixel geo px py ∧ c < 3 ∧ line = lineAddr (geo.pixelAddr px py c)

/-- The cache lines that overlap a pixel of the rectangle. -/
def Rect.Line (geo : Geometry) (r : Rect) (line : ℕ) : Prop :=
  ∃ px py c, (r.x0 ≤ px ∧ px ≤ r.x1 ∧ r.y0 ≤ py ∧ py ≤ r.y1) ∧ c < 3 ∧ line = lineAddr (geo.pixelAddr px py c)

/-- Rectangles inside the virtual screen, ranges inside the buffer. -/
def Damage.InRange (geo : Geometry) : Damage → Prop
  | .area x y w h => x + w ≤ geo.width ∧ y + h ≤ geo.vh
  | .range off len => 1 ≤ len ∧ off + len ≤ geo.stride * geo.vh

instance (geo : Geometry) (d : Damage) : Decidable (d.InRange geo) := by
  cases d <;> exact inferInstanceAs (Decidable (_ ∧ _))

theorem mem_lineLoop : ∀ {fuel a stop i : ℕ}, i < fuel → a + 64 * i < stop → a + 64 * i ∈ lineLoop fuel a stop
  | 0, _, _, _, h, _ => absurd h (by omega)
  | fuel + 1, a, stop, 0, _, hlt => by
    rw [lineLoop, if_pos (by omega)]
    exact List.mem_cons_self ..
  | fuel + 1, a, stop, i + 1, h, hlt => by
    rw [lineLoop, if_pos (by omega)]
    have : a + 64 + 64 * i ∈ lineLoop fuel (a + 64) stop := mem_lineLoop (by omega) (by omega)
    exact List.mem_cons_of_mem _ (by rwa [show a + 64 * (i + 1) = a + 64 + 64 * i by omega])

/-- `flush_range` reaches the line of every byte of its range. -/
theorem lineAddr_mem_flushRange {start len b : ℕ} (h1 : start ≤ b) (h2 : b < start + len) :
    lineAddr b ∈ flushRange start len := by
  unfold flushRange
  obtain ⟨i, hi⟩ : ∃ i, lineAddr b = lineAddr start + 64 * i := ⟨b / 64 - start / 64, by unfold lineAddr; omega⟩
  rw [hi]
  unfold lineAddr at hi ⊢
  exact mem_lineLoop (by omega) (by omega)

/-- A rectangle inside the virtual screen. -/
structure Rect.Valid (geo : Geometry) (r : Rect) : Prop where
  x_le : r.x0 ≤ r.x1
  x_lt : r.x1 < geo.width
  y_le : r.y0 ≤ r.y1
  y_lt : r.y1 < geo.vh

/-- **A run of the worker reaches every line of the rectangle.** -/
theorem Rect.Valid.mem_rectFlush {geo : Geometry} {r : Rect} (h : r.Valid geo) {line : ℕ}
    (hline : r.Line geo line) :
    line ∈ rectFlush geo r := by
  obtain ⟨px, py, c, ⟨hx0, hx1, hy0, hy1⟩, hc, rfl⟩ := hline
  have hw := geo.stride_le
  have hlt := geo.carveout_lt
  have hxlt := h.x_lt
  refine List.mem_flatMap.mpr ⟨py, List.mem_range'_1.mpr (by omega), ?_⟩
  rw [Nat.mod_eq_of_lt (show r.x0 * 3 < 2 ^ 32 by omega),
    Nat.mod_eq_of_lt (show r.x1 - r.x0 + 1 < 2 ^ 32 by omega)]
  unfold Geometry.pixelAddr
  exact lineAddr_mem_flushRange (by omega) (by omega)

/-- The rectangle a call adds. -/
def Damage.rect (geo : Geometry) (d : Damage) : Rect :=
  let a := d.args geo
  ⟨a.1, a.2.1, min ((a.1 + a.2.2.1 - 1) % 2 ^ 32) (geo.width - 1),
    min ((a.2.1 + a.2.2.2 - 1) % 2 ^ 32) (geo.vh - 1)⟩

/-- The arguments of a range: the rows from its first to its last byte. -/
theorem Damage.args_range {geo : Geometry} {off len : ℕ} (h : (Damage.range off len).InRange geo) :
    ∃ y0 y1, (Damage.range off len).args geo = (0, y0, geo.width, y1 - y0 + 1) ∧ y0 ≤ y1 ∧ y1 < geo.vh ∧
      ∀ py, py * geo.stride < off + len → off < (py + 1) * geo.stride → y0 ≤ py ∧ py ≤ y1 := by
  obtain ⟨hlen, hfit⟩ := h
  have hlast : (off + len - 1) / geo.stride < geo.vh := Nat.div_lt_of_lt_mul (by omega)
  have hle : off / geo.stride ≤ (off + len - 1) / geo.stride := Nat.div_le_div_right (by omega)
  refine ⟨off / geo.stride, (off + len - 1) / geo.stride, ?_, hle, hlast, fun py h1 h2 => ⟨?_, ?_⟩⟩
  · have hvh := geo.vh_le
    have hlt := geo.carveout_lt
    simp only [Damage.args]
    generalize off / geo.stride = y0 at hle ⊢
    generalize (off + len - 1) / geo.stride = y1 at hlast hle ⊢
    rw [Nat.mod_eq_of_lt (show y1 < 2 ^ 32 by omega), Nat.mod_eq_of_lt (show y0 < 2 ^ 32 by omega),
      Nat.mod_eq_of_lt (by omega)]
  · exact Nat.le_of_lt_succ ((Nat.div_lt_iff_lt_mul geo.stride_pos).mpr h2)
  · exact (Nat.le_div_iff_mul_le geo.stride_pos).mpr (by omega)

theorem Damage.rect_spec {geo : Geometry} {d : Damage} (h : d.InRange geo)
    (hno : ¬ ((d.args geo).2.2.1 = 0 ∨ (d.args geo).2.2.2 = 0 ∨ (d.args geo).1 ≥ geo.width ∨
      (d.args geo).2.1 ≥ geo.vh)) :
    (d.rect geo).Valid geo ∧ ∀ px py, d.Pixel geo px py →
      (d.rect geo).x0 ≤ px ∧ px ≤ (d.rect geo).x1 ∧ (d.rect geo).y0 ≤ py ∧ py ≤ (d.rect geo).y1 := by
  have hvh := geo.vh_le
  have hw := geo.stride_le
  have hlt := geo.carveout_lt
  cases d with
  | area x y w h' =>
    obtain ⟨hx, hy⟩ := h
    simp only [Damage.args] at hno
    have e1 : (x + w - 1) % 2 ^ 32 = x + w - 1 := Nat.mod_eq_of_lt (by omega)
    have e2 : (y + h' - 1) % 2 ^ 32 = y + h' - 1 := Nat.mod_eq_of_lt (by omega)
    simp only [Damage.rect, Damage.args, e1, e2]
    refine ⟨⟨?_, ?_, ?_, ?_⟩, fun px py hp => ?_⟩
    · dsimp only; omega
    · dsimp only; omega
    · dsimp only; omega
    · dsimp only; omega
    · obtain ⟨h1, h2, h3, h4⟩ := hp
      omega
  | range off len =>
    obtain ⟨y0, y1, hargs, hle, hlast, hrows⟩ := Damage.args_range h
    have hwpos := geo.width_pos
    have e1 : (0 + geo.width - 1) % 2 ^ 32 = geo.width - 1 := by rw [Nat.mod_eq_of_lt (by omega)]; omega
    have e2 : (y0 + (y1 - y0 + 1) - 1) % 2 ^ 32 = y1 := by rw [Nat.mod_eq_of_lt (by omega)]; omega
    clear hno
    simp only [Damage.rect, hargs, e1, e2]
    refine ⟨⟨?_, ?_, ?_, ?_⟩, fun px py hp => ?_⟩
    · dsimp only; omega
    · dsimp only; omega
    · dsimp only; omega
    · dsimp only; omega
    · -- a pixel that meets the range lies in one of its rows
      obtain ⟨h1, h2, h3, h4⟩ := hp
      have hrow : px * 3 + 3 ≤ geo.stride := by rw [geo.stride_eq]; omega
      have := hrows py (by omega) (by rw [Nat.add_mul, Nat.one_mul]; omega)
      omega

theorem Rect.Valid.union {geo : Geometry} {r s : Rect} (hr : r.Valid geo) (hs : s.Valid geo) :
    (r.union s).Valid geo := by
  obtain ⟨h1, h2, h3, h4⟩ := hr
  obtain ⟨g1, g2, g3, g4⟩ := hs
  constructor <;> dsimp only [Rect.union] <;> omega

theorem Rect.line_union_left {geo : Geometry} {r s : Rect} {line : ℕ} (h : r.Line geo line) :
    (r.union s).Line geo line := by
  obtain ⟨px, py, c, hmem, hc, hl⟩ := h
  exact ⟨px, py, c, by dsimp only [Rect.union]; omega, hc, hl⟩

theorem Rect.line_union_right {geo : Geometry} {r s : Rect} {line : ℕ} (h : s.Line geo line) :
    (r.union s).Line geo line := by
  obtain ⟨px, py, c, hmem, hc, hl⟩ := h
  exact ⟨px, py, c, by dsimp only [Rect.union]; omega, hc, hl⟩

/-- What recording damage does. -/
theorem damageArea_cases (geo : Geometry) (σ : State) {d : Damage} (h : d.InRange geo) :
    damageArea geo σ d = σ ∨ ((d.rect geo).Valid geo ∧ (∀ line, d.Line geo line → (d.rect geo).Line geo line) ∧
      damageArea geo σ d = { σ with
        dirty := true, rect := if σ.dirty then σ.rect.union (d.rect geo) else d.rect geo,
        callers := σ.callers + 1, log := σ.log ++ [.record d] }) := by
  by_cases hno : (d.args geo).2.2.1 = 0 ∨ (d.args geo).2.2.2 = 0 ∨ (d.args geo).1 ≥ geo.width ∨
      (d.args geo).2.1 ≥ geo.vh
  · exact Or.inl (if_pos hno)
  · obtain ⟨hvalid, hpix⟩ := Damage.rect_spec h hno
    refine Or.inr ⟨hvalid, fun line hline => ?_, if_neg hno⟩
    obtain ⟨px, py, c, hp, hc, hl⟩ := hline
    exact ⟨px, py, c, hpix px py hp, hc, hl⟩

/-- Damage of at least one pixel is recorded. -/
theorem damageArea_records (geo : Geometry) (σ : State) {d : Damage} (h : d.InRange geo) {px py : ℕ}
    (hp : d.Pixel geo px py) : (damageArea geo σ d).log = σ.log ++ [.record d] := by
  have hno : ¬ ((d.args geo).2.2.1 = 0 ∨ (d.args geo).2.2.2 = 0 ∨ (d.args geo).1 ≥ geo.width ∨
      (d.args geo).2.1 ≥ geo.vh) := by
    cases d with
    | area x y w h' =>
      obtain ⟨h1, h2⟩ := h
      obtain ⟨h3, h4, h5, h6⟩ := hp
      simp only [Damage.args]
      omega
    | range off len =>
      obtain ⟨y0, y1, hargs, hle, hlast, -⟩ := Damage.args_range h
      have := geo.width_pos
      rw [hargs]
      dsimp only
      omega
  have heq : damageArea geo σ d = { σ with
      dirty := true, rect := if σ.dirty then σ.rect.union (d.rect geo) else d.rect geo,
      callers := σ.callers + 1, log := σ.log ++ [.record d] } := if_neg hno
  rw [heq]

theorem panDisplay_cases (geo : Geometry) (σ : State) (xoffset yoffset : ℕ) :
    panDisplay geo σ xoffset yoffset = σ ∨ ∃ f, panDisplay geo σ xoffset yoffset =
      { σ with parkFrame := f, parkReq := true, callers := σ.callers + 1, log := σ.log ++ [.pan f] } := by
  unfold panDisplay
  split_ifs
  · exact Or.inl rfl
  · exact Or.inl rfl
  · exact Or.inr ⟨_, rfl⟩

/-! ## The invariant -/

/-- Every damaged line of the log `q` is flushed after its record, in `q` or in `tail`, or still in `R`. -/
def FlushedBy (geo : Geometry) (q tail : List Event) (R : ℕ → Prop) : Prop :=
  Each q fun _ ev post => ∀ d, ev = .record d → ∀ line, d.Line geo line → .flush line ∈ post ++ tail ∨ R line

namespace FlushedBy

variable {geo : Geometry} {q tail tail' : List Event} {R R' : ℕ → Prop}

/-- More events, some of which flush. -/
theorem extend (h : FlushedBy geo q tail R) (hR : ∀ line, R line → .flush line ∈ tail' ∨ R' line) :
    FlushedBy geo q (tail ++ tail') R' := by
  refine Each.mono h fun pre ev post hev d hd line hline => ?_
  rw [← List.append_assoc]
  rcases hev d hd line hline with hf | hr
  · exact Or.inl (List.mem_append_left _ hf)
  · exact (hR line hr).imp (List.mem_append_right _) id

theorem mono (h : FlushedBy geo q tail R) (hR : ∀ line, R line → R' line) : FlushedBy geo q tail R' := by
  have : FlushedBy geo q (tail ++ []) R' := h.extend fun line hr => Or.inr (hR line hr)
  rwa [List.append_nil] at this

/-- One more event, which is in reach of what remains if it records damage. -/
theorem concat {e : Event} (h : FlushedBy geo q [] R) (hR : ∀ line, R line → .flush line = e ∨ R' line)
    (hrec : ∀ d, e = .record d → ∀ line, d.Line geo line → R' line) : FlushedBy geo (q ++ [e]) [] R' := by
  refine each_concat.mpr ⟨?_, fun d hd line hline => Or.inr (hrec d hd line hline)⟩
  have hext : FlushedBy geo q ([] ++ [e]) R' := h.extend fun line hr => (hR line hr).imp (by simp +contextual) id
  refine Each.mono hext ?_
  intro pre ev post hev d hd line hline
  simpa using hev d hd line hline

end FlushedBy

/-- No pan and no snapshot. -/
def Quiet (l : List Event) : Prop := ∀ e ∈ l, (∀ f, e ≠ .pan f) ∧ e ≠ .snapshot

theorem Quiet.concat {l : List Event} (h : Quiet l) {e : Event} (h1 : ∀ f, e ≠ .pan f) (h2 : e ≠ .snapshot) :
    Quiet (l ++ [e]) := by
  intro e' he'
  rcases List.mem_append.mp he' with he' | he'
  · exact h e' he'
  · rw [List.mem_singleton.mp he']
    exact ⟨h1, h2⟩

/-- The frame `f` may be parked on: the last pan before the worker's snapshot asked for it, and all damage recorded
before that snapshot is flushed. -/
def Parked (geo : Geometry) (pre : List Event) (f : ℕ) : Prop :=
  ∃ p1 p2 p3, pre = p1 ++ .pan f :: p2 ++ .snapshot :: p3 ∧ Quiet p2 ∧ (∀ e ∈ p3, e ≠ .snapshot) ∧
    FlushedBy geo (p1 ++ .pan f :: p2) (.snapshot :: p3) fun _ => False

def Worker.todo : Worker → List ℕ
  | .flushing todo _ => todo
  | _ => []

structure Inv (geo : Geometry) (σ : State) : Prop where
  rect_valid : σ.dirty = true → σ.rect.Valid geo
  covered : FlushedBy geo σ.log [] fun line => (σ.dirty = true ∧ σ.rect.Line geo line) ∨ line ∈ σ.worker.todo
  pending : σ.dirty = true ∨ σ.parkReq = true → σ.queued = true ∨ σ.worker = .started ∨ 0 < σ.callers
  park_req : σ.parkReq = true → ∃ p1 p2, σ.log = p1 ++ .pan σ.parkFrame :: p2 ∧ Quiet p2
  flushing : ∀ todo park, σ.worker = .flushing todo park → ∃ q p3, σ.log = q ++ .snapshot :: p3 ∧
    (∀ e ∈ p3, e ≠ .snapshot) ∧ FlushedBy geo q (.snapshot :: p3) (· ∈ todo) ∧
      ∀ f, park = some f → ∃ p1 p2, q = p1 ++ .pan f :: p2 ∧ Quiet p2
  parked : Each σ.log fun pre ev _ => ∀ f, ev = .park f → Parked geo pre f

theorem Inv.init (geo : Geometry) : Inv geo .init where
  rect_valid h := by cases h
  covered := each_nil _
  pending h := by rcases h with h | h <;> cases h
  park_req h := by cases h
  flushing todo park h := by cases h
  parked := each_nil _

namespace Inv

variable {geo : Geometry} {σ : State} (h : Inv geo σ)
include h

/-- The parts of the invariant that speak of the log only, after an event that parks nothing. -/
theorem parked_concat {e : Event} (he : ∀ f, e = .park f → Parked geo σ.log f) :
    Each (σ.log ++ [e]) fun pre ev _ => ∀ f, ev = .park f → Parked geo pre f :=
  each_concat.mpr ⟨h.parked, he⟩

theorem park_req_concat {e : Event} (h1 : ∀ f, e ≠ .pan f) (h2 : e ≠ .snapshot) (hreq : σ.parkReq = true) :
    ∃ p1 p2, σ.log ++ [e] = p1 ++ .pan σ.parkFrame :: p2 ∧ Quiet p2 := by
  obtain ⟨p1, p2, hlog, hq⟩ := h.park_req hreq
  exact ⟨p1, p2 ++ [e], by rw [hlog]; simp, hq.concat h1 h2⟩

theorem flushing_concat {e : Event} (he : e ≠ .snapshot) {todo todo' : List ℕ} {park : Option ℕ}
    (hw : σ.worker = .flushing todo park) (htodo : ∀ line ∈ todo, .flush line = e ∨ line ∈ todo') :
    ∃ q p3, σ.log ++ [e] = q ++ .snapshot :: p3 ∧ (∀ e ∈ p3, e ≠ .snapshot) ∧
      FlushedBy geo q (.snapshot :: p3) (· ∈ todo') ∧ ∀ f, park = some f → ∃ p1 p2,
        q = p1 ++ .pan f :: p2 ∧ Quiet p2 := by
  obtain ⟨q, p3, hlog, hp3, hfl, hpark⟩ := h.flushing todo park hw
  refine ⟨q, p3 ++ [e], by rw [hlog]; simp, fun e' he' => ?_, ?_, hpark⟩
  · rcases List.mem_append.mp he' with he' | he'
    · exact hp3 e' he'
    · rw [List.mem_singleton.mp he']
      exact he
  · exact hfl.extend fun line hline => (htodo line hline).imp (fun h => by rw [h]; simp) id

theorem step_damage {d : Damage} (hd : d.InRange geo) : Inv geo (damageArea geo σ d) := by
  rcases damageArea_cases geo σ hd with heq | ⟨hvalid, hline, heq⟩ <;> rw [heq]
  · exact h
  · refine ⟨fun _ => ?_, ?_, fun _ => ?_, fun hreq => ?_, fun todo park hw => ?_, ?_⟩
    · dsimp only
      split_ifs with hdirty
      · exact (h.rect_valid hdirty).union hvalid
      · exact hvalid
    · refine h.covered.concat (fun line hr => Or.inr ?_) fun d' hd' line hl => ?_
      · refine hr.imp (fun ⟨hdirty, hl⟩ => ⟨rfl, ?_⟩) id
        simp only [hdirty, if_true]
        exact Rect.line_union_left hl
      · cases hd'
        refine Or.inl ⟨rfl, ?_⟩
        dsimp only
        split_ifs
        · exact Rect.line_union_right (hline line hl)
        · exact hline line hl
    · exact Or.inr (Or.inr (Nat.succ_pos _))
    · exact h.park_req_concat (by simp) (by simp) hreq
    · exact h.flushing_concat (by simp) hw fun line hl => Or.inr hl
    · exact h.parked_concat (by simp)

theorem step_pan (xoffset yoffset : ℕ) : Inv geo (panDisplay geo σ xoffset yoffset) := by
  rcases panDisplay_cases geo σ xoffset yoffset with heq | ⟨f, heq⟩ <;> rw [heq]
  · exact h
  · refine ⟨h.rect_valid, h.covered.concat (fun line hr => Or.inr hr) (by simp), fun _ => ?_, fun _ => ?_,
      fun todo park hw => ?_, h.parked_concat (by simp)⟩
    · exact Or.inr (Or.inr (Nat.succ_pos _))
    · exact ⟨σ.log, [], rfl, by simp [Quiet]⟩
    · exact h.flushing_concat (by simp) hw fun line hl => Or.inr hl

theorem step_snapshot (hw : σ.worker = .started) : Inv geo (takeSnapshot geo σ) := by
  -- the worker has nothing left from before, so all that is not flushed is in the rectangle
  have hcov : FlushedBy geo σ.log [] (· ∈ if σ.dirty then rectFlush geo σ.rect else []) := by
    refine h.covered.mono fun line hr => ?_
    rw [hw] at hr
    rcases hr with ⟨hdirty, hl⟩ | hl
    · rw [if_pos hdirty]
      exact (h.rect_valid hdirty).mem_rectFlush hl
    · cases hl
  refine ⟨fun hc => (by cases hc), ?_, fun hc => (by rcases hc with hc | hc <;> cases hc), fun hc => (by cases hc),
    fun todo park hw' => ?_, h.parked_concat (by simp)⟩
  · exact hcov.concat (fun line hl => Or.inr (Or.inr hl)) (by simp)
  · cases hw'
    refine ⟨σ.log, [], rfl, by simp, ?_, fun f hf => ?_⟩
    · have : FlushedBy geo σ.log ([] ++ [.snapshot]) (· ∈ if σ.dirty then rectFlush geo σ.rect else []) :=
        hcov.extend fun line hl => Or.inr hl
      simpa using this
    · by_cases hreq : σ.parkReq = true
      · rw [if_pos hreq] at hf
        cases hf
        exact h.park_req hreq
      · rw [if_neg hreq] at hf
        cases hf

theorem step_flush {line : ℕ} {todo : List ℕ} {park : Option ℕ} (hw : σ.worker = .flushing (line :: todo) park) :
    Inv geo { σ with worker := .flushing todo park, log := σ.log ++ [.flush line] } := by
  refine ⟨h.rect_valid, ?_, fun hc => ?_, h.park_req_concat (by simp) (by simp), fun todo' park' hw' => ?_,
    h.parked_concat (by simp)⟩
  · refine h.covered.concat (fun l hr => ?_) (by simp)
    rw [hw] at hr
    rcases hr with hr | hr
    · exact Or.inr (Or.inl hr)
    · rcases List.mem_cons.mp hr with rfl | hr
      · exact Or.inl rfl
      · exact Or.inr (Or.inr hr)
  · have := h.pending hc
    rw [hw] at this
    simpa using this
  · cases hw'
    refine h.flushing_concat (by simp) hw fun l hl => ?_
    rcases List.mem_cons.mp hl with rfl | hl
    · exact Or.inl rfl
    · exact Or.inr hl

/-- The worker parks when nothing is left to flush. -/
theorem step_park {f : ℕ} (hw : σ.worker = .flushing [] (some f)) :
    Inv geo { σ with worker := .idle, log := σ.log ++ [.park f] } := by
  refine ⟨h.rect_valid, ?_, fun hc => ?_, h.park_req_concat (by simp) (by simp), fun _ _ hw' => (by cases hw'), ?_⟩
  · refine h.covered.concat (fun l hr => Or.inr ?_) (by simp)
    rw [hw] at hr
    exact hr.imp id fun hr => by cases hr
  · have := h.pending hc
    rw [hw] at this
    simpa using this
  · refine h.parked_concat fun f' hf' => ?_
    cases hf'
    obtain ⟨q, p3, hlog, hp3, hfl, hpark⟩ := h.flushing _ _ hw
    obtain ⟨p1, p2, rfl, hq⟩ := hpark f rfl
    exact ⟨p1, p2, p3, hlog, hq, hp3, hfl.mono fun line hl => by cases hl⟩

/-- **One step keeps the invariant.** -/
theorem step (l : Label) (hl : ∀ d, l = .damage d → d.InRange geo) : Inv geo (Fb.step geo σ l) := by
  cases l with
  | damage d => exact h.step_damage (hl d rfl)
  | pan xoffset yoffset => exact h.step_pan xoffset yoffset
  | schedule =>
    dsimp only [Fb.step]
    split_ifs with hc
    · exact ⟨h.rect_valid, h.covered, fun _ => Or.inl rfl, h.park_req, h.flushing, h.parked⟩
    · exact h
  | start =>
    dsimp only [Fb.step]
    split_ifs with hc
    · refine ⟨h.rect_valid, ?_, fun _ => Or.inr (Or.inl rfl), h.park_req, fun _ _ hw => (by cases hw), h.parked⟩
      exact h.covered.mono fun line hr => by rwa [hc.2] at hr
    · exact h
  | snapshot =>
    dsimp only [Fb.step]
    split_ifs with hw
    · exact h.step_snapshot hw
    · exact h
  | flush =>
    dsimp only [Fb.step]
    split
    · exact h.step_flush (by assumption)
    · exact h
  | finish =>
    dsimp only [Fb.step]
    split
    · exact h.step_park (by assumption)
    · rename_i hw
      refine ⟨h.rect_valid, ?_, fun hc => ?_, h.park_req, fun _ _ hw => (by cases hw), h.parked⟩
      · exact h.covered.mono fun line hr => by rwa [hw] at hr
      · have := h.pending hc
        rw [hw] at this
        simpa using this
    · exact h

end Inv

theorem Inv.run {geo : Geometry} (labels : List Label) (hl : ∀ d, .damage d ∈ labels → d.InRange geo) :
    Inv geo (Fb.run geo labels) := by
  have key : ∀ (labels : List Label) (σ : State), (∀ d, .damage d ∈ labels → d.InRange geo) → Inv geo σ →
      Inv geo (labels.foldl (Fb.step geo) σ) := by
    intro labels
    induction labels with
    | nil => exact fun σ _ h => h
    | cons l labels ih =>
      intro σ hl h
      refine ih _ (fun d hd => hl d (List.mem_cons_of_mem _ hd)) (h.step l fun d hd => hl d ?_)
      rw [hd]
      exact List.mem_cons_self ..
  exact key labels _ hl (.init geo)

/-- **No damage is lost and no stale frame is shown.**  Every call that damages a pixel records it.  In every state
of every interleaving a line that overlaps a damaged pixel is flushed after the damage was recorded, or it is
covered by the dirty rectangle with a flush queued, started and about to take its snapshot, or about to be queued
by a call that has not returned, or it is among the lines a running worker has yet to flush; and whenever the
scanout is parked, that is because of the last pan before the worker's snapshot, and every line damaged before that
pan was flushed before. -/
theorem fb_run (geo : Geometry) (labels : List Label) (hl : ∀ d, .damage d ∈ labels → d.InRange geo) :
    (∀ d, d.InRange geo → (∃ px py, d.Pixel geo px py) →
      (step geo (run geo labels) (.damage d)).log = (run geo labels).log ++ [.record d]) ∧
    (∀ pre d post, (run geo labels).log = pre ++ .record d :: post → ∀ line, d.Line geo line →
      .flush line ∈ post ∨
      ((run geo labels).dirty = true ∧ (run geo labels).rect.Line geo line ∧
        ((run geo labels).queued = true ∨ (run geo labels).worker = .started ∨ 0 < (run geo labels).callers)) ∨
      line ∈ (run geo labels).worker.todo) ∧
    ∀ pre f post, (run geo labels).log = pre ++ .park f :: post →
      ∃ p1 p2 p3, pre = p1 ++ .pan f :: p2 ++ .snapshot :: p3 ∧ Quiet p2 ∧ (∀ e ∈ p3, e ≠ .snapshot) ∧
        ∀ a d b, p1 = a ++ .record d :: b → ∀ line, d.Line geo line →
          .flush line ∈ b ++ .pan f :: p2 ++ .snapshot :: p3 := by
  have hinv := Inv.run labels hl
  refine ⟨fun d hd ⟨px, py, hp⟩ => damageArea_records geo _ hd hp, ?_, ?_⟩
  · intro pre d post hlog line hline
    have hcov := hinv.covered pre _ post hlog d rfl line hline
    rw [List.append_nil] at hcov
    rcases hcov with hf | ⟨hdirty, hr⟩ | hw
    · exact Or.inl hf
    · exact Or.inr (Or.inl ⟨hdirty, hr, hinv.pending (Or.inl hdirty)⟩)
    · exact Or.inr (Or.inr hw)
  · intro pre f post hlog
    obtain ⟨p1, p2, p3, hpre, hq, hp3, hfl⟩ := hinv.parked pre _ post hlog f rfl
    refine ⟨p1, p2, p3, hpre, hq, hp3, fun a d b hp1 line hline => ?_⟩
    have := hfl a (.record d) (b ++ .pan f :: p2) (by rw [hp1]; simp) d rfl line hline
    simpa using this

/-- Two frames of 8 by 4 pixels. -/
def tiny : Geometry :=
  ⟨0x80000000, 4096, 8, 4, by decide, by decide, by decide, by decide, by decide⟩

/-- Draw into the back frame and flip to it while the worker is already running. -/
def flip : List Label :=
  [.damage (.area 0 4 8 2), .schedule, .start, .pan 0 4, .snapshot, .flush, .schedule, .flush, .flush, .finish]

theorem flip_parks :
    (run tiny flip).log = [.record (.area 0 4 8 2), .pan 1, .snapshot, .flush 0x80000040, .flush 0x80000040,
      .flush 0x80000080, .park 1] ∧
      ∀ line, (Damage.area 0 4 8 2).Line tiny line → .flush line ∈ [Event.pan 1, .snapshot, .flush 0x80000040,
        .flush 0x80000040, .flush 0x80000080, .park 1] := by
  have hlog : (run tiny flip).log = [.record (.area 0 4 8 2), .pan 1, .snapshot, .flush 0x80000040,
      .flush 0x80000040, .flush 0x80000080, .park 1] := by decide
  have hrange : ∀ d, Label.damage d ∈ flip → d.InRange tiny := by
    intro d hd
    simp only [flip, List.mem_cons, Label.damage.injEq, reduceCtorEq, List.not_mem_nil, or_false] at hd
    rw [hd]
    decide
  refine ⟨hlog, fun line hline => ?_⟩
  rcases (fb_run tiny flip hrange).2.1 [] _ _ hlog line hline with h | ⟨hd, -⟩ | h
  · exact h
  · exact absurd hd (by decide)
  · exact absurd h (by rw [show (run tiny flip).worker = .idle by decide]; exact List.not_mem_nil)

end Soceteer.Dp.Fb
