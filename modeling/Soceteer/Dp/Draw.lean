import Mathlib.Algebra.Group.Nat.Defs
import Mathlib.Data.Nat.Bitwise
import Mathlib.Tactic.Ring
import Soceteer.Dp.Fb
import Soceteer.Dp.Var
import Soceteer.Lib.Raster
import Soceteer.Lib.Run

/-!
# Soceteer.Dp.Draw — the fast drawing paths of the console framebuffer

Glyphs are drawn through a table of 8-pixel patterns that depends on the foreground and background colours and
outlives the call; solid grey rectangles are one `memset` per line.  Everything else goes to the helpers of the
framebuffer core.

* `State`, `imageblit`, `fillrect`, `setcolreg`: the source; `damage` records what was drawn, `flushNow` is the
  path of a dying kernel.
* `Cfb`, `Cfb.Plain`: the helpers of the core, and what is known of `cfb_fillrect`.
* `mem_blitRow`, `mem_blit`, `mem_memsetRows`: the bytes the loops store.
* `Glyph.Sound`: a valid table belongs to its colours; `Inv`, `Inv.step`.
* `drawing_plain`: after every call of every run the rectangle has the colours that were asked for.
-/

namespace Soceteer.Dp.Draw

open Lib Lib.Run Fb Clk

/-! ## The source -/

/-- `struct fb_image`; `data` points to the bitmap. -/
structure FbImage where
  dx : UInt32
  dy : UInt32
  width : UInt32
  height : UInt32
  fgColor : UInt32
  bgColor : UInt32
  depth : UInt8
  data : ℕ → UInt8

/-- `struct fb_fillrect`. -/
structure FbFillrect where
  dx : UInt32
  dy : UInt32
  width : UInt32
  height : UInt32
  color : UInt32
  rop : UInt32

def ropCopy : UInt32 := 0

def ropXor : UInt32 := 1

/-- Byte `k` of a colour, from the low address up. -/
def colourByte (c : UInt32) (k : ℕ) : UInt8 := (c >>> UInt32.ofNat (8 * k)).toUInt8

/-- The static `glyph` table. -/
structure Glyph where
  fg : UInt32
  bg : UInt32
  valid : Bool
  pat : UInt8 → ℕ → UInt8

/-- The part of the driver that drawing touches: the bytes from `fbs.virt` on, the palette (an index past its 16
entries reads what lies behind them), the glyph table and the damage. -/
structure State where
  virt : ℕ → UInt8
  palette : ℕ → UInt32
  glyph : Glyph
  fb : Fb.State

/-- The helpers of the framebuffer core. -/
structure Cfb where
  fillrect : Geometry → (ℕ → UInt32) → FbFillrect → (ℕ → UInt8) → ℕ → UInt8
  imageblit : Geometry → (ℕ → UInt32) → FbImage → (ℕ → UInt8) → ℕ → UInt8

section Source

variable (geo : Geometry)

/-- `soct_dp_fb_flush_now` at the end of a call: the work of the flush worker, in the caller. -/
def flushNow (σ : Fb.State) : Fb.State :=
  { σ with
    dirty := false, parkReq := false, callers := σ.callers - 1,
    log := σ.log ++ .snapshot :: ((if σ.dirty then rectFlush geo σ.rect else []).map .flush ++
      if σ.parkReq then [.park σ.parkFrame] else []) }

/-- `soct_dp_fb_damage_area`, up to its return; `oops` is `oops_in_progress`. -/
def damage (oops : Bool) (x y w h : UInt32) (σ : Fb.State) : Fb.State :=
  if w = 0 ∨ h = 0 ∨ x.toNat ≥ geo.width ∨ y.toNat ≥ geo.vh then σ
  else
    let σ := Fb.step geo σ (.damage (.area x.toNat y.toNat w.toNat h.toNat))
    if oops then flushNow geo σ else Fb.step geo σ .schedule

/-- The patterns of a pair of colours: byte `j` of the eight pixels that `b` stands for. -/
def patOf (fg bg : UInt32) (b : UInt8) (j : ℕ) : UInt8 :=
  colourByte (if b.toNat &&& (0x80 >>> (j / 3)) ≠ 0 then fg else bg) (j % 3)

/-- `memcpy` of the first `n` bytes of `src`. -/
def memcpy (dst : ℕ) (src : ℕ → UInt8) (n : ℕ) : List Access :=
  (List.range n).map fun k => .store (dst + k) (src k)

/-- The loop over the `n` bytes of a row, from byte `i` on with `rem` pixels left. -/
def blitRow (pat : UInt8 → ℕ → UInt8) (src : ℕ → UInt8) : ℕ → ℕ → ℕ → ℕ → List Access
  | 0, _, _, _ => []
  | n + 1, i, dst, rem =>
    let px := min rem 8
    memcpy dst (pat (src i)) (px * 3) ++ blitRow pat src n (i + 1) (dst + px * 3) (rem - px)

/-- `spitch` -/
def FbImage.spitch (img : FbImage) : UInt32 := (img.width + 7) / 8

/-- The loop over the rows of a glyph. -/
def blit (pat : UInt8 → ℕ → UInt8) (img : FbImage) : List Access :=
  (List.range img.height.toNat).flatMap fun y =>
    blitRow pat (fun i => img.data (y * img.spitch.toNat + i)) img.spitch.toNat 0
      ((img.dy + UInt32.ofNat y).toNat * geo.stride + img.dx.toNat * 3) img.width.toNat

/-- The loop over the lines of a rectangle. -/
def memsetRows (b : UInt8) (r : FbFillrect) : List Access :=
  (List.range r.height.toNat).flatMap fun y =>
    (List.range (r.width.toNat * 3)).map fun k =>
      .store ((r.dy + UInt32.ofNat y).toNat * geo.stride + r.dx.toNat * 3 + k) b

/-- The table that is drawn with, rebuilt when the colours changed. -/
def Glyph.prepare (g : Glyph) (fg bg : UInt32) : Glyph :=
  if ¬ g.valid ∨ g.fg ≠ fg ∨ g.bg ≠ bg then ⟨fg, bg, true, patOf fg bg⟩ else g

variable (cfb : Cfb)

/-- `soct_dp_fb_imageblit` -/
def imageblit (oops : Bool) (img : FbImage) (σ : State) : State :=
  if img.depth ≠ 1 then
    { σ with
      virt := cfb.imageblit geo σ.palette img σ.virt
      fb := damage geo oops img.dx img.dy img.width img.height σ.fb }
  else
    let glyph := σ.glyph.prepare (σ.palette img.fgColor.toNat) (σ.palette img.bgColor.toNat)
    { σ with
      virt := exec σ.virt (blit geo glyph.pat img), glyph := glyph,
      fb := damage geo oops img.dx img.dy img.width img.height σ.fb }

/-- `soct_dp_fb_fillrect` -/
def fillrect (oops : Bool) (r : FbFillrect) (σ : State) : State :=
  let c := σ.palette r.color.toNat
  let b := colourByte c 0
  if r.rop ≠ ropCopy ∨ b ≠ colourByte c 1 ∨ b ≠ colourByte c 2 then
    { σ with virt := cfb.fillrect geo σ.palette r σ.virt, fb := damage geo oops r.dx r.dy r.width r.height σ.fb }
  else
    { σ with virt := exec σ.virt (memsetRows geo b r), fb := damage geo oops r.dx r.dy r.width r.height σ.fb }

/-- `soct_dp_fb_setcolreg`; `transp` is not used. -/
def setcolreg (var : VarScreenInfo) (regno red green blue : UInt32) (σ : State) : Except Errno State :=
  if regno ≥ 16 then .error .einval
  else
    let c := ((red >>> 8) <<< var.red.offset) ||| ((green >>> 8) <<< var.green.offset) |||
      ((blue >>> 8) <<< var.blue.offset)
    .ok { σ with palette := Function.update σ.palette regno.toNat c }

end Source

/-! ## Runs -/

/-- The calls, and a step of the damage worker or of another caller in between. -/
inductive Op
  | imageblit (oops : Bool) (img : FbImage)
  | fillrect (oops : Bool) (r : FbFillrect)
  | setcolreg (var : VarScreenInfo) (regno red green blue : UInt32)
  | background (l : Fb.Label)

def step (geo : Geometry) (cfb : Cfb) (σ : State) : Op → State
  | .imageblit oops img => imageblit geo cfb oops img σ
  | .fillrect oops r => fillrect geo cfb oops r σ
  | .setcolreg var regno red green blue =>
    match setcolreg var regno red green blue σ with
    | .ok σ' => σ'
    | .error _ => σ
  | .background l => { σ with fb := Fb.step geo σ.fb l }

/-- After loading: the static table is zero. -/
def State.init (virt : ℕ → UInt8) (palette : ℕ → UInt32) : State :=
  ⟨virt, palette, ⟨0, 0, false, fun _ _ => 0⟩, .init⟩

/-- The rectangle of a call. -/
def area (dx dy width height : UInt32) : Damage := .area dx.toNat dy.toNat width.toNat height.toNat

/-- Rectangles inside the virtual screen. -/
def Op.InScreen (geo : Geometry) : Op → Prop
  | .imageblit _ img => (area img.dx img.dy img.width img.height).InRange geo
  | .fillrect _ r => (area r.dx r.dy r.width r.height).InRange geo
  | .setcolreg .. => True
  | .background l => ∀ d, l = .damage d → d.InRange geo

/-! ## What is asked for -/

/-- The virtual screen. -/
def screen (geo : Geometry) : Raster := ⟨geo.width, geo.vh⟩

/-- The bit of pixel `(px, py)`: most significant first, in rows of whole bytes. -/
def FbImage.bit (img : FbImage) (px py : ℕ) : Bool :=
  (img.data ((py - img.dy.toNat) * ((img.width.toNat + 7) / 8) + (px - img.dx.toNat) / 8)).toNat.testBit
    (7 - (px - img.dx.toNat) % 8)

/-- The colour of a pixel of an image. -/
def FbImage.pixel (img : FbImage) (palette : ℕ → UInt32) (px py k : ℕ) : UInt8 :=
  colourByte (if img.bit px py then palette img.fgColor.toNat else palette img.bgColor.toNat) k

/-- The colour of a pixel of a rectangle; a `rop` that is not known is taken for `ROP_COPY`. -/
def FbFillrect.pixel (r : FbFillrect) (geo : Geometry) (palette : ℕ → UInt32) (m : ℕ → UInt8)
    (px py k : ℕ) : UInt8 :=
  if r.rop = ropXor then m ((screen geo).byte px py k) ^^^ colourByte (palette r.color.toNat) k
  else colourByte (palette r.color.toNat) k

/-- `cfb_fillrect` draws the solid or inverted rectangle pixel by pixel. -/
def Cfb.Plain (geo : Geometry) (cfb : Cfb) : Prop :=
  ∀ palette r m, (area r.dx r.dy r.width r.height).InRange geo →
    Drawn (screen geo) ((area r.dx r.dy r.width r.height).Pixel geo) (r.pixel geo palette m) m
      (cfb.fillrect geo palette r m)

/-- The damage is in the log, and each of its lines is flushed since or in the dirty rectangle. -/
def Recorded (geo : Geometry) (d : Damage) (σ σ' : Fb.State) : Prop :=
  ∃ post, σ'.log = σ.log ++ .record d :: post ∧
    ∀ line, d.Line geo line → .flush line ∈ post ∨ σ'.dirty = true ∧ σ'.rect.Line geo line

/-- What a call that draws does: the pixels of the area, nothing else, and all of it is damage. -/
structure Plain (geo : Geometry) (d : Damage) (value : ℕ → ℕ → ℕ → UInt8) (σ σ' : State) : Prop where
  drawn : Drawn (screen geo) (d.Pixel geo) value σ.virt σ'.virt
  recorded : (∃ px py, d.Pixel geo px py) → Recorded geo d σ.fb σ'.fb
  palette : σ'.palette = σ.palette

/-- What each call is for. -/
def Op.Plain (geo : Geometry) (σ σ' : State) : Op → Prop
  | .imageblit _ img =>
    img.depth = 1 → Draw.Plain geo (area img.dx img.dy img.width img.height) (img.pixel σ.palette) σ σ'
  | .fillrect _ r => Draw.Plain geo (area r.dx r.dy r.width r.height) (r.pixel geo σ.palette σ.virt) σ σ'
  | .setcolreg _ regno .. =>
    σ'.virt = σ.virt ∧ σ'.fb = σ.fb ∧ ∀ i, i ≠ regno.toNat ∨ 16 ≤ i → σ'.palette i = σ.palette i
  | .background _ => σ'.virt = σ.virt ∧ σ'.palette = σ.palette

/-! ## The stores of the loops -/

section Stores

variable {off : ℕ} {v : UInt8}

theorem mem_memcpy {dst n : ℕ} {src : ℕ → UInt8} :
    Access.store off v ∈ memcpy dst src n ↔ ∃ k < n, off = dst + k ∧ v = src k := by
  simp [memcpy, eq_comm]

/-- A row of a glyph: byte `j` comes from byte `j / 24` of the bitmap. -/
theorem mem_blitRow {pat : UInt8 → ℕ → UInt8} {src : ℕ → UInt8} {n i dst rem : ℕ} :
    Access.store off v ∈ blitRow pat src n i dst rem ↔
      ∃ j < 3 * min rem (8 * n), off = dst + j ∧ v = pat (src (i + j / 24)) (j % 24) := by
  induction n generalizing i dst rem with
  | zero => simp [blitRow]
  | succ n ih =>
    rw [blitRow, List.mem_append, mem_memcpy, ih]
    constructor
    · rintro (⟨k, hk, rfl, rfl⟩ | ⟨j, hj, rfl, rfl⟩)
      · have hk24 : k < 24 := by omega
        refine ⟨k, by omega, rfl, ?_⟩
        rw [Nat.div_eq_of_lt hk24, Nat.mod_eq_of_lt hk24, Nat.add_zero]
      · have hpx : min rem 8 = 8 := by omega
        refine ⟨j + 24, by omega, by omega, ?_⟩
        rw [Nat.add_div_right j (by omega), Nat.add_mod_right, show i + 1 + j / 24 = i + (j / 24).succ by omega]
    · rintro ⟨j, hj, rfl, rfl⟩
      by_cases h24 : j < 24
      · refine .inl ⟨j, by omega, rfl, ?_⟩
        rw [Nat.div_eq_of_lt h24, Nat.mod_eq_of_lt h24, Nat.add_zero]
      · -- the rest of the row follows eight whole pixels
        have hpx : min rem 8 = 8 := by omega
        refine .inr ⟨j - 24, by omega, by omega, ?_⟩
        rw [show i + 1 + (j - 24) / 24 = i + j / 24 by omega, show (j - 24) % 24 = j % 24 by omega]

variable {geo : Geometry}

/-- A row of a rectangle inside the screen starts where it should. -/
theorem row_start {dx dy width height : UInt32} {y : ℕ} (h : (area dx dy width height).InRange geo)
    (hy : y < height.toNat) :
    (dy + UInt32.ofNat y).toNat * geo.stride + dx.toNat * 3 = (screen geo).byte dx.toNat (dy.toNat + y) 0 := by
  obtain ⟨-, hrows⟩ := h
  have hvh := geo.vh_le
  have hlt := geo.carveout_lt
  have hrow : (dy + UInt32.ofNat y).toNat = dy.toNat + y := by
    rw [UInt32.toNat_add, UInt32.toNat_ofNat', Nat.mod_eq_of_lt (show y < 2 ^ 32 by omega),
      Nat.mod_eq_of_lt (by omega)]
  rw [hrow, geo.stride_eq, Raster.byte, screen]
  ring

/-- Rows that each store to the bytes of their part of an area. -/
theorem mem_areaRows {dx dy width height : UInt32} (h : (area dx dy width height).InRange geo)
    {row : ℕ → List Access}
    {f : ℕ → ℕ → UInt8} (hrow : ∀ y < height.toNat, Access.store off v ∈ row y ↔
      ∃ j < 3 * width.toNat, off = (screen geo).byte dx.toNat (dy.toNat + y) 0 + j ∧ v = f y j) :
    Access.store off v ∈ (List.range height.toNat).flatMap row ↔
      ∃ px py k, px < (screen geo).width ∧ py < (screen geo).height ∧ k < 3 ∧
        (area dx dy width height).Pixel geo px py ∧ off = (screen geo).byte px py k ∧
        v = f (py - dy.toNat) (3 * (px - dx.toNat) + k) := by
  obtain ⟨hcols, hrows⟩ := h
  rw [List.mem_flatMap]
  constructor
  · rintro ⟨y, hy, hmem⟩
    rw [List.mem_range] at hy
    obtain ⟨j, hj, rfl, rfl⟩ := (hrow y hy).mp hmem
    -- byte `j` is byte `j % 3` of pixel `j / 3`
    refine ⟨dx.toNat + j / 3, dy.toNat + y, j % 3, ?_, ?_, Nat.mod_lt _ (by omega), ?_, ?_, ?_⟩
    · show dx.toNat + j / 3 < geo.width
      omega
    · show dy.toNat + y < geo.vh
      omega
    · refine ⟨?_, ?_, ?_, ?_⟩ <;> omega
    · rw [← (screen geo).byte_add]
      omega
    · rw [Nat.add_sub_cancel_left, Nat.add_sub_cancel_left, Nat.div_add_mod]
  · rintro ⟨px, py, k, -, -, hk, ⟨hx1, hx2, hy1, hy2⟩, rfl, rfl⟩
    refine ⟨py - dy.toNat, List.mem_range.mpr (by omega), (hrow _ (by omega)).mpr ?_⟩
    refine ⟨3 * (px - dx.toNat) + k, by omega, ?_, rfl⟩
    rw [← Nat.add_assoc, (screen geo).byte_add, Nat.add_sub_cancel' hx1, Nat.add_sub_cancel' hy1]

theorem mem_memsetRows {b : UInt8} {r : FbFillrect} (h : (area r.dx r.dy r.width r.height).InRange geo) :
    Access.store off v ∈ memsetRows geo b r ↔ ∃ px py k, px < (screen geo).width ∧
      py < (screen geo).height ∧ k < 3 ∧
      (area r.dx r.dy r.width r.height).Pixel geo px py ∧ off = (screen geo).byte px py k ∧ v = b := by
  refine mem_areaRows (f := fun _ _ => b) h fun y hy => ?_
  rw [row_start h hy, Nat.mul_comm]
  simp [eq_comm]

/-- The bytes of a row of a bitmap. -/
theorem spitch_eq {img : FbImage} (h : (area img.dx img.dy img.width img.height).InRange geo) :
    img.spitch.toNat = (img.width.toNat + 7) / 8 := by
  obtain ⟨hcols, -⟩ := h
  have hstride := geo.stride_le
  have hlt := geo.carveout_lt
  rw [FbImage.spitch, UInt32.toNat_div, UInt32.toNat_add, show (7 : UInt32).toNat = 7 from rfl,
    show (8 : UInt32).toNat = 8 from rfl, Nat.mod_eq_of_lt (by omega)]

theorem mem_blit {pat : UInt8 → ℕ → UInt8} {img : FbImage}
    (h : (area img.dx img.dy img.width img.height).InRange geo) :
    Access.store off v ∈ blit geo pat img ↔ ∃ px py k, px < (screen geo).width ∧ py < (screen geo).height ∧ k < 3 ∧
      (area img.dx img.dy img.width img.height).Pixel geo px py ∧ off = (screen geo).byte px py k ∧
      v = pat (img.data ((py - img.dy.toNat) * ((img.width.toNat + 7) / 8) + (3 * (px - img.dx.toNat) + k) / 24))
        ((3 * (px - img.dx.toNat) + k) % 24) := by
  unfold blit
  rw [spitch_eq h]
  refine mem_areaRows (f := fun y j => pat (img.data (y * ((img.width.toNat + 7) / 8) + j / 24)) (j % 24)) h
    fun y hy => ?_
  rw [row_start h hy, mem_blitRow, show min img.width.toNat (8 * ((img.width.toNat + 7) / 8)) =
    img.width.toNat by omega]
  simp only [Nat.zero_add]

/-- Bit `q` of the pattern of a byte, most significant first. -/
theorem patOf_eq (fg bg : UInt32) (b : UInt8) {q k : ℕ} (hq : q < 8) (hk : k < 3) :
    patOf fg bg b (3 * q + k) = colourByte (if b.toNat.testBit (7 - q) then fg else bg) k := by
  have hmask : 0x80 >>> q = 2 ^ (7 - q) := by
    rw [Nat.shiftRight_eq_div_pow, show 0x80 = 2 ^ 7 from rfl, Nat.pow_div (by omega) (by omega)]
  rw [patOf, show (3 * q + k) / 3 = q by omega, show (3 * q + k) % 3 = k by omega, hmask, Nat.and_two_pow]
  cases b.toNat.testBit (7 - q) <;> simp

end Stores

/-! ## The glyph table -/

/-- A valid table holds the patterns of its colours. -/
def Glyph.Sound (g : Glyph) : Prop := g.valid = true → ∀ b, ∀ j < 24, g.pat b j = patOf g.fg g.bg b j

theorem Glyph.Sound.prepare {g : Glyph} (h : g.Sound) (fg bg : UInt32) :
    (g.prepare fg bg).Sound ∧ ∀ b, ∀ j < 24, (g.prepare fg bg).pat b j = patOf fg bg b j := by
  unfold Glyph.prepare
  split_ifs with hstale
  · exact ⟨fun _ _ _ _ => rfl, fun _ _ _ => rfl⟩
  · simp only [not_or, not_not] at hstale
    obtain ⟨hvalid, rfl, rfl⟩ := hstale
    exact ⟨h, h hvalid⟩

/-- The image is drawn with the colours of this call. -/
theorem blit_drawn {geo : Geometry} {img : FbImage} {pat : UInt8 → ℕ → UInt8}
    {palette : ℕ → UInt32} (m : ℕ → UInt8)
    (h : (area img.dx img.dy img.width img.height).InRange geo)
    (hpat : ∀ b, ∀ j < 24, pat b j = patOf (palette img.fgColor.toNat) (palette img.bgColor.toNat) b j) :
    Drawn (screen geo) ((area img.dx img.dy img.width img.height).Pixel geo) (img.pixel palette) m
      (exec m (blit geo pat img)) := by
  have hdrawn := drawn_of_stores m fun _ _ => @mem_blit _ _ geo pat img h
  refine hdrawn.congr (fun _ _ _ _ => Iff.rfl) ?_
  intro px py k _ _ hk _
  rw [hpat _ _ (Nat.mod_lt _ (by omega)),
    show (3 * (px - img.dx.toNat) + k) % 24 = 3 * ((px - img.dx.toNat) % 8) + k by omega,
    show (3 * (px - img.dx.toNat) + k) / 24 = (px - img.dx.toNat) / 8 by omega, patOf_eq _ _ _ (by omega) hk]
  rfl

/-- A grey rectangle is drawn by `memset`. -/
theorem memset_drawn {geo : Geometry} {r : FbFillrect} {palette : ℕ → UInt32} (m : ℕ → UInt8)
    (h : (area r.dx r.dy r.width r.height).InRange geo) (hrop : r.rop = ropCopy)
    (hgrey : ∀ k < 3, colourByte (palette r.color.toNat) 0 = colourByte (palette r.color.toNat) k) :
    Drawn (screen geo) ((area r.dx r.dy r.width r.height).Pixel geo) (r.pixel geo palette m) m
      (exec m (memsetRows geo (colourByte (palette r.color.toNat) 0) r)) := by
  have hdrawn : Drawn (screen geo) ((area r.dx r.dy r.width r.height).Pixel geo)
      (fun _ _ _ => colourByte (palette r.color.toNat) 0) m _ := drawn_of_stores m fun _ _ => mem_memsetRows h
  refine hdrawn.congr (fun _ _ _ _ => Iff.rfl) ?_
  intro px py k _ _ hk _
  rw [FbFillrect.pixel, if_neg (by rw [hrop]; decide)]
  exact hgrey k hk

/-! ## Damage -/

section Damage

variable {geo : Geometry} {σ : Fb.State}

/-- What recording the damage of a call does, before it schedules the work or flushes. -/
theorem damage_step (hvalid : σ.dirty = true → σ.rect.Valid geo) {d : Damage} (hd : d.InRange geo)
    (hp : ∃ px py, d.Pixel geo px py) : (Fb.step geo σ (.damage d)).dirty = true ∧
      (Fb.step geo σ (.damage d)).rect.Valid geo ∧ (Fb.step geo σ (.damage d)).log = σ.log ++ [.record d] ∧
      ∀ line, d.Line geo line → (Fb.step geo σ (.damage d)).rect.Line geo line := by
  obtain ⟨px, py, hp⟩ := hp
  have hlog : (damageArea geo σ d).log = σ.log ++ [.record d] := damageArea_records geo σ hd hp
  show (damageArea geo σ d).dirty = true ∧ (damageArea geo σ d).rect.Valid geo ∧
    (damageArea geo σ d).log = σ.log ++ [.record d] ∧ ∀ line, d.Line geo line →
      (damageArea geo σ d).rect.Line geo line
  rcases damageArea_cases geo σ hd with hsame | ⟨hrect, hlines, heq⟩
  · rw [hsame] at hlog
    exact absurd (congrArg List.length hlog) (by simp)
  rw [heq]
  refine ⟨rfl, ?_, rfl, ?_⟩
  · show (if σ.dirty then σ.rect.union (d.rect geo) else d.rect geo).Valid geo
    split_ifs with hdirty
    · exact (hvalid hdirty).union hrect
    · exact hrect
  · intro line hline
    show (if σ.dirty then σ.rect.union (d.rect geo) else d.rect geo).Line geo line
    split_ifs
    · exact Rect.line_union_right (hlines line hline)
    · exact hlines line hline

theorem flushNow_log (hdirty : σ.dirty = true) : ∃ post, (flushNow geo σ).log = σ.log ++ post ∧
    ∀ line ∈ rectFlush geo σ.rect, .flush line ∈ post := by
  refine ⟨_, rfl, ?_⟩
  intro line hline
  simp [hdirty, hline]

/-- The whole area of a call is recorded. -/
theorem damage_recorded (oops : Bool) {x y w h : UInt32} (hvalid : σ.dirty = true → σ.rect.Valid geo)
    (hd : (area x y w h).InRange geo) (hp : ∃ px py, (area x y w h).Pixel geo px py) :
    Recorded geo (area x y w h) σ (damage geo oops x y w h σ) := by
  obtain ⟨hdirty, hrect, hlog, hlines⟩ := damage_step hvalid hd hp
  have hguard : ¬ (w = 0 ∨ h = 0 ∨ x.toNat ≥ geo.width ∨ y.toNat ≥ geo.vh) := by
    obtain ⟨px, py, hx1, hx2, hy1, hy2⟩ := hp
    obtain ⟨hcols, hrows⟩ := hd
    rw [← UInt32.toNat_inj, ← UInt32.toNat_inj, show (0 : UInt32).toNat = 0 from rfl]
    omega
  rw [damage, if_neg hguard]
  show Recorded geo (area x y w h) σ (if oops then flushNow geo (Fb.step geo σ (.damage (area x y w h)))
    else Fb.step geo (Fb.step geo σ (.damage (area x y w h))) .schedule)
  generalize Fb.step geo σ (.damage (area x y w h)) = σ₁ at hdirty hrect hlog hlines
  split_ifs
  · obtain ⟨post, hpost, hflush⟩ := @flushNow_log geo σ₁ hdirty
    refine ⟨post, by rw [hpost, hlog, List.append_assoc]; rfl, fun line hline => .inl ?_⟩
    exact hflush line (hrect.mem_rectFlush (hlines line hline))
  · refine ⟨[], ?_, fun line hline => .inr ?_⟩
    · rw [← hlog]
      simp only [Fb.step]
      split_ifs <;> rfl
    · simp only [Fb.step]
      split_ifs <;> exact ⟨hdirty, hlines line hline⟩

/-- The dirty rectangle stays inside the screen. -/
theorem rect_valid_step (hvalid : σ.dirty = true → σ.rect.Valid geo) (l : Fb.Label)
    (hl : ∀ d, l = .damage d → d.InRange geo) :
    (Fb.step geo σ l).dirty = true → (Fb.step geo σ l).rect.Valid geo := by
  cases l with
  | damage d =>
    intro hdirty
    rcases damageArea_cases geo σ (hl d rfl) with hsame | ⟨hrect, -, heq⟩
    · rw [show Fb.step geo σ (.damage d) = σ from hsame] at hdirty ⊢
      exact hvalid hdirty
    · rw [show Fb.step geo σ (.damage d) = _ from heq]
      show (if σ.dirty then σ.rect.union (d.rect geo) else d.rect geo).Valid geo
      split_ifs with hd
      · exact (hvalid hd).union hrect
      · exact hrect
  | pan xoffset yoffset =>
    rcases Fb.panDisplay_cases geo σ xoffset yoffset with hsame | ⟨f, heq⟩
    · rwa [show Fb.step geo σ (.pan xoffset yoffset) = σ from hsame]
    · rwa [show Fb.step geo σ (.pan xoffset yoffset) = _ from heq]
  | schedule =>
    simp only [Fb.step]
    split_ifs <;> exact hvalid
  | start =>
    simp only [Fb.step]
    split_ifs <;> exact hvalid
  | snapshot =>
    simp only [Fb.step]
    split_ifs
    · intro hdirty
      exact absurd hdirty (by simp [takeSnapshot])
    · exact hvalid
  | flush =>
    simp only [Fb.step]
    split <;> exact hvalid
  | finish =>
    simp only [Fb.step]
    split <;> exact hvalid

theorem rect_valid_damage (oops : Bool) {x y w h : UInt32} (hvalid : σ.dirty = true → σ.rect.Valid geo)
    (hd : (area x y w h).InRange geo) :
    (damage geo oops x y w h σ).dirty = true → (damage geo oops x y w h σ).rect.Valid geo := by
  have hstep : (Fb.step geo σ (.damage (area x y w h))).dirty = true →
      (Fb.step geo σ (.damage (area x y w h))).rect.Valid geo := by
    refine rect_valid_step hvalid _ ?_
    rintro d hd'
    obtain rfl := Fb.Label.damage.inj hd'
    exact hd
  unfold damage
  split_ifs with hguard hoops
  · exact hvalid
  · intro hdirty
    exact absurd hdirty (by simp [flushNow])
  · exact rect_valid_step hstep .schedule (by simp)

end Damage

/-! ## Runs of calls -/

/-- The table belongs to its colours, and the dirty rectangle lies in the screen. -/
structure Inv (geo : Geometry) (σ : State) : Prop where
  glyph : σ.glyph.Sound
  rect : σ.fb.dirty = true → σ.fb.rect.Valid geo

theorem inv_init (geo : Geometry) (virt : ℕ → UInt8) (palette : ℕ → UInt32) : Inv geo (.init virt palette) where
  glyph := fun h => absurd h (by simp [State.init])
  rect := fun h => absurd h (by simp [State.init, Fb.State.init])

section Run

variable {geo : Geometry} {cfb : Cfb} {σ : State}

theorem Inv.step (h : Inv geo σ) {op : Op} (hop : op.InScreen geo) : Inv geo (step geo cfb σ op) := by
  cases op with
  | imageblit oops img =>
    have hrect := rect_valid_damage oops h.rect hop
    simp only [Draw.step, imageblit]
    split_ifs
    · exact ⟨h.glyph, hrect⟩
    · exact ⟨(h.glyph.prepare _ _).1, hrect⟩
  | fillrect oops r =>
    have hrect := rect_valid_damage oops h.rect hop
    simp only [Draw.step, fillrect]
    split_ifs <;> exact ⟨h.glyph, hrect⟩
  | setcolreg var regno red green blue =>
    simp only [Draw.step, setcolreg]
    split_ifs <;> exact ⟨h.glyph, h.rect⟩
  | background l => exact ⟨h.glyph, rect_valid_step h.rect l hop⟩

theorem Inv.imageblit (h : Inv geo σ) (oops : Bool) {img : FbImage}
    (hin : (area img.dx img.dy img.width img.height).InRange geo) (hdepth : img.depth = 1) :
    Plain geo (area img.dx img.dy img.width img.height) (img.pixel σ.palette) σ
      (imageblit geo cfb oops img σ) := by
  rw [Draw.imageblit, if_neg (by simp [hdepth])]
  obtain ⟨-, hpat⟩ := h.glyph.prepare (σ.palette img.fgColor.toNat) (σ.palette img.bgColor.toNat)
  exact ⟨blit_drawn σ.virt hin hpat, damage_recorded oops h.rect hin, rfl⟩

theorem Inv.fillrect (hcfb : cfb.Plain geo) (h : Inv geo σ) (oops : Bool) {r : FbFillrect}
    (hin : (area r.dx r.dy r.width r.height).InRange geo) :
    Plain geo (area r.dx r.dy r.width r.height) (r.pixel geo σ.palette σ.virt) σ (fillrect geo cfb oops r σ) := by
  simp only [Draw.fillrect]
  split_ifs with hslow
  · exact ⟨hcfb σ.palette r σ.virt hin, damage_recorded oops h.rect hin, rfl⟩
  · simp only [not_or, not_not] at hslow
    obtain ⟨hrop, h1, h2⟩ := hslow
    have hgrey : ∀ k < 3, colourByte (σ.palette r.color.toNat) 0 = colourByte (σ.palette r.color.toNat) k := by
      intro k hk
      obtain rfl | rfl | rfl : k = 0 ∨ k = 1 ∨ k = 2 := by omega
      · rfl
      · exact h1
      · exact h2
    exact ⟨memset_drawn σ.virt hin hrop hgrey, damage_recorded oops h.rect hin, rfl⟩

theorem setcolreg_plain {var : VarScreenInfo} {regno red green blue : UInt32} :
    (Op.setcolreg var regno red green blue).Plain geo σ
      (Draw.step geo cfb σ (.setcolreg var regno red green blue)) := by
  simp only [Draw.step, setcolreg]
  split_ifs with hreg
  · exact ⟨rfl, rfl, fun _ _ => rfl⟩
  · refine ⟨rfl, rfl, fun i hi => Function.update_of_ne ?_ _ _⟩
    rintro rfl
    have hlt : regno.toNat < 16 := UInt32.lt_iff_toNat_lt.mp (UInt32.not_le.mp hreg)
    omega

end Run

/-- A `cfb_fillrect` that sets one pixel after the other. -/
def plainCfb : Cfb where
  fillrect := fun geo palette r m off =>
    let px := off / 3 % geo.width
    let py := off / 3 / geo.width
    if py < geo.vh ∧ r.dx.toNat ≤ px ∧ px < r.dx.toNat + r.width.toNat ∧ r.dy.toNat ≤ py ∧
        py < r.dy.toNat + r.height.toNat then
      r.pixel geo palette m px py (off % 3)
    else m off
  imageblit := fun _ _ _ m => m

theorem plainCfb_plain (geo : Geometry) : plainCfb.Plain geo := by
  intro palette r m _
  constructor
  · intro px py k hx hy hk hp
    obtain ⟨hcol, hrow, hbyte⟩ := @Raster.byte_coords (screen geo) px py k hx hk
    change _ % geo.width = px at hcol
    change _ / geo.width = py at hrow
    simp only [plainCfb, hcol, hrow, hbyte]
    exact if_pos ⟨hy, hp⟩
  · intro off hoff
    refine if_neg ?_
    rintro ⟨hy, hp⟩
    exact hoff ⟨off / 3 % geo.width, off / 3 / geo.width, off % 3, Nat.mod_lt _ geo.width_pos, hy,
      Nat.mod_lt _ (by omega),
      hp, ((screen geo).byte_of_coords off).symm⟩

/-- In every run of calls with rectangles inside the virtual screen, mixed with steps of the damage worker and of
other callers, each call draws what plain pixel drawing draws: the table never shows the colours of an earlier
call, whatever the widths and the changes of the palette in between. -/
theorem drawing_plain (geo : Geometry) (cfb : Cfb) (hcfb : cfb.Plain geo) (virt : ℕ → UInt8) (palette : ℕ → UInt32)
    (σ : State) (hσ : Reach (fun s op => some (step geo cfb s op)) (fun _ op => op.InScreen geo)
      (.init virt palette) σ)
    (op : Op) (hop : op.InScreen geo) : op.Plain geo σ (step geo cfb σ op) := by
  have hinv : Inv geo σ := by
    refine hσ.invariant (inv_init geo virt palette) ?_
    intro s e s' hs he heq
    obtain rfl := Option.some.inj heq
    exact hs.step he
  cases op with
  | imageblit oops img => exact hinv.imageblit oops hop
  | fillrect oops r => exact hinv.fillrect hcfb oops hop
  | setcolreg var regno red green blue => exact setcolreg_plain
  | background l => exact ⟨rfl, rfl⟩

/-- A glyph of 5 by 2 pixels in colour 1 on colour 0. -/
def smallGlyph : FbImage := ⟨1, 0, 5, 2, 1, 0, 1, fun _ => 0xa0⟩

/-- The glyph is drawn, colour 1 becomes red, and the glyph is drawn again. -/
theorem smallGlyph_red : ∃ σ, Reach (fun s op => some (step tiny plainCfb s op)) (fun _ op => op.InScreen tiny)
    (.init (fun _ => 0) fun _ => 0) σ ∧
    (step tiny plainCfb σ (.imageblit false smallGlyph)).virt ((screen tiny).byte 1 0 2) = 0xff ∧
    (step tiny plainCfb σ (.imageblit false smallGlyph)).virt ((screen tiny).byte 2 0 2) = 0 := by
  have hin : (Op.imageblit false smallGlyph).InScreen tiny := by
    show (area 1 0 5 2).InRange tiny
    decide
  have hstart : Reach (fun s op => some (step tiny plainCfb s op)) (fun _ op => op.InScreen tiny)
      (.init (fun _ => 0) fun _ => 0) (.init (fun _ => 0) fun _ => 0) := .start
  have hreach := Reach.next (hstart.next hin rfl)
    (show Op.InScreen tiny (.setcolreg hd720Var 1 0xffff 0 0) from trivial) rfl
  have hplain :=
    drawing_plain tiny plainCfb (plainCfb_plain tiny) _ _ _ hreach (.imageblit false smallGlyph) hin rfl
  refine ⟨_, hreach, ?_, ?_⟩
  · rw [hplain.drawn.inside 1 0 2 (by decide) (by decide) (by decide) ⟨by decide, by decide, by decide, by decide⟩]
    decide
  · rw [hplain.drawn.inside 2 0 2 (by decide) (by decide) (by decide) ⟨by decide, by decide, by decide, by decide⟩]
    decide

end Soceteer.Dp.Draw
