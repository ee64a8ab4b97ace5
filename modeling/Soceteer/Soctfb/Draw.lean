import Mathlib.Data.BitVec
import Mathlib.Algebra.Group.Nat.Defs
import Mathlib.Tactic.Ring
import Soceteer.Lib.Cint
import Soceteer.Lib.Raster

/-!
# Soceteer.Soctfb.Draw — the clipped drawing calls of the bare-metal framebuffer

`soctfb.c` clamps a box to the frame by adding its corner and its size as `unsigned` values, and then runs over the
rows and columns of what is left.

* `Frame`, `pxAt`, `clip`, `fill`, `rect`, `blitGray`, `blitGrayScaled`: the source, as lists of loads and stores.
* `Clipped`: a call draws exactly what was asked for, over unbounded integers, and stays inside its buffers.
* `box_stores`, `box_first`, `box_rows`, `box_columns`: what one clipped box stores.
* `BoxFits`, `RectFits`, `ScaledFits`: when the 32-bit sums and products do no harm.
* `drawing_clipped_iff`: a call is clipped exactly under these conditions.
-/

namespace Soceteer.Soctfb

open Lib

variable {a : Xlen}

/-! ## The source -/

/-- `soctfb`; the pixels are one object, and no object is larger than `PTRDIFF_MAX`. -/
structure Frame (a : Xlen) where
  width : BitVec 32
  height : BitVec 32
  room : 3 * (width.toNat * height.toNat) < 2 ^ (a.bits - 1)

/-- A grayscale image of `w` times `h` bytes. -/
structure Gray (a : Xlen) (w h : BitVec 32) where
  byte : ℕ → UInt8
  room : w.toNat * h.toNat < 2 ^ a.bits

section Source

variable (fb : Frame a)

/-- `px_at`: the offset of a pixel, as a `size_t`. -/
def pxAt (x y : BitVec 32) : ℕ := (y.toNat * fb.width.toNat + x.toNat) * 3 % 2 ^ a.bits

/-- Byte `k` of a colour: blue, green, red. -/
def rgbByte (rgb : BitVec 32) (k : ℕ) : UInt8 := UInt8.ofBitVec ((rgb >>> (8 * k)).setWidth 8)

def pxSet (p : ℕ) (rgb : BitVec 32) : List Access :=
  [.store p (rgbByte rgb 0), .store (p + 1) (rgbByte rgb 1), .store (p + 2) (rgbByte rgb 2)]

/-- One side of a box, in a frame of `size` columns or rows. -/
def clamp (size x w : BitVec 32) : BitVec 32 := if x + w > size then size - x else w

/-- The clamped size, or nothing. -/
def clip (x y w h : BitVec 32) : Option (BitVec 32 × BitVec 32) :=
  if x ≥ fb.width ∨ y ≥ fb.height then none
  else if clamp fb.width x w ≠ 0 ∧ clamp fb.height y h ≠ 0 then some (clamp fb.width x w, clamp fb.height y h)
  else none

/-- The loops over the rows and columns of a clamped box; `p` is the pixel in column `c` of row `r`. -/
def rows (x y w h : BitVec 32) (body : ℕ → ℕ → ℕ → List Access) : List Access :=
  (List.range h.toNat).flatMap fun r =>
    (List.range w.toNat).flatMap fun c => body r c (pxAt fb x (y + BitVec.ofNat 32 r) + 3 * c)

/-- A clamped box. -/
def box (x y w h : BitVec 32) (body : ℕ → ℕ → ℕ → List Access) : List Access :=
  match clip fb x y w h with
  | none => []
  | some (w', h') => rows fb x y w' h' body

/-- `soctfb_fill` -/
def fill (x y w h rgb : BitVec 32) : List Access := box fb x y w h fun _ _ p => pxSet p rgb

/-- `soctfb_rect` -/
def rect (x y w h thickness rgb : BitVec 32) : List Access :=
  if thickness * 2 ≥ w ∨ thickness * 2 ≥ h then fill fb x y w h rgb
  else
    fill fb x y w thickness rgb ++ fill fb x (y + h - thickness) w thickness rgb ++
      fill fb x (y + thickness) thickness (h - 2 * thickness) rgb ++
      fill fb (x + w - thickness) (y + thickness) thickness (h - 2 * thickness) rgb

/-- `p[0] = p[1] = p[2] = src[i]` -/
def grayPx (byte : ℕ → UInt8) (i p : ℕ) : List Access :=
  [.load i, .store (p + 2) (byte i), .store (p + 1) (byte i), .store p (byte i)]

/-- `soctfb_blit_gray` -/
def blitGray (x y : BitVec 32) {w h : BitVec 32} (gray : Gray a w h) : List Access :=
  box fb x y w h fun r c p => grayPx gray.byte (r * w.toNat % 2 ^ a.bits + c) p

/-- `soctfb_blit_gray_scaled` -/
def blitGrayScaled (x y : BitVec 32) {w h : BitVec 32} (gray : Gray a w h) (scale : BitVec 32) : List Access :=
  if scale = 0 then []
  else
    box fb x y (w * scale) (h * scale) fun r c p =>
      grayPx gray.byte (r / scale.toNat * w.toNat % 2 ^ a.bits + c / scale.toNat) p

end Source

/-! ## What is asked for -/

def Frame.raster (fb : Frame a) : Raster := ⟨fb.width.toNat, fb.height.toNat⟩

@[simp] theorem Frame.raster_width (fb : Frame a) : fb.raster.width = fb.width.toNat := rfl

@[simp] theorem Frame.raster_height (fb : Frame a) : fb.raster.height = fb.height.toNat := rfl

/-- The points of a box. -/
def InBox (x y w h px py : ℕ) : Prop := x ≤ px ∧ px < x + w ∧ y ≤ py ∧ py < y + h

/-- The points of a box within `t` of its border. -/
def InBorder (x y w h t px py : ℕ) : Prop :=
  InBox x y w h px py ∧ (px < x + t ∨ py < y + t ∨ x + w ≤ px + t ∨ y + h ≤ py + t)

/-- The call sets the pixels of the region to `value`, changes no other byte, stores only to the pixel buffer and
loads only the first `len` bytes of its source. -/
structure Clipped (fb : Frame a) (region : ℕ → ℕ → Prop) (value : ℕ → ℕ → ℕ → UInt8) (len : ℕ)
    (acc : List Access) :
    Prop where
  drawn : ∀ m, Drawn fb.raster region value m (exec m acc)
  stores : ∀ off v, Access.store off v ∈ acc → off < fb.raster.size
  loads : ∀ i, Access.load i ∈ acc → i < len

/-! ## One box -/

section Clamp

variable {size x w : BitVec 32}

theorem toNat_clamp (hx : x < size) (h : x.toNat + w.toNat < 2 ^ 32) :
    (clamp size x w).toNat = min w.toNat (size.toNat - x.toNat) := by
  have hsize := size.isLt
  rw [BitVec.lt_def] at hx
  have hsum : (x + w).toNat = x.toNat + w.toNat := BitVec.toNat_add_of_lt h
  unfold clamp
  split_ifs with hgt
  · rw [gt_iff_lt, BitVec.lt_def, hsum] at hgt
    rw [BitVec.toNat_sub_of_le (BitVec.le_def.mpr hx.le)]
    omega
  · rw [gt_iff_lt, BitVec.lt_def, hsum] at hgt
    omega

/-- A sum that wraps is smaller than `x`, and nothing is clamped. -/
theorem clamp_of_wraps (hx : x < size) (h : 2 ^ 32 ≤ x.toNat + w.toNat) : clamp size x w = w := by
  have hw := w.isLt
  rw [BitVec.lt_def] at hx
  refine if_neg ?_
  rw [gt_iff_lt, BitVec.lt_def, BitVec.toNat_add]
  omega

theorem clamp_zero (hx : x < size) : clamp size x 0 = 0 := by
  refine if_neg ?_
  rw [show x + 0 = x from BitVec.add_zero x]
  exact BitVec.not_lt.mpr (BitVec.le_of_lt hx)

theorem clamp_ne_zero (hx : x < size) (hw : w ≠ 0) : clamp size x w ≠ 0 := by
  rcases Nat.lt_or_ge (x.toNat + w.toNat) (2 ^ 32) with h | h
  · intro hz
    have hmin := toNat_clamp hx h
    rw [hz, show (0 : BitVec 32).toNat = 0 from rfl] at hmin
    rw [BitVec.lt_def] at hx
    have hpos : w.toNat ≠ 0 := fun h0 => hw (BitVec.eq_of_toNat_eq h0)
    omega
  · rwa [clamp_of_wraps hx h]

/-- The row or column `size` behind the frame is reached when the sum wraps. -/
theorem lt_clamp {j : ℕ} (hx : x < size) (hj : j < w.toNat)
    (h : x.toNat + j < size.toNat ∨ 2 ^ 32 ≤ x.toNat + w.toNat) : j < (clamp size x w).toNat := by
  rcases Nat.lt_or_ge (x.toNat + w.toNat) (2 ^ 32) with hs | hs
  · rw [toNat_clamp hx hs]
    omega
  · rwa [clamp_of_wraps hx hs]

end Clamp

section Box

variable {fb : Frame a} {x y w h : BitVec 32} {body : ℕ → ℕ → ℕ → List Access}

theorem box_eq_nil (hout : fb.width ≤ x ∨ fb.height ≤ y ∨ w = 0 ∨ h = 0) : box fb x y w h body = [] := by
  have hclip : clip fb x y w h = none := by
    unfold clip
    split_ifs with h1 h2
    · rfl
    · rw [not_or, ge_iff_le, ge_iff_le, BitVec.not_le, BitVec.not_le] at h1
      rcases hout with hx | hy | rfl | rfl
      · exact absurd h1.1 (BitVec.not_lt.mpr hx)
      · exact absurd h1.2 (BitVec.not_lt.mpr hy)
      · exact absurd (clamp_zero h1.1) h2.1
      · exact absurd (clamp_zero h1.2) h2.2
    · rfl
  rw [box, hclip]

theorem box_eq_rows (hx : x < fb.width) (hy : y < fb.height) (hw : w ≠ 0) (hh : h ≠ 0) :
    box fb x y w h body = rows fb x y (clamp fb.width x w) (clamp fb.height y h) body := by
  have hin : ¬ (x ≥ fb.width ∨ y ≥ fb.height) := by
    rw [not_or]
    exact ⟨BitVec.not_le.mpr hx, BitVec.not_le.mpr hy⟩
  have hclip : clip fb x y w h = some (clamp fb.width x w, clamp fb.height y h) := by
    rw [clip, if_neg hin, if_pos ⟨clamp_ne_zero hx hw, clamp_ne_zero hy hh⟩]
  rw [box, hclip]

theorem mem_rows {acc : Access} : acc ∈ rows fb x y w h body ↔
    ∃ r < h.toNat, ∃ c < w.toNat, acc ∈ body r c (pxAt fb x (y + BitVec.ofNat 32 r) + 3 * c) := by
  simp [rows]

/-- The rows of the frame, and the one behind it, start where they should. -/
theorem pxAt_row {r : ℕ} (hx : x < fb.width) (hy : y < fb.height) (hr : y.toNat + r ≤ fb.height.toNat) :
    pxAt fb x (y + BitVec.ofNat 32 r) = fb.raster.byte x.toNat (y.toNat + r) 0 := by
  have hH := fb.height.isLt
  have hroom := fb.room
  have hbits : 2 ^ (a.bits - 1) * 2 = 2 ^ a.bits := Nat.two_pow_pred_mul_two a.bits_pos
  rw [BitVec.lt_def] at hx hy
  have hrow : (y + BitVec.ofNat 32 r).toNat = y.toNat + r := by
    rw [BitVec.toNat_add, BitVec.toNat_ofNat, Nat.mod_eq_of_lt (a := r) (by omega), Nat.mod_eq_of_lt (by omega)]
  have hle : (y.toNat + r) * fb.width.toNat ≤ fb.width.toNat * fb.height.toNat := by
    rw [Nat.mul_comm]
    exact Nat.mul_le_mul_left _ hr
  have hone : fb.width.toNat ≤ fb.width.toNat * fb.height.toNat := Nat.le_mul_of_pos_right _ (by omega)
  unfold pxAt Raster.byte Frame.raster
  rw [hrow, Nat.mod_eq_of_lt (by omega)]
  ring

/-- What the loop body stores to the pixel at `p`. -/
def Paints (body : ℕ → ℕ → ℕ → List Access) (val : ℕ → ℕ → ℕ → UInt8) : Prop :=
  ∀ r c p off v, Access.store off v ∈ body r c p ↔ ∃ k < 3, off = p + k ∧ v = val r c k

variable {val : ℕ → ℕ → ℕ → UInt8}

/-- Without wrap-around a box stores to its part of the frame. -/
theorem box_stores (hbody : Paints body val) (hx : x < fb.width) (hy : y < fb.height) (hw : w ≠ 0) (hh : h ≠ 0)
    (hxw : x.toNat + w.toNat < 2 ^ 32) (hyh : y.toNat + h.toNat < 2 ^ 32) (off : ℕ) (v : UInt8) :
    Access.store off v ∈ box fb x y w h body ↔ ∃ px py k, px < fb.raster.width ∧ py < fb.raster.height ∧ k < 3 ∧
      InBox x.toNat y.toNat w.toNat h.toNat px py ∧ off = fb.raster.byte px py k ∧
      v = val (py - y.toNat) (px - x.toNat) k := by
  rw [box_eq_rows hx hy hw hh, mem_rows, toNat_clamp hx hxw, toNat_clamp hy hyh]
  have hxn := BitVec.lt_def.mp hx
  have hyn := BitVec.lt_def.mp hy
  simp only [Frame.raster_width, Frame.raster_height, InBox]
  constructor
  · rintro ⟨r, hr, c, hc, hmem⟩
    rw [pxAt_row hx hy (by omega), hbody] at hmem
    obtain ⟨k, hk, rfl, rfl⟩ := hmem
    refine ⟨x.toNat + c, y.toNat + r, k, by omega, by omega, hk, by omega, fb.raster.byte_add _ _ _ _, ?_⟩
    rw [Nat.add_sub_cancel_left, Nat.add_sub_cancel_left]
  · rintro ⟨px, py, k, hpx, hpy, hk, ⟨hx1, hx2, hy1, hy2⟩, rfl, rfl⟩
    refine ⟨py - y.toNat, by omega, px - x.toNat, by omega, ?_⟩
    rw [pxAt_row hx hy (by omega), hbody]
    refine ⟨k, hk, ?_, rfl⟩
    rw [fb.raster.byte_add, Nat.add_sub_cancel' hx1, Nat.add_sub_cancel' hy1]

/-- A box stores to its first column, and behind the last row of the frame if the sum of the rows wraps. -/
theorem box_column {j : ℕ} (hbody : Paints body val) (hx : x < fb.width) (hy : y < fb.height) (hw : w ≠ 0)
    (hj : j < h.toNat)
    (hrow : y.toNat + j < fb.height.toNat ∨ y.toNat + j = fb.height.toNat ∧ 2 ^ 32 ≤ y.toNat + h.toNat) :
    ∃ v, Access.store (fb.raster.byte x.toNat (y.toNat + j) 0) v ∈ box fb x y w h body := by
  have hh : h ≠ 0 := by
    rintro rfl
    exact absurd hj (Nat.not_lt_zero j)
  have hclamp : 0 < (clamp fb.width x w).toNat :=
    Nat.pos_of_ne_zero fun h0 => clamp_ne_zero hx hw (BitVec.eq_of_toNat_eq h0)
  refine ⟨val j 0 0, ?_⟩
  rw [box_eq_rows hx hy hw hh, mem_rows]
  refine ⟨j, lt_clamp hy hj (by omega), 0, hclamp, ?_⟩
  rw [pxAt_row hx hy (by omega), hbody]
  exact ⟨0, by omega, rfl, rfl⟩

/-- If the sum of the columns wraps, the first row runs over its end. -/
theorem box_row (hbody : Paints body val) (hx : x < fb.width) (hy : y < fb.height) (hh : h ≠ 0)
    (hwrap : 2 ^ 32 ≤ x.toNat + w.toNat) :
    ∃ v, Access.store (fb.raster.byte 0 (y.toNat + 1) 0) v ∈ box fb x y w h body := by
  have hW := fb.width.isLt
  have hX := x.isLt
  have hxn := BitVec.lt_def.mp hx
  have hyn := BitVec.lt_def.mp hy
  have hw : w ≠ 0 := by
    rintro rfl
    exact absurd hwrap (by simpa using hX)
  have hclamp : 0 < (clamp fb.height y h).toNat :=
    Nat.pos_of_ne_zero fun h0 => clamp_ne_zero hy hh (BitVec.eq_of_toNat_eq h0)
  refine ⟨val 0 (fb.width.toNat - x.toNat) 0, ?_⟩
  rw [box_eq_rows hx hy hw hh, mem_rows, clamp_of_wraps hx hwrap]
  refine ⟨0, hclamp, fb.width.toNat - x.toNat, by omega, ?_⟩
  rw [pxAt_row hx hy (by omega), hbody]
  refine ⟨0, by omega, ?_, rfl⟩
  rw [fb.raster.byte_add, Nat.add_sub_cancel' hxn.le, ← fb.raster.byte_width]
  rfl

theorem clamp_le {size x w : BitVec 32} (hx : x < size) : (clamp size x w).toNat ≤ w.toNat := by
  rcases Nat.lt_or_ge (x.toNat + w.toNat) (2 ^ 32) with h | h
  · rw [toNat_clamp hx h]
    exact Nat.min_le_left _ _
  · rw [clamp_of_wraps hx h]

/-- A box is never larger than asked for. -/
theorem box_body {acc : Access} (hacc : acc ∈ box fb x y w h body) :
    ∃ r < h.toNat, ∃ c < w.toNat, ∃ p, acc ∈ body r c p := by
  by_cases hout : fb.width ≤ x ∨ fb.height ≤ y ∨ w = 0 ∨ h = 0
  · rw [box_eq_nil hout] at hacc
    exact absurd hacc List.not_mem_nil
  · simp only [not_or, BitVec.not_le] at hout
    obtain ⟨hx, hy, hw, hh⟩ := hout
    rw [box_eq_rows hx hy hw hh, mem_rows] at hacc
    obtain ⟨r, hr, c, hc, hmem⟩ := hacc
    exact ⟨r, hr.trans_le (clamp_le hy), c, hc.trans_le (clamp_le hx), _, hmem⟩

end Box

/-! ## A clipped call -/

section Clipped

variable {fb : Frame a} {x y w h : BitVec 32} {body : ℕ → ℕ → ℕ → List Access} {val value : ℕ → ℕ → ℕ → UInt8}
  {region : ℕ → ℕ → Prop} {len : ℕ} {acc : List Access}

theorem clipped_of_stores
    (hstores : ∀ off v, Access.store off v ∈ acc ↔ ∃ px py k, px < fb.raster.width ∧
      py < fb.raster.height ∧ k < 3 ∧
      region px py ∧ off = fb.raster.byte px py k ∧ v = value px py k)
    (hloads : ∀ i, Access.load i ∈ acc → i < len) : Clipped fb region value len acc where
  drawn := fun m => drawn_of_stores m hstores
  stores := by
    intro off v hv
    obtain ⟨px, py, k, hx, hy, hk, -, rfl, -⟩ := (hstores off v).mp hv
    exact Raster.byte_lt_size hx hy hk
  loads := hloads

/-- Nothing is drawn where nothing is asked for. -/
theorem clipped_nil (hempty : ∀ px py, px < fb.width.toNat → py < fb.height.toNat → ¬ region px py) :
    Clipped fb region value len [] := by
  refine clipped_of_stores (fun off v => ?_) (fun i hi => absurd hi List.not_mem_nil)
  refine ⟨fun hv => absurd hv List.not_mem_nil, ?_⟩
  rintro ⟨px, py, k, hx, hy, -, hreg, -⟩
  exact absurd hreg (hempty px py hx hy)

/-- The first column of a box that is drawn belongs to the region. -/
theorem Clipped.column (hc : Clipped fb region value len acc) (hbody : Paints body val)
    (hsub : box fb x y w h body ⊆ acc) (hx : x < fb.width) (hy : y < fb.height) (hw : w ≠ 0) {j : ℕ}
    (hj : j < h.toNat)
    (hrow : y.toNat + j < fb.height.toNat) : region x.toNat (y.toNat + j) := by
  obtain ⟨v, hv⟩ := box_column hbody hx hy hw hj (.inl hrow)
  exact ((Raster.covers_byte (BitVec.lt_def.mp hx) (by omega)).mp (covers_of_store hc.drawn (hsub hv))).2

/-- The sum of the rows of a box that is drawn does not wrap. -/
theorem Clipped.rows_lt (hc : Clipped fb region value len acc) (hbody : Paints body val)
    (hsub : box fb x y w h body ⊆ acc) (hx : x < fb.width) (hy : y < fb.height) (hw : w ≠ 0) :
    y.toNat + h.toNat < 2 ^ 32 := by
  by_contra hwrap
  have hH := fb.height.isLt
  have hyn := BitVec.lt_def.mp hy
  obtain ⟨v, hv⟩ := box_column hbody hx hy hw (show fb.height.toNat - y.toNat < h.toNat by omega) (by omega)
  rw [Nat.add_sub_cancel' hyn.le] at hv
  have hcov := (Raster.covers_byte (BitVec.lt_def.mp hx) (by omega)).mp (covers_of_store hc.drawn (hsub hv))
  exact absurd hcov.1 (lt_irrefl _)

/-- If the sum of the columns wraps, the region has a pixel at the left edge. -/
theorem Clipped.columns (hc : Clipped fb region value len acc) (hbody : Paints body val)
    (hsub : box fb x y w h body ⊆ acc) (hx : x < fb.width) (hy : y < fb.height) (hh : h ≠ 0)
    (hwrap : 2 ^ 32 ≤ x.toNat + w.toNat) : region 0 (y.toNat + 1) := by
  have hxn := BitVec.lt_def.mp hx
  obtain ⟨v, hv⟩ := box_row hbody hx hy hh hwrap
  exact ((Raster.covers_byte (show 0 < fb.raster.width by simp; omega) (by omega)).mp
    (covers_of_store hc.drawn (hsub hv))).2

theorem Clipped.append {region' : ℕ → ℕ → Prop} {acc' : List Access} (hc : Clipped fb region value len acc)
    (hc' : Clipped fb region' value len acc') :
    Clipped fb (fun px py => region px py ∨ region' px py) value len (acc ++ acc') where
  drawn := by
    intro m
    rw [exec_append]
    exact (hc.drawn m).trans (hc'.drawn _)
  stores := fun off v hv => (List.mem_append.mp hv).elim (hc.stores off v) (hc'.stores off v)
  loads := fun i hi => (List.mem_append.mp hi).elim (hc.loads i) (hc'.loads i)

/-- Only the region inside the frame and the values there matter. -/
theorem Clipped.congr {region' : ℕ → ℕ → Prop} {value' : ℕ → ℕ → ℕ → UInt8}
    (hregion : ∀ px py, px < fb.width.toNat → py < fb.height.toNat → (region px py ↔ region' px py))
    (hvalue : ∀ px py k, region px py → value px py k = value' px py k) (hc : Clipped fb region value len acc) :
    Clipped fb region' value' len acc where
  drawn := fun m => (hc.drawn m).congr hregion fun px py k _ _ _ => hvalue px py k
  stores := hc.stores
  loads := hc.loads

end Clipped

/-! ## The conditions -/

/-- One side of a box of `n` pixels: the sum does not wrap, and neither does `n` unless the frame ends before. -/
def SideFits (size x n : ℕ) : Prop := x + n % 2 ^ 32 < 2 ^ 32 ∧ (n < 2 ^ 32 ∨ size ≤ x + n % 2 ^ 32)

/-- A box of `n` times `m` pixels with its corner outside the frame, without pixels, or with sides that fit. -/
def BoxFits (fb : Frame a) (x y : BitVec 32) (n m : ℕ) : Prop :=
  fb.width ≤ x ∨ fb.height ≤ y ∨ n = 0 ∨ m = 0 ∨
    (SideFits fb.width.toNat x.toNat n ∧ SideFits fb.height.toNat y.toNat m)

section BoxFits

variable {fb : Frame a} {x y w h : BitVec 32} {body : ℕ → ℕ → ℕ → List Access}
    {val : ℕ → ℕ → ℕ → UInt8} {n m len : ℕ}

/-- A box with its corner outside the frame or without pixels. -/
theorem box_clipped_outside (hw : w.toNat = n % 2 ^ 32) (hh : h.toNat = m % 2 ^ 32)
    (hout : fb.width ≤ x ∨ fb.height ≤ y ∨ n = 0 ∨ m = 0) (value : ℕ → ℕ → ℕ → UInt8) :
    Clipped fb (InBox x.toNat y.toNat n m) value len (box fb x y w h body) := by
  have hzero : ∀ v : BitVec 32, v.toNat = 0 → v = 0 := fun v hv => BitVec.eq_of_toNat_eq hv
  rw [box_eq_nil]
  · refine clipped_nil fun px py hpx hpy hin => ?_
    simp only [InBox, BitVec.le_def] at hin hout
    omega
  · rcases hout with h1 | h1 | rfl | rfl
    · exact .inl h1
    · exact .inr (.inl h1)
    · exact .inr (.inr (.inl (hzero w hw)))
    · exact .inr (.inr (.inr (hzero h hh)))

/-- The sides of a box that is drawn as asked for. -/
theorem sidesFit_of_clipped {value : ℕ → ℕ → ℕ → UInt8} (hbody : Paints body val) (hw : w.toNat = n % 2 ^ 32)
    (hh : h.toNat = m % 2 ^ 32) (hx : x < fb.width) (hy : y < fb.height) (hn : n ≠ 0) (hm : m ≠ 0)
    (hc : Clipped fb (InBox x.toNat y.toNat n m) value len (box fb x y w h body)) :
    SideFits fb.width.toNat x.toNat n ∧ SideFits fb.height.toNat y.toNat m := by
  have hxn := BitVec.lt_def.mp hx
  have hyn := BitVec.lt_def.mp hy
  -- the corner is asked for, so the computed size is not zero
  obtain ⟨v, hv⟩ := exists_store hc.drawn (k := 0) hxn hyn (by omega)
    (show InBox x.toNat y.toNat n m x.toNat y.toNat by unfold InBox; omega)
  have hw0 : w ≠ 0 := by
    intro h0
    rw [box_eq_nil (.inr (.inr (.inl h0)))] at hv
    exact absurd hv List.not_mem_nil
  have hh0 : h ≠ 0 := by
    intro h0
    rw [box_eq_nil (.inr (.inr (.inr h0)))] at hv
    exact absurd hv List.not_mem_nil
  have hrows := hc.rows_lt hbody (List.Subset.refl _) hx hy hw0
  have hcols : x.toNat + w.toNat < 2 ^ 32 := by
    by_contra hwrap
    have hleft := hc.columns hbody (List.Subset.refl _) hx hy hh0 (by omega)
    have := w.isLt
    unfold InBox at hleft
    omega
  have hstored : ∀ px py, px < fb.width.toNat → py < fb.height.toNat → InBox x.toNat y.toNat n m px py →
      InBox x.toNat y.toNat w.toNat h.toNat px py := by
    intro px py hpx hpy hin
    obtain ⟨u, hu⟩ := exists_store hc.drawn (k := 0) hpx hpy (by omega) hin
    obtain ⟨px', py', k, hpx', -, hk, hin', heq, -⟩ := (box_stores hbody hx hy hw0 hh0 hcols hrows _ _).mp hu
    obtain ⟨rfl, rfl, rfl⟩ := Raster.byte_inj hpx hpx' (by omega) hk heq
    exact hin'
  unfold InBox at hstored
  refine ⟨⟨by omega, ?_⟩, ⟨by omega, ?_⟩⟩
  · by_contra hlost
    have := hstored (x.toNat + w.toNat) y.toNat (by omega) hyn (by omega)
    omega
  · by_contra hlost
    have := hstored x.toNat (y.toNat + h.toNat) hxn (by omega) (by omega)
    omega

/-- A box with sides that fit. -/
theorem box_clipped_of_sides (hbody : Paints body val) (hw : w.toNat = n % 2 ^ 32) (hh : h.toNat = m % 2 ^ 32)
    (hx : x < fb.width) (hy : y < fb.height) (hn : n ≠ 0) (hm : m ≠ 0)
    (hloads : ∀ r < h.toNat, ∀ c < w.toNat, ∀ p i, Access.load i ∈ body r c p → i < len)
    (hcols : SideFits fb.width.toNat x.toNat n) (hrows : SideFits fb.height.toNat y.toNat m) :
    Clipped fb (InBox x.toNat y.toNat n m) (fun px py => val (py - y.toNat) (px - x.toNat)) len
      (box fb x y w h body) := by
  have hxn := BitVec.lt_def.mp hx
  have hyn := BitVec.lt_def.mp hy
  unfold SideFits at hcols hrows
  have hw0 : w ≠ 0 := by
    rintro rfl
    rw [show (0 : BitVec 32).toNat = 0 from rfl] at hw
    omega
  have hh0 : h ≠ 0 := by
    rintro rfl
    rw [show (0 : BitVec 32).toNat = 0 from rfl] at hh
    omega
  -- inside the frame the computed box is the one asked for
  have hbox : ∀ px py, px < fb.width.toNat → py < fb.height.toNat →
      (InBox x.toNat y.toNat w.toNat h.toNat px py ↔ InBox x.toNat y.toNat n m px py) := by
    intro px py hpx hpy
    unfold InBox
    omega
  refine clipped_of_stores (fun off v => ?_) ?_
  · rw [box_stores hbody hx hy hw0 hh0 (by omega) (by omega)]
    constructor
    · rintro ⟨px, py, k, hpx, hpy, hk, hin, heq⟩
      exact ⟨px, py, k, hpx, hpy, hk, (hbox px py hpx hpy).mp hin, heq⟩
    · rintro ⟨px, py, k, hpx, hpy, hk, hin, heq⟩
      exact ⟨px, py, k, hpx, hpy, hk, (hbox px py hpx hpy).mpr hin, heq⟩
  · intro i hi
    obtain ⟨r, hr, c, hc, p, hp⟩ := box_body hi
    exact hloads r hr c hc p i hp

/-- A box whose size was computed as a 32-bit value is drawn as asked for exactly if it fits. -/
theorem box_clipped_iff (hbody : Paints body val) (hw : w.toNat = n % 2 ^ 32) (hh : h.toNat = m % 2 ^ 32)
    (hloads : ∀ r < h.toNat, ∀ c < w.toNat, ∀ p i, Access.load i ∈ body r c p → i < len) :
    Clipped fb (InBox x.toNat y.toNat n m) (fun px py => val (py - y.toNat) (px - x.toNat)) len
      (box fb x y w h body) ↔ BoxFits fb x y n m := by
  by_cases hout : fb.width ≤ x ∨ fb.height ≤ y ∨ n = 0 ∨ m = 0
  · refine iff_of_true (box_clipped_outside hw hh hout _) ?_
    rcases hout with h1 | h1 | h1 | h1
    · exact .inl h1
    · exact .inr (.inl h1)
    · exact .inr (.inr (.inl h1))
    · exact .inr (.inr (.inr (.inl h1)))
  simp only [not_or, BitVec.not_le] at hout
  obtain ⟨hx, hy, hn, hm⟩ := hout
  constructor
  · exact fun hc => .inr (.inr (.inr (.inr (sidesFit_of_clipped hbody hw hh hx hy hn hm hc))))
  · rintro (h1 | h1 | h1 | h1 | ⟨hcols, hrows⟩)
    · exact absurd hx (BitVec.not_lt.mpr h1)
    · exact absurd hy (BitVec.not_lt.mpr h1)
    · exact absurd h1 hn
    · exact absurd h1 hm
    · exact box_clipped_of_sides hbody hw hh hx hy hn hm hloads hcols hrows

end BoxFits

/-! ## Fill and blits -/

section Calls

variable {fb : Frame a} {x y w h : BitVec 32}

theorem paints_pxSet (rgb : BitVec 32) : Paints (fun _ _ p => pxSet p rgb) fun _ _ k => rgbByte rgb k := by
  intro r c p off v
  simp only [pxSet, List.mem_cons, List.not_mem_nil, or_false, Access.store.injEq]
  constructor
  · rintro (⟨rfl, rfl⟩ | ⟨rfl, rfl⟩ | ⟨rfl, rfl⟩)
    · exact ⟨0, by omega, rfl, rfl⟩
    · exact ⟨1, by omega, rfl, rfl⟩
    · exact ⟨2, by omega, rfl, rfl⟩
  · rintro ⟨k, hk, rfl, rfl⟩
    obtain rfl | rfl | rfl : k = 0 ∨ k = 1 ∨ k = 2 := by omega
    · exact .inl ⟨rfl, rfl⟩
    · exact .inr (.inl ⟨rfl, rfl⟩)
    · exact .inr (.inr ⟨rfl, rfl⟩)

theorem paints_grayPx (byte : ℕ → UInt8) (index : ℕ → ℕ → ℕ) :
    Paints (fun r c p => grayPx byte (index r c) p) fun r c _ => byte (index r c) := by
  intro r c p off v
  simp only [grayPx, List.mem_cons, List.not_mem_nil, or_false, Access.store.injEq, reduceCtorEq, false_or]
  constructor
  · rintro (⟨rfl, rfl⟩ | ⟨rfl, rfl⟩ | ⟨rfl, rfl⟩)
    · exact ⟨2, by omega, rfl, rfl⟩
    · exact ⟨1, by omega, rfl, rfl⟩
    · exact ⟨0, by omega, rfl, rfl⟩
  · rintro ⟨k, hk, rfl, rfl⟩
    obtain rfl | rfl | rfl : k = 0 ∨ k = 1 ∨ k = 2 := by omega
    · exact .inr (.inr ⟨rfl, rfl⟩)
    · exact .inr (.inl ⟨rfl, rfl⟩)
    · exact .inl ⟨rfl, rfl⟩

theorem fill_clipped_iff (rgb : BitVec 32) :
    Clipped fb (InBox x.toNat y.toNat w.toNat h.toNat) (fun _ _ k => rgbByte rgb k) 0 (fill fb x y w h rgb) ↔
      BoxFits fb x y w.toNat h.toNat := by
  refine box_clipped_iff (paints_pxSet rgb) (Nat.mod_eq_of_lt w.isLt).symm (Nat.mod_eq_of_lt h.isLt).symm ?_
  intro r _ c _ p i hi
  simp [pxSet] at hi

/-- The bytes of row `r` start at `r * w`, also as a `size_t`. -/
theorem Gray.row_eq (gray : Gray a w h) {r : ℕ} (hr : r < h.toNat) (hw : 0 < w.toNat) :
    r * w.toNat % 2 ^ a.bits = r * w.toNat := by
  refine Nat.mod_eq_of_lt (lt_trans ?_ gray.room)
  rw [Nat.mul_comm]
  exact Nat.mul_lt_mul_of_pos_left hr hw

theorem Gray.index_lt (gray : Gray a w h) {r c : ℕ} (hr : r < h.toNat) (hc : c < w.toNat) :
    r * w.toNat % 2 ^ a.bits + c < w.toNat * h.toNat := by
  rw [gray.row_eq hr (by omega)]
  calc r * w.toNat + c < r * w.toNat + w.toNat := Nat.add_lt_add_left hc _
    _ = (r + 1) * w.toNat := (Nat.succ_mul _ _).symm
    _ ≤ w.toNat * h.toNat := by
      rw [Nat.mul_comm]
      exact Nat.mul_le_mul_left _ hr

/-- The byte that pixel `(px, py)` of a blit shows. -/
def Gray.at (gray : Gray a w h) (x y scale px py : ℕ) : UInt8 :=
  gray.byte ((py - y) / scale * w.toNat + (px - x) / scale)

theorem blitGrayScaled_clipped_iff (gray : Gray a w h) (scale : BitVec 32) :
    Clipped fb (InBox x.toNat y.toNat (w.toNat * scale.toNat) (h.toNat * scale.toNat))
      (fun px py _ => gray.at x.toNat y.toNat scale.toNat px py) (w.toNat * h.toNat)
      (blitGrayScaled fb x y gray scale) ↔ BoxFits fb x y (w.toNat * scale.toNat) (h.toNat * scale.toNat) := by
  by_cases hscale : scale = 0
  · subst hscale
    refine iff_of_true ?_ (.inr (.inr (.inl (Nat.mul_zero _))))
    rw [blitGrayScaled, if_pos rfl]
    refine clipped_nil fun px py _ _ hin => ?_
    simp only [InBox, show (0 : BitVec 32).toNat = 0 from rfl] at hin
    omega
  have hpos : 0 < scale.toNat := Nat.pos_of_ne_zero fun h0 => hscale (BitVec.eq_of_toNat_eq h0)
  have hrow : ∀ r (v : BitVec 32), r < v.toNat * scale.toNat → r / scale.toNat < v.toNat := by
    intro r v hr
    exact (Nat.div_lt_iff_lt_mul hpos).mpr hr
  have hside : ∀ r (v : BitVec 32), r < (v * scale).toNat → r / scale.toNat < v.toNat := by
    intro r v hr
    rw [BitVec.toNat_mul] at hr
    exact hrow r v (hr.trans_le (Nat.mod_le _ _))
  rw [blitGrayScaled, if_neg hscale, ← box_clipped_iff (paints_grayPx gray.byte _) (BitVec.toNat_mul w scale)
    (BitVec.toNat_mul h scale) ?_]
  · -- the `size_t` product of the source index does not wrap for the rows asked for
    have hval : ∀ px py (_ : ℕ), InBox x.toNat y.toNat (w.toNat * scale.toNat) (h.toNat * scale.toNat) px py →
        gray.at x.toNat y.toNat scale.toNat px py = gray.byte
          ((py - y.toNat) / scale.toNat * w.toNat % 2 ^ a.bits + (px - x.toNat) / scale.toNat) := by
      intro px py _ hin
      unfold InBox at hin
      have hr := hrow (py - y.toNat) h (by omega)
      have hc := hrow (px - x.toNat) w (by omega)
      rw [gray.row_eq hr (Nat.zero_lt_of_lt hc)]
      rfl
    have hsame : ∀ px py, px < fb.width.toNat → py < fb.height.toNat →
        (InBox x.toNat y.toNat (w.toNat * scale.toNat) (h.toNat * scale.toNat) px py ↔
          InBox x.toNat y.toNat (w.toNat * scale.toNat) (h.toNat * scale.toNat) px py) := fun _ _ _ _ => Iff.rfl
    exact ⟨fun hc => hc.congr hsame fun px py k hin => hval px py k hin,
      fun hc => hc.congr hsame fun px py k hin => (hval px py k hin).symm⟩
  · intro r hr c hc p i hi
    obtain rfl : i = r / scale.toNat * w.toNat % 2 ^ a.bits + c / scale.toNat := by simpa [grayPx] using hi
    exact gray.index_lt (hside r h hr) (hside c w hc)

/-- A plain blit is one that is scaled by one. -/
theorem blitGray_eq (gray : Gray a w h) : blitGray fb x y gray = blitGrayScaled fb x y gray 1 := by
  have hone : (1 : BitVec 32).toNat = 1 := rfl
  rw [blitGray, blitGrayScaled, if_neg (by decide), show w * 1 = w from BitVec.mul_one w,
    show h * 1 = h from BitVec.mul_one h]
  simp only [hone, Nat.div_one]

theorem blitGray_clipped_iff (gray : Gray a w h) :
    Clipped fb (InBox x.toNat y.toNat w.toNat h.toNat) (fun px py _ => gray.at x.toNat y.toNat 1 px py)
      (w.toNat * h.toNat) (blitGray fb x y gray) ↔ BoxFits fb x y w.toNat h.toNat := by
  have hscaled := @blitGrayScaled_clipped_iff _ fb x y w h gray 1
  rwa [show (1 : BitVec 32).toNat = 1 from rfl, Nat.mul_one, Nat.mul_one, ← blitGray_eq] at hscaled

end Calls

/-! ## Outlines -/

/-- The rows of an outline of less than half the box, with its corner in the frame: their sum does not wrap, or
only that of the lower edge does, behind the frame. -/
def ThinFits (size y h t : ℕ) : Prop := y + h < 2 ^ 32 ∨ size + t ≤ y + h ∧ y + h < 2 ^ 32 + t

/-- The rows of an outline whose double thickness wraps: the upper edge alone reaches the end of the frame. -/
def ThickFits (size y h t : ℕ) : Prop :=
  y + t < 2 ^ 32 ∧ (t ≤ h ∧ size ≤ y + t ∧ (size + t ≤ y + h ∨ y + h < 2 ^ 32) ∨ h < t ∧ size ≤ y + h ∧ y + h < t)

/-- An outline that fits.  With its corner outside the frame, none of the edges may wrap back into it. -/
def RectFits (fb : Frame a) (x y w h t : BitVec 32) : Prop :=
  t = 0 ∨
    if t * 2 ≥ w ∨ t * 2 ≥ h then BoxFits fb x y w.toNat h.toNat
    else if x < fb.width ∧ y < fb.height then
      x.toNat + w.toNat < 2 ^ 32 ∧
        if t.toNat < 2 ^ 31 then ThinFits fb.height.toNat y.toNat h.toNat t.toNat
        else ThickFits fb.height.toNat y.toNat h.toNat t.toNat
    else
      ¬ (x < fb.width ∧ y + h - t < fb.height) ∧ ¬ (x < fb.width ∧ y + t < fb.height) ∧
        ¬ (x + w - t < fb.width ∧ y + t < fb.height)

section Rect

variable {fb : Frame a} {x y w h t : BitVec 32}

theorem boxFits_iff {n m : BitVec 32} : BoxFits fb x y n.toNat m.toNat ↔
    fb.width.toNat ≤ x.toNat ∨ fb.height.toNat ≤ y.toNat ∨ n.toNat = 0 ∨ m.toNat = 0 ∨
      x.toNat + n.toNat < 2 ^ 32 ∧ y.toNat + m.toNat < 2 ^ 32 := by
  have hn := n.isLt
  have hm := m.isLt
  simp only [BoxFits, SideFits, BitVec.le_def, Nat.mod_eq_of_lt hn, Nat.mod_eq_of_lt hm, hn, hm, true_or, and_true]

/-- Four edges that fit and together are the outline. -/
theorem rect_clipped_of_edges (rgb : BitVec 32) (hthin : ¬ (t * 2 ≥ w ∨ t * 2 ≥ h))
    (htop : BoxFits fb x y w.toNat t.toNat) (hbottom : BoxFits fb x (y + h - t) w.toNat t.toNat)
    (hleft : BoxFits fb x (y + t) t.toNat (h - 2 * t).toNat)
    (hright : BoxFits fb (x + w - t) (y + t) t.toNat (h - 2 * t).toNat)
    (hregion : ∀ px py, px < fb.width.toNat → py < fb.height.toNat →
      (((InBox x.toNat y.toNat w.toNat t.toNat px py ∨ InBox x.toNat (y + h - t).toNat w.toNat t.toNat px py) ∨
          InBox x.toNat (y + t).toNat t.toNat (h - 2 * t).toNat px py) ∨
          InBox (x + w - t).toNat (y + t).toNat t.toNat (h - 2 * t).toNat px py ↔
        InBorder x.toNat y.toNat w.toNat h.toNat t.toNat px py)) :
    Clipped fb (InBorder x.toNat y.toNat w.toNat h.toNat t.toNat) (fun _ _ k => rgbByte rgb k) 0
      (rect fb x y w h t rgb) := by
  have hedges := ((((fill_clipped_iff rgb).mpr htop).append ((fill_clipped_iff rgb).mpr hbottom)).append
    ((fill_clipped_iff rgb).mpr hleft)).append ((fill_clipped_iff rgb).mpr hright)
  rw [rect, if_neg hthin]
  exact hedges.congr hregion fun _ _ _ _ => rfl

/-- A sum of two numbers less a third one, computed with 32 bits. -/
theorem toNat_add_sub (u v t : BitVec 32) :
    u.toNat + v.toNat < t.toNat ∧ (u + v - t).toNat + t.toNat = u.toNat + v.toNat + 2 ^ 32 ∨
      t.toNat ≤ u.toNat + v.toNat ∧ u.toNat + v.toNat < 2 ^ 32 + t.toNat ∧
        (u + v - t).toNat + t.toNat = u.toNat + v.toNat ∨
      2 ^ 32 + t.toNat ≤ u.toNat + v.toNat ∧ (u + v - t).toNat + t.toNat + 2 ^ 32 = u.toNat + v.toNat := by
  have hu := u.isLt
  have hv := v.isLt
  have ht := t.isLt
  rw [BitVec.toNat_sub, BitVec.toNat_add]
  omega

theorem toNat_add_cases (u v : BitVec 32) :
    u.toNat + v.toNat < 2 ^ 32 ∧ (u + v).toNat = u.toNat + v.toNat ∨
      2 ^ 32 ≤ u.toNat + v.toNat ∧ (u + v).toNat + 2 ^ 32 = u.toNat + v.toNat := by
  have hu := u.isLt
  have hv := v.isLt
  rw [BitVec.toNat_add]
  omega

/-- The height of the left and right edges, computed with 32 bits. -/
theorem edges_toNat (hthin : ¬ (t * 2 ≥ w ∨ t * 2 ≥ h)) :
    (t * 2).toNat < w.toNat ∧ (t * 2).toNat < h.toNat ∧ (h - 2 * t).toNat = h.toNat - (t * 2).toNat ∧
      (t.toNat < 2 ^ 31 ∧ (t * 2).toNat = 2 * t.toNat ∨ 2 ^ 31 ≤ t.toNat ∧ (t * 2).toNat + 2 ^ 32 =
        2 * t.toNat) := by
  have ht := t.isLt
  have hdouble : (t * 2).toNat = t.toNat * 2 % 2 ^ 32 := BitVec.toNat_mul t 2
  rw [not_or, ge_iff_le, ge_iff_le, BitVec.not_le, BitVec.not_le] at hthin
  refine ⟨BitVec.lt_def.mp hthin.1, BitVec.lt_def.mp hthin.2, ?_, ?_⟩
  · rw [BitVec.mul_comm 2 t, BitVec.toNat_sub_of_le (BitVec.le_of_lt hthin.2)]
  · omega

section Geometry

variable {x y w h t : ℕ}

/-- The four edges of an outline of at most half the box. -/
theorem edges_border (hw : 2 * t ≤ w) (hh : 2 * t ≤ h) (px py : ℕ) :
    ((InBox x y w t px py ∨ InBox x (y + h - t) w t px py) ∨ InBox x (y + t) t (h - 2 * t) px py) ∨
        InBox (x + w - t) (y + t) t (h - 2 * t) px py ↔ InBorder x y w h t px py := by
  obtain ⟨w, rfl⟩ := Nat.exists_eq_add_of_le hw
  obtain ⟨h, rfl⟩ := Nat.exists_eq_add_of_le hh
  have hyb : y + (2 * t + h) - t = y + t + h := by omega
  have hxr : x + (2 * t + w) - t = x + t + w := by omega
  rw [hyb, hxr, Nat.add_sub_cancel_left]
  unfold InBorder InBox
  constructor
  · rintro (((hbox | hbox) | hbox) | hbox)
    · omega
    · omega
    · omega
    · omega
  · intro hborder
    rcases Nat.lt_or_ge py (y + t) with hpy | hpy
    · exact .inl (.inl (.inl (by omega)))
    · rcases Nat.lt_or_ge py (y + t + h) with hpy' | hpy'
      · omega
      · exact .inl (.inl (.inr (by omega)))

/-- A box whose corner is behind the frame has no point in it. -/
theorem not_inBox_of_corner {width height n m px py : ℕ} (hcorner : ¬ (x < width ∧ y < height)) (hpx : px < width)
    (hpy : py < height) : ¬ InBox x y n m px py := by
  rintro ⟨hx, -, hy, -⟩
  exact hcorner ⟨Nat.lt_of_le_of_lt hx hpx, Nat.lt_of_le_of_lt hy hpy⟩

/-- An upper edge that is as high as the frame is all there is to see. -/
theorem top_border {size yb yl xr n m px py : ℕ} (hpy : py < size) (htop : size ≤ y + t)
    (hbox : size ≤ y + h ∨ t ≤ h) (hyb : size ≤ yb ∨ y ≤ yb ∧ yb + t ≤ y + h) (hyl : size ≤ yl) :
    ((InBox x y w t px py ∨ InBox x yb w t px py) ∨ InBox x yl n m px py) ∨ InBox xr yl n m px py ↔
      InBorder x y w h t px py := by
  unfold InBorder InBox
  omega

end Geometry

/-- The outline is drawn if it fits. -/
theorem rect_clipped_of_fits (rgb : BitVec 32) (hthin : ¬ (t * 2 ≥ w ∨ t * 2 ≥ h)) (hfit : RectFits fb x y w h t) :
    Clipped fb (InBorder x.toNat y.toNat w.toNat h.toNat t.toNat) (fun _ _ k => rgbByte rgb k) 0
      (rect fb x y w h t rgb) := by
  obtain ⟨hw, hh, hinner, hdouble⟩ := edges_toNat hthin
  have hyb := toNat_add_sub y h t
  have hyl := toNat_add_cases y t
  have hxr := toNat_add_sub x w t
  have hx := x.isLt
  have hhlt := h.isLt
  rw [RectFits, if_neg hthin] at hfit
  simp only [BitVec.lt_def] at hfit
  rcases hfit with rfl | hfit
  · have hzero : (0 : BitVec 32).toNat = 0 := rfl
    refine rect_clipped_of_edges rgb hthin ?_ ?_ ?_ ?_ ?_
    · exact .inr (.inr (.inr (.inl hzero)))
    · exact .inr (.inr (.inr (.inl hzero)))
    · exact .inr (.inr (.inl hzero))
    · exact .inr (.inr (.inl hzero))
    · intro px py _ _
      simp only [InBorder, InBox, hzero]
      clear hw hh hinner hyb hyl hxr hdouble
      omega
  split_ifs at hfit with hin hhalf
  · obtain ⟨hcols, hrows⟩ := hfit
    unfold ThinFits at hrows
    have hdouble' : (t * 2).toNat = 2 * t.toNat := by omega
    rw [hdouble'] at hw hh hinner
    have hyb' : (y + h - t).toNat = y.toNat + h.toNat - t.toNat := by omega
    have hyl' : (y + t).toNat = y.toNat + t.toNat := by omega
    have hxr' : (x + w - t).toNat = x.toNat + w.toNat - t.toNat := by omega
    clear hyb hyl hxr hdouble
    refine rect_clipped_of_edges rgb hthin ?_ ?_ ?_ ?_ ?_
    · exact boxFits_iff.mpr (by omega)
    · exact boxFits_iff.mpr (by omega)
    · exact boxFits_iff.mpr (by omega)
    · exact boxFits_iff.mpr (by omega)
    · intro px py _ _
      rw [hyb', hyl', hxr', hinner]
      exact edges_border hw.le hh.le px py
  · obtain ⟨hcols, ht32, hrows⟩ := hfit
    have hyl' : (y + t).toNat = y.toNat + t.toNat := by omega
    have hbottom : fb.height.toNat ≤ (y + h - t).toNat ∨
        y.toNat ≤ (y + h - t).toNat ∧ (y + h - t).toNat + t.toNat ≤ y.toNat + h.toNat ∧
          y.toNat + h.toNat < 2 ^ 32 := by
      omega
    clear hyb hyl hxr hw hh hinner hdouble
    refine rect_clipped_of_edges rgb hthin ?_ ?_ ?_ ?_ ?_
    · exact boxFits_iff.mpr (by omega)
    · exact boxFits_iff.mpr (by omega)
    · exact boxFits_iff.mpr (by omega)
    · exact boxFits_iff.mpr (by omega)
    · intro px py _ hpy
      exact top_border hpy (by omega) (by omega) (by omega) (by omega)
  · obtain ⟨hbottom, hleft, hright⟩ := hfit
    clear hyb hyl hxr hw hh hinner hdouble
    refine rect_clipped_of_edges rgb hthin ?_ ?_ ?_ ?_ ?_
    · exact boxFits_iff.mpr (by omega)
    · exact boxFits_iff.mpr (by omega)
    · exact boxFits_iff.mpr (by omega)
    · exact boxFits_iff.mpr (by omega)
    · intro px py hpx hpy
      refine iff_of_false ?_ fun hborder => not_inBox_of_corner hin hpx hpy hborder.1
      rintro (((hbox | hbox) | hbox) | hbox)
      · exact not_inBox_of_corner hin hpx hpy hbox
      · exact not_inBox_of_corner hbottom hpx hpy hbox
      · exact not_inBox_of_corner hleft hpx hpy hbox
      · exact not_inBox_of_corner hright hpx hpy hbox

theorem edges_subset (rgb : BitVec 32) (hthin : ¬ (t * 2 ≥ w ∨ t * 2 ≥ h)) :
    fill fb x y w t rgb ⊆ rect fb x y w h t rgb ∧ fill fb x (y + h - t) w t rgb ⊆ rect fb x y w h t rgb ∧
      fill fb x (y + t) t (h - 2 * t) rgb ⊆ rect fb x y w h t rgb ∧
      fill fb (x + w - t) (y + t) t (h - 2 * t) rgb ⊆ rect fb x y w h t rgb := by
  rw [rect, if_neg hthin]
  refine ⟨?_, ?_, ?_, ?_⟩ <;> intro z hz <;> simp only [List.mem_append] <;> tauto

/-- The rows of an outline that is drawn and whose double thickness wraps. -/
theorem thickFits_of_clipped {rgb : BitVec 32} (hthin : ¬ (t * 2 ≥ w ∨ t * 2 ≥ h))
    (hc : Clipped fb (InBorder x.toNat y.toNat w.toNat h.toNat t.toNat) (fun _ _ k => rgbByte rgb k) 0
      (rect fb x y w h t rgb)) (ht0 : t ≠ 0) (hhalf : ¬ t.toNat < 2 ^ 31) (hx :
        x < fb.width) (hy : y < fb.height) :
    ThickFits fb.height.toNat y.toNat h.toNat t.toNat := by
  obtain ⟨hw, hh, hinner, hdouble⟩ := edges_toNat hthin
  obtain ⟨htop, hbottom, hleft, -⟩ := @edges_subset _ fb x y w h t rgb hthin
  have hyb := toNat_add_sub y h t
  have hyl := toNat_add_cases y t
  have hhlt := h.isLt
  have hyn := BitVec.lt_def.mp hy
  have hpaint := paints_pxSet rgb
  have hw0 : w ≠ 0 := by
    rintro rfl
    exact absurd hw (Nat.not_lt_zero _)
  have htop32 := hc.rows_lt hpaint htop hx hy hw0
  refine ⟨htop32, ?_⟩
  by_cases hth : t.toNat ≤ h.toNat
  · refine .inl ⟨hth, ?_, ?_⟩
    · by_contra hshort
      have hlin : y + t < fb.height := BitVec.lt_def.mpr (by omega)
      have hlt := hc.rows_lt hpaint hleft hx hlin ht0
      omega
    · by_contra hrows
      have hbin : y + h - t < fb.height := BitVec.lt_def.mpr (by omega)
      have hlt := hc.rows_lt hpaint hbottom hx hbin hw0
      omega
  · have hreach : fb.height.toNat ≤ y.toNat + h.toNat := by
      by_contra hshort
      have hcol := hc.column hpaint htop hx hy hw0 (show h.toNat < t.toNat by omega) (by omega)
      simp only [InBorder, InBox] at hcol
      omega
    refine .inr ⟨by omega, hreach, ?_⟩
    by_contra hrows
    have hbin : y + h - t < fb.height := BitVec.lt_def.mpr (by omega)
    have hcol := hc.column hpaint hbottom hx hbin hw0 (show 0 < t.toNat by omega) (BitVec.lt_def.mp hbin)
    simp only [InBorder, InBox] at hcol
    omega

/-- What an outline that is drawn says about its edges. -/
theorem rect_fits_of_clipped {rgb : BitVec 32} (hthin : ¬ (t * 2 ≥ w ∨ t * 2 ≥ h))
    (hc : Clipped fb (InBorder x.toNat y.toNat w.toNat h.toNat t.toNat) (fun _ _ k => rgbByte rgb k) 0
      (rect fb x y w h t rgb)) : RectFits fb x y w h t := by
  obtain ⟨hw, hh, hinner, hdouble⟩ := edges_toNat hthin
  obtain ⟨htop, hbottom, hleft, hright⟩ := @edges_subset _ fb x y w h t rgb hthin
  have hyb := toNat_add_sub y h t
  have hyl := toNat_add_cases y t
  have hhlt := h.isLt
  have hwlt := w.isLt
  have hpaint := paints_pxSet rgb
  rw [RectFits, if_neg hthin]
  by_cases ht0 : t = 0
  · exact .inl ht0
  have htpos : 0 < t.toNat := Nat.pos_of_ne_zero fun h0 => ht0 (BitVec.eq_of_toNat_eq h0)
  have hinner0 : 0 < (h - 2 * t).toNat := by omega
  have hw0 : w ≠ 0 := by
    rintro rfl
    exact absurd hw (Nat.not_lt_zero _)
  right
  by_cases hin : x < fb.width ∧ y < fb.height
  swap
  · -- nothing is asked for, so no edge starts in the frame
    simp only [BitVec.lt_def] at hin
    rw [if_neg (by simpa only [BitVec.lt_def] using hin)]
    refine ⟨?_, ?_, ?_⟩
    · rintro ⟨hx, hy⟩
      have hcol := hc.column hpaint hbottom hx hy hw0 htpos (BitVec.lt_def.mp hy)
      simp only [InBorder, InBox, BitVec.lt_def] at hcol hx hy
      omega
    · rintro ⟨hx, hy⟩
      have hcol := hc.column hpaint hleft hx hy ht0 hinner0 (BitVec.lt_def.mp hy)
      simp only [InBorder, InBox, BitVec.lt_def] at hcol hx hy
      omega
    · rintro ⟨hx, hy⟩
      have hcol := hc.column hpaint hright hx hy ht0 hinner0 (BitVec.lt_def.mp hy)
      simp only [InBorder, InBox, BitVec.lt_def] at hcol hx hy
      omega
  obtain ⟨hx, hy⟩ := hin
  have hyn := BitVec.lt_def.mp hy
  rw [if_pos ⟨hx, hy⟩]
  constructor
  · by_contra hwrap
    have hedge := hc.columns hpaint htop hx hy ht0 (by omega)
    simp only [InBorder, InBox] at hedge
    omega
  split_ifs with hhalf
  · by_contra hrows
    unfold ThinFits at hrows
    have hbin : y + h - t < fb.height := BitVec.lt_def.mpr (by omega)
    have hlt := hc.rows_lt hpaint hbottom hx hbin hw0
    have hcol := hc.column hpaint hbottom hx hbin hw0 htpos (BitVec.lt_def.mp hbin)
    simp only [InBorder, InBox] at hcol
    omega
  · exact thickFits_of_clipped hthin hc ht0 hhalf hx hy

theorem rect_clipped_iff (rgb : BitVec 32) :
    Clipped fb (InBorder x.toNat y.toNat w.toNat h.toNat t.toNat) (fun _ _ k => rgbByte rgb k) 0
      (rect fb x y w h t rgb) ↔ RectFits fb x y w h t := by
  by_cases hthin : t * 2 ≥ w ∨ t * 2 ≥ h
  swap
  · exact ⟨rect_fits_of_clipped hthin, rect_clipped_of_fits rgb hthin⟩
  -- the whole box is filled, and all of it is within the thickness of the border
  have hdouble : (t * 2).toNat = t.toNat * 2 % 2 ^ 32 := BitVec.toNat_mul t 2
  have hside : w.toNat ≤ t.toNat * 2 ∨ h.toNat ≤ t.toNat * 2 := by
    simp only [ge_iff_le, BitVec.le_def, hdouble] at hthin
    exact hthin.imp (fun h1 => h1.trans (Nat.mod_le _ _)) fun h1 => h1.trans (Nat.mod_le _ _)
  have hbox : ∀ px py, InBox x.toNat y.toNat w.toNat h.toNat px py ↔
      InBorder x.toNat y.toNat w.toNat h.toNat t.toNat px py := by
    intro px py
    unfold InBorder InBox
    omega
  have hzero : t = 0 → BoxFits fb x y w.toNat h.toNat := by
    rintro rfl
    rw [show (0 : BitVec 32).toNat = 0 from rfl] at hside
    exact .inr (.inr (by omega))
  rw [rect, if_pos hthin, RectFits, if_pos hthin, or_iff_right_of_imp hzero, ← fill_clipped_iff rgb]
  exact ⟨fun hc => hc.congr (fun px py _ _ => (hbox px py).symm) fun _ _ _ _ => rfl,
    fun hc => hc.congr (fun px py _ _ => hbox px py) fun _ _ _ _ => rfl⟩

end Rect

/-- Each of the drawing calls changes exactly the pixels that were asked for, and stays inside its buffers, if and
only if the 32-bit sums and products of its arguments do no harm. -/
theorem drawing_clipped_iff (fb : Frame a) (x y w h thickness scale rgb : BitVec 32) :
    (Clipped fb (InBox x.toNat y.toNat w.toNat h.toNat) (fun _ _ k => rgbByte rgb k) 0 (fill fb x y w h rgb) ↔
      BoxFits fb x y w.toNat h.toNat) ∧
    (Clipped fb (InBorder x.toNat y.toNat w.toNat h.toNat thickness.toNat) (fun _ _ k => rgbByte rgb k) 0
      (rect fb x y w h thickness rgb) ↔ RectFits fb x y w h thickness) ∧
    ∀ gray : Gray a w h,
      (Clipped fb (InBox x.toNat y.toNat w.toNat h.toNat) (fun px py _ => gray.at x.toNat y.toNat 1 px py)
        (w.toNat * h.toNat) (blitGray fb x y gray) ↔ BoxFits fb x y w.toNat h.toNat) ∧
      (Clipped fb (InBox x.toNat y.toNat (w.toNat * scale.toNat) (h.toNat * scale.toNat))
        (fun px py _ => gray.at x.toNat y.toNat scale.toNat px py) (w.toNat * h.toNat)
        (blitGrayScaled fb x y gray scale) ↔ BoxFits fb x y (w.toNat * scale.toNat) (h.toNat * scale.toNat)) :=
  ⟨fill_clipped_iff rgb, rect_clipped_iff rgb, fun gray =>
    ⟨blitGray_clipped_iff gray, blitGrayScaled_clipped_iff gray scale⟩⟩

/-- A 1080p frame. -/
def fullHd : Frame .rv64 := ⟨1920, 1080, by decide⟩

/-- An image of four bytes. -/
def icon : Gray .rv64 2 2 := ⟨fun i => UInt8.ofNat (64 * i), by decide⟩

/-- At twice its size it is drawn where it was asked for. -/
example : Clipped fullHd (InBox 10 20 4 4) (fun px py _ => icon.at 10 20 2 px py) 4
    (blitGrayScaled fullHd 10 20 icon 2) := by
  have hfits : BoxFits fullHd 10 20 (4 : BitVec 32).toNat (4 : BitVec 32).toNat := boxFits_iff.mpr (by decide)
  exact (@blitGrayScaled_clipped_iff .rv64 fullHd 10 20 2 2 icon 2).mpr hfits

/-- A fill whose columns add up to more than `2 ^ 32` is not clamped at all. -/
theorem wideFill_not_clipped : ¬ Clipped fullHd (InBox 10 0 0xfffffffb 1) (fun _ _ k => rgbByte 0 k) 0
    (fill fullHd 10 0 0xfffffffb 1 0) := by
  intro hc
  have hfit : BoxFits fullHd 10 0 (0xfffffffb : BitVec 32).toNat (1 : BitVec 32).toNat :=
    (fill_clipped_iff 0).mp hc
  rw [boxFits_iff] at hfit
  revert hfit
  decide

end Soceteer.Soctfb
