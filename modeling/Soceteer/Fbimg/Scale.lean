import Mathlib.Data.BitVec
import Mathlib.Algebra.Group.Nat.Defs
import Mathlib.Data.List.Nodup
import Mathlib.Tactic.Ring
import Soceteer.Lib.Raster

/-!
# Soceteer.Fbimg.Scale — an image scaled to the screen

`fbimg` fits the image into the screen, centres it, and writes the screen row by row: each row is cleared, the
pixels of the rectangle are sampled from the image, and the row is written to its place in the framebuffer.

* `Image`, `Screen`, `dest`, `turn`, `turns`, `rowBytes`, `frame`: the source, in its 32- and 64-bit types.
* `dest_fit`, `dest_inside`: the rectangle in plain numbers.
* `srcRow_lt`, `srcCol_lt`, `turn_loads`, `turn_stores`: where one turn of the inner loop reads and writes.
* `count_rowStores`: how often a byte of the row buffer is stored to; `frame_byte`: what the framebuffer holds
  afterwards.
* `scaling_in_bounds`: the rectangle, the sample positions, the row buffer, the places drawn and the picture.
-/

namespace Soceteer.Fbimg

open Lib

/-! ## The source -/

/-- What `stbi_load_from_callbacks` returns: `iw` and `ih` are `int`s, the bytes are those of `ih` rows of `iw`
pixels. -/
structure Image where
  iw : BitVec 32
  ih : BitVec 32
  byte : ℕ → UInt8
  iw_pos : 0 < iw.toInt
  ih_pos : 0 < ih.toInt

/-- The fields of `fb_var_screeninfo` and `fb_fix_screeninfo` that are read. -/
structure Screen where
  xres : BitVec 32
  yres : BitVec 32
  lineLength : BitVec 32
  xres_pos : 0 < xres.toNat
  yres_pos : 0 < yres.toNat
  xres_lt : xres.toNat < 2 ^ 31
  yres_lt : yres.toNat < 2 ^ 31
  line : 3 * xres.toNat ≤ lineLength.toNat

structure Rect where
  dw : BitVec 32
  dh : BitVec 32
  x0 : BitVec 32
  y0 : BitVec 32

/-- Row `Y` and column `X` of the screen are in the rectangle. -/
def Rect.Has (r : Rect) (Y X : ℕ) : Prop :=
  (r.y0.toNat ≤ Y ∧ Y < r.y0.toNat + r.dh.toNat) ∧ r.x0.toNat ≤ X ∧ X < r.x0.toNat + r.dw.toNat

instance (r : Rect) (Y X : ℕ) : Decidable (r.Has Y X) := inferInstanceAs (Decidable (_ ∧ _))

section Source

variable (img : Image) (var : Screen)

/-- The largest destination preserving the aspect ratio, before a side of no pixels gets one. -/
def fit : BitVec 32 × BitVec 32 :=
  if img.iw.signExtend 64 * var.yres.setWidth 64 > img.ih.signExtend 64 * var.xres.setWidth 64 then
    (var.xres, (img.ih.signExtend 64 * var.xres.setWidth 64 / img.iw.signExtend 64).setWidth 32)
  else
    ((img.iw.signExtend 64 * var.yres.setWidth 64 / img.ih.signExtend 64).setWidth 32, var.yres)

def atLeastOne (d : BitVec 32) : BitVec 32 := if d = 0 then 1 else d

def dest : Rect where
  dw := atLeastOne (fit img var).1
  dh := atLeastOne (fit img var).2
  x0 := (var.xres - atLeastOne (fit img var).1) / 2
  y0 := (var.yres - atLeastOne (fit img var).2) / 2

/-- One turn of the inner loop: the place on the screen and the place in the image. -/
structure Turn where
  y : BitVec 32
  x : BitVec 32
  srcRow : BitVec 64
  srcCol : BitVec 64

def turn (y x : BitVec 32) : Turn where
  y := y
  x := (dest img var).x0 + x
  srcRow := (y - (dest img var).y0).setWidth 64 * img.ih.signExtend 64 / (dest img var).dh.setWidth 64
  srcCol := x.setWidth 64 * img.iw.signExtend 64 / (dest img var).dw.setWidth 64

/-- The offset of `px` in the image. -/
def Turn.px (t : Turn) : BitVec 64 := t.srcRow * img.iw.signExtend 64 * 3 + t.srcCol * 3

/-- The offset of `dst` in the row. -/
def Turn.dst (t : Turn) : BitVec 64 := t.x.setWidth 64 * 3

/-- `dst[0] = px[2]; dst[1] = px[1]; dst[2] = px[0];` -/
def Turn.accesses (t : Turn) : List Access :=
  (List.range 3).flatMap fun k =>
    [.load ((t.px img).toNat + (2 - k)), .store (t.dst.toNat + k) (img.byte ((t.px img).toNat + (2 - k)))]

/-- The inner loop in one row of the screen. -/
def rowTurns (y : BitVec 32) : List Turn :=
  if y ≥ (dest img var).y0 ∧ y < (dest img var).y0 + (dest img var).dh then
    (List.range (dest img var).dw.toNat).map fun x => turn img var y (BitVec.ofNat 32 x)
  else []

def turns : List Turn := (List.range var.yres.toNat).flatMap fun y => rowTurns img var (BitVec.ofNat 32 y)

/-- The bytes of the row buffer that the inner loop stores to, in order. -/
def rowStores (y : BitVec 32) : List ℕ :=
  ((rowTurns img var y).flatMap (Turn.accesses img)).filterMap Access.stored

/-- The row buffer when it is written: cleared, then drawn. -/
def rowBytes (y : BitVec 32) : ℕ → UInt8 := exec (fun _ => 0) ((rowTurns img var y).flatMap (Turn.accesses img))

def pwrite (fb row : ℕ → UInt8) (len off : ℕ) : ℕ → UInt8 := fun i =>
  if off ≤ i ∧ i < off + len then row (i - off) else fb i

/-- The framebuffer after the first `n` rows. -/
def frame (fb : ℕ → UInt8) (n : ℕ) : ℕ → UInt8 :=
  (List.range n).foldl
    (fun fb y => pwrite fb (rowBytes img var (BitVec.ofNat 32 y)) var.lineLength.toNat
      (y * var.lineLength.toNat)) fb

end Source

variable (img : Image) (var : Screen)

/-! ## Sizes as numbers -/

def Image.width : ℕ := img.iw.toNat

def Image.height : ℕ := img.ih.toNat

/-- A positive `int`. -/
theorem toNat_of_toInt_pos {v : BitVec 32} (h : 0 < v.toInt) :
    0 < v.toNat ∧ v.toNat < 2 ^ 31 ∧ (v.signExtend 64).toNat = v.toNat := by
  have hmsb : v.msb = false := by
    by_contra hne
    rw [Bool.not_eq_false] at hne
    have := BitVec.toInt_neg_of_msb_true hne
    omega
  have htoInt : v.toInt = v.toNat := BitVec.toInt_eq_toNat_of_msb hmsb
  have hlt : v.toNat < 2 ^ 31 := by
    have := @BitVec.toInt_lt 32 v
    omega
  refine ⟨by omega, hlt, ?_⟩
  rw [BitVec.signExtend_eq_setWidth_of_msb_false hmsb, BitVec.toNat_setWidth, Nat.mod_eq_of_lt (by omega)]

variable {img var}

theorem toNat_mul_lt {a b : BitVec 64} (ha : a.toNat < 2 ^ 32) (hb : b.toNat < 2 ^ 32) :
    (a * b).toNat = a.toNat * b.toNat := by
  rw [BitVec.toNat_mul]
  refine Nat.mod_eq_of_lt ?_
  calc a.toNat * b.toNat < 2 ^ 32 * 2 ^ 32 := Nat.mul_lt_mul'' ha hb
    _ = 2 ^ 64 := by decide

theorem toNat_wide (v : BitVec 32) : (v.setWidth 64).toNat = v.toNat := by
  rw [BitVec.toNat_setWidth, Nat.mod_eq_of_lt (by omega)]

/-- A product of a size of the image and a size of the screen. -/
theorem toNat_side {n : BitVec 32} (hn : 0 < n.toInt) (v : BitVec 32) :
    (n.signExtend 64 * v.setWidth 64).toNat = n.toNat * v.toNat := by
  obtain ⟨-, hlt, hext⟩ := toNat_of_toInt_pos hn
  have hv := toNat_wide v
  rw [toNat_mul_lt (by omega) (by omega), hext, hv]

theorem toNat_atLeastOne (d : BitVec 32) : (atLeastOne d).toNat = max 1 d.toNat := by
  unfold atLeastOne
  split
  · next h => rw [h]; rfl
  · next h =>
    have hne : d.toNat ≠ 0 := fun h0 => h (BitVec.eq_of_toNat_eq h0)
    omega

/-! ## The rectangle -/

/-- The other side of a fit is no longer than the screen's. -/
theorem toNat_quot {n m : BitVec 32} (hn : 0 < n.toInt) (hm : 0 < m.toInt) {r c : BitVec 32}
    (hc : c.toNat < 2 ^ 31)
    (h : n.toNat * r.toNat ≤ m.toNat * c.toNat) :
    ((n.signExtend 64 * r.setWidth 64 / m.signExtend 64).setWidth 32).toNat = n.toNat * r.toNat / m.toNat ∧
      n.toNat * r.toNat / m.toNat ≤ c.toNat := by
  obtain ⟨-, -, hext⟩ := toNat_of_toInt_pos hm
  have hle := Nat.div_le_of_le_mul h
  refine ⟨?_, hle⟩
  rw [BitVec.toNat_setWidth, BitVec.toNat_udiv, toNat_side hn, hext, Nat.mod_eq_of_lt (by omega)]

/-- The rectangle: one side is the screen's, the other is in proportion, rounded down but at least one pixel. -/
theorem dest_fit (img : Image) (var : Screen) :
    (dest img var).dw.toNat = var.xres.toNat ∧
        (dest img var).dh.toNat = max 1 (img.height * var.xres.toNat / img.width) ∧
        (dest img var).dh.toNat ≤ var.yres.toNat ∨
      (dest img var).dh.toNat = var.yres.toNat ∧
        (dest img var).dw.toNat = max 1 (img.width * var.yres.toNat / img.height) ∧
        (dest img var).dw.toNat ≤ var.xres.toNat := by
  have hx := var.xres_pos
  have hy := var.yres_pos
  simp only [dest, toNat_atLeastOne, fit, gt_iff_lt, BitVec.lt_def, toNat_side img.iw_pos, toNat_side img.ih_pos]
  split
  · next hwide =>
    obtain ⟨hquot, hle⟩ := toNat_quot img.ih_pos img.iw_pos var.yres_lt hwide.le
    dsimp only
    rw [hquot]
    exact .inl ⟨by omega, rfl, by omega⟩
  · next htall =>
    obtain ⟨hquot, hle⟩ := toNat_quot img.iw_pos img.ih_pos var.xres_lt (Nat.not_lt.mp htall)
    dsimp only
    rw [hquot]
    exact .inr ⟨by omega, rfl, by omega⟩

theorem half_margin {s d : BitVec 32} (h : d.toNat ≤ s.toNat) : ((s - d) / 2).toNat = (s.toNat - d.toNat) / 2 := by
  rw [BitVec.toNat_udiv, BitVec.toNat_sub_of_le (BitVec.le_def.mpr h)]
  rfl

/-- The rectangle lies inside the screen and is centred in it. -/
theorem dest_inside (img : Image) (var : Screen) :
    (0 < (dest img var).dw.toNat ∧ (dest img var).dw.toNat ≤ var.xres.toNat) ∧
      (0 < (dest img var).dh.toNat ∧ (dest img var).dh.toNat ≤ var.yres.toNat) ∧
      (dest img var).x0.toNat = (var.xres.toNat - (dest img var).dw.toNat) / 2 ∧
      (dest img var).y0.toNat = (var.yres.toNat - (dest img var).dh.toNat) / 2 := by
  have hx := var.xres_pos
  have hy := var.yres_pos
  have hsides : (0 < (dest img var).dw.toNat ∧ (dest img var).dw.toNat ≤ var.xres.toNat) ∧
      0 < (dest img var).dh.toNat ∧ (dest img var).dh.toNat ≤ var.yres.toNat := by
    rcases dest_fit img var with ⟨hw, hh, hle⟩ | ⟨hh, hw, hle⟩
    · refine ⟨⟨by omega, by omega⟩, by omega, hle⟩
    · refine ⟨⟨by omega, hle⟩, by omega, by omega⟩
  exact ⟨hsides.1, hsides.2, half_margin hsides.1.2, half_margin hsides.2.2⟩

/-! ## One turn -/

/-- A place in the rectangle, counted from its corner. -/
structure InRect (img : Image) (var : Screen) (y x : BitVec 32) : Prop where
  top : (dest img var).y0.toNat ≤ y.toNat
  bottom : y.toNat < (dest img var).y0.toNat + (dest img var).dh.toNat
  right : x.toNat < (dest img var).dw.toNat

section Turn

variable {y x : BitVec 32} (h : InRect img var y x)
include h

theorem turn_x : (turn img var y x).x.toNat = (dest img var).x0.toNat + x.toNat := by
  obtain ⟨⟨-, hw⟩, -, hx0, -⟩ := dest_inside img var
  have := h.right
  have := var.xres_lt
  show ((dest img var).x0 + x).toNat = _
  exact BitVec.toNat_add_of_lt (by omega)

omit h in
/-- A sample position of `n` in a side of `d` pixels. -/
theorem toNat_sample {n : BitVec 32} (hn : 0 < n.toInt) {i d : BitVec 32} (hlt : i.toNat < d.toNat) :
    (i.setWidth 64 * n.signExtend 64 / d.setWidth 64).toNat = i.toNat * n.toNat / d.toNat ∧
      i.toNat * n.toNat / d.toNat < n.toNat := by
  obtain ⟨hpos, -, -⟩ := toNat_of_toInt_pos hn
  constructor
  · rw [BitVec.toNat_udiv, BitVec.mul_comm, toNat_side hn, toNat_wide, Nat.mul_comm]
  · refine Nat.div_lt_of_lt_mul ?_
    exact Nat.mul_lt_mul_of_pos_right hlt hpos

omit h in
theorem toNat_row {y0 y : BitVec 32} (h : y0.toNat ≤ y.toNat) : (y - y0).toNat = y.toNat - y0.toNat :=
  BitVec.toNat_sub_of_le (BitVec.le_def.mpr h)

theorem srcRow_lt : (turn img var y x).srcRow.toNat =
    (y.toNat - (dest img var).y0.toNat) * img.height / (dest img var).dh.toNat ∧
      (turn img var y x).srcRow.toNat < img.height := by
  have htop := h.top
  have hbottom := h.bottom
  have hrow := toNat_row htop
  obtain ⟨heq, hlt⟩ := toNat_sample img.ih_pos (i := y - (dest img var).y0) (d := (dest img var).dh) (by omega)
  rw [hrow] at heq hlt
  exact ⟨heq, by rw [show (turn img var y x).srcRow.toNat = _ from heq]; exact hlt⟩

theorem srcCol_lt : (turn img var y x).srcCol.toNat = x.toNat * img.width / (dest img var).dw.toNat ∧
    (turn img var y x).srcCol.toNat < img.width := by
  obtain ⟨heq, hlt⟩ := toNat_sample img.iw_pos h.right
  exact ⟨heq, by rw [show (turn img var y x).srcCol.toNat = _ from heq]; exact hlt⟩

/-- The first byte of the pixel read. -/
theorem turn_px : ((turn img var y x).px img).toNat =
    3 * ((turn img var y x).srcRow.toNat * img.width + (turn img var y x).srcCol.toNat) := by
  obtain ⟨-, hrow⟩ := srcRow_lt h
  obtain ⟨-, hcol⟩ := srcCol_lt h
  obtain ⟨-, hw, hext⟩ := toNat_of_toInt_pos img.iw_pos
  obtain ⟨-, hh, -⟩ := toNat_of_toInt_pos img.ih_pos
  have hsmall : (turn img var y x).srcRow.toNat * img.iw.toNat < 2 ^ 31 * 2 ^ 31 :=
    Nat.mul_lt_mul'' (hrow.trans hh) hw
  have hcol' : (turn img var y x).srcCol.toNat < img.iw.toNat := hcol
  unfold Turn.px Image.width
  have hthree : (3 : BitVec 64).toNat = 3 := rfl
  simp only [BitVec.toNat_add, BitVec.toNat_mul, hext, hthree]
  omega

theorem turn_dst : (turn img var y x).dst.toNat = 3 * ((dest img var).x0.toNat + x.toNat) := by
  have hthree : (3 : BitVec 64).toNat = 3 := rfl
  have hwide := toNat_wide (turn img var y x).x
  unfold Turn.dst
  rw [toNat_mul_lt (by omega) (by omega), hwide, turn_x h, hthree, Nat.mul_comm]

/-- A load is of the three bytes of a pixel of the image. -/
theorem turn_loads {i : ℕ} (hi : .load i ∈ (turn img var y x).accesses img) :
    i < 3 * (img.width * img.height) := by
  obtain ⟨-, hrow⟩ := srcRow_lt h
  obtain ⟨-, hcol⟩ := srcCol_lt h
  have hend : ((turn img var y x).srcRow.toNat + 1) * img.width ≤ img.height * img.width :=
    Nat.mul_le_mul_right _ hrow
  rw [Nat.succ_mul, Nat.mul_comm img.height] at hend
  simp only [Turn.accesses, List.mem_flatMap, List.mem_range, List.mem_cons, Access.load.injEq, reduceCtorEq,
    List.not_mem_nil, or_false] at hi
  obtain ⟨k, hk, rfl⟩ := hi
  rw [turn_px h]
  omega

omit h in
theorem mem_stores {t : Turn} {off : ℕ} {v : UInt8} : .store off v ∈ t.accesses img ↔
    ∃ k < 3, off = t.dst.toNat + k ∧ v = img.byte ((t.px img).toNat + (2 - k)) := by
  simp [Turn.accesses]

/-- A store is to the three bytes of its column of the row buffer. -/
theorem turn_stores {off : ℕ} {v : UInt8} (hs : .store off v ∈ (turn img var y x).accesses img) :
    off < 3 * var.xres.toNat := by
  obtain ⟨⟨-, hw⟩, -, hx0, -⟩ := dest_inside img var
  obtain ⟨k, hk, rfl, -⟩ := mem_stores.mp hs
  have := h.right
  rw [turn_dst h]
  omega

end Turn

/-! ## The loops -/

/-- The test for a row of the rectangle. -/
theorem row_iff (y : BitVec 32) : (y ≥ (dest img var).y0 ∧ y < (dest img var).y0 + (dest img var).dh) ↔
    (dest img var).y0.toNat ≤ y.toNat ∧ y.toNat < (dest img var).y0.toNat + (dest img var).dh.toNat := by
  obtain ⟨-, ⟨-, hh⟩, -, hy0⟩ := dest_inside img var
  have := var.yres_lt
  rw [ge_iff_le, BitVec.le_def, BitVec.lt_def, BitVec.toNat_add_of_lt (by omega)]

theorem toNat_count {n : BitVec 32} {i : ℕ} (h : i < n.toNat) : (BitVec.ofNat 32 i).toNat = i := by
  rw [BitVec.toNat_ofNat, Nat.mod_eq_of_lt (by omega)]

/-- The turns in a row. -/
theorem mem_rowTurns {y : BitVec 32} {t : Turn} :
    t ∈ rowTurns img var y ↔ ∃ x, InRect img var y x ∧ t = turn img var y x := by
  unfold rowTurns
  simp only [row_iff]
  split
  · next hrow =>
    rw [List.mem_map]
    constructor
    · rintro ⟨x, hx, rfl⟩
      rw [List.mem_range] at hx
      exact ⟨_, ⟨hrow.1, hrow.2, by rw [toNat_count hx]; exact hx⟩, rfl⟩
    · rintro ⟨x, hin, rfl⟩
      exact ⟨x.toNat, List.mem_range.mpr hin.right, by rw [BitVec.ofNat_toNat, BitVec.setWidth_eq]⟩
  · next hrow =>
    refine iff_of_false List.not_mem_nil ?_
    rintro ⟨x, hin, -⟩
    exact hrow ⟨hin.top, hin.bottom⟩

theorem mem_turns {t : Turn} : t ∈ turns img var ↔ ∃ y x, InRect img var y x ∧ t = turn img var y x := by
  unfold turns
  rw [List.mem_flatMap]
  constructor
  · rintro ⟨y, -, hmem⟩
    obtain ⟨x, hin, rfl⟩ := mem_rowTurns.mp hmem
    exact ⟨_, x, hin, rfl⟩
  · rintro ⟨y, x, hin, rfl⟩
    obtain ⟨-, ⟨-, hh⟩, -, hy0⟩ := dest_inside img var
    have hbottom := hin.bottom
    refine ⟨y.toNat, List.mem_range.mpr (by omega), mem_rowTurns.mpr ⟨x, ?_, ?_⟩⟩
    · rwa [BitVec.ofNat_toNat, BitVec.setWidth_eq]
    · rw [BitVec.ofNat_toNat, BitVec.setWidth_eq]

/-- Row and column of the screen. -/
def Turn.place (t : Turn) : ℕ × ℕ := (t.y.toNat, t.x.toNat)

theorem rowTurns_places (y : BitVec 32) : ((rowTurns img var y).map Turn.place).Nodup := by
  unfold rowTurns
  simp only [row_iff]
  split
  · next hrow =>
    rw [List.map_map]
    refine List.Nodup.map_on ?_ List.nodup_range
    intro x hx x' hx' heq
    rw [List.mem_range] at hx hx'
    have hin : InRect img var y (BitVec.ofNat 32 x) := ⟨hrow.1, hrow.2, by rw [toNat_count hx]; exact hx⟩
    have hin' : InRect img var y (BitVec.ofNat 32 x') := ⟨hrow.1, hrow.2, by rw [toNat_count hx']; exact hx'⟩
    have hcol : (turn img var y (BitVec.ofNat 32 x)).x.toNat = (turn img var y (BitVec.ofNat 32 x')).x.toNat :=
      congrArg Prod.snd heq
    rw [turn_x hin, turn_x hin', toNat_count hx, toNat_count hx'] at hcol
    omega
  · exact List.nodup_nil

/-- No place is drawn twice. -/
theorem turns_places : ((turns img var).map Turn.place).Nodup := by
  unfold turns
  rw [List.map_flatMap, List.nodup_flatMap]
  refine ⟨fun y _ => rowTurns_places _, ?_⟩
  refine List.Pairwise.imp_of_mem ?_ List.nodup_range
  intro y y' hy hy' hne p hp hp'
  rw [List.mem_range] at hy hy'
  obtain ⟨t, ht, rfl⟩ := List.mem_map.mp hp
  obtain ⟨t', ht', heq⟩ := List.mem_map.mp hp'
  obtain ⟨x, -, rfl⟩ := mem_rowTurns.mp ht
  obtain ⟨x', -, rfl⟩ := mem_rowTurns.mp ht'
  have hrow : (BitVec.ofNat 32 y').toNat = (BitVec.ofNat 32 y).toNat := congrArg Prod.fst heq
  rw [toNat_count hy, toNat_count hy'] at hrow
  exact hne hrow.symm

/-- The places drawn are those of the rectangle. -/
theorem mem_places (Y X : ℕ) : (Y, X) ∈ (turns img var).map Turn.place ↔ (dest img var).Has Y X := by
  rw [List.mem_map]
  constructor
  · rintro ⟨t, ht, heq⟩
    obtain ⟨y, x, hin, rfl⟩ := mem_turns.mp ht
    have hY : y.toNat = Y := congrArg Prod.fst heq
    have hX : (turn img var y x).x.toNat = X := congrArg Prod.snd heq
    rw [turn_x hin] at hX
    have := hin.right
    exact ⟨⟨hY ▸ hin.top, hY ▸ hin.bottom⟩, by omega, by omega⟩
  · rintro ⟨⟨htop, hbottom⟩, hleft, hright⟩
    obtain ⟨⟨-, hw⟩, ⟨-, hh⟩, hx0, hy0⟩ := dest_inside img var
    have hy : (BitVec.ofNat 32 Y).toNat = Y := toNat_count (n := var.yres) (by omega)
    have hx : (BitVec.ofNat 32 (X - (dest img var).x0.toNat)).toNat = X - (dest img var).x0.toNat :=
      toNat_count (n := (dest img var).dw) (by omega)
    have hin : InRect img var (BitVec.ofNat 32 Y) (BitVec.ofNat 32 (X - (dest img var).x0.toNat)) :=
      ⟨by omega, by omega, by omega⟩
    have hcol := turn_x hin
    rw [hx] at hcol
    exact ⟨_, mem_turns.mpr ⟨_, _, hin, rfl⟩, Prod.ext hy (hcol.trans (by omega))⟩

/-! ## The row buffer -/

theorem stored_accesses (t : Turn) :
    (t.accesses img).filterMap Access.stored = (List.range 3).map fun k => t.dst.toNat + k := rfl

theorem mem_rowStores {y : BitVec 32} {b : ℕ} : b ∈ rowStores img var y ↔ (dest img var).Has y.toNat (b / 3) := by
  unfold rowStores
  simp only [List.filterMap_flatMap, stored_accesses, List.mem_flatMap, mem_rowTurns, List.mem_map, List.mem_range]
  constructor
  · rintro ⟨t, ⟨x, hin, rfl⟩, k, hk, rfl⟩
    have hright := hin.right
    rw [turn_dst hin]
    exact ⟨⟨hin.top, hin.bottom⟩, by omega, by omega⟩
  · rintro ⟨⟨htop, hbottom⟩, hleft, hright⟩
    have hx : (BitVec.ofNat 32 (b / 3 - (dest img var).x0.toNat)).toNat = b / 3 - (dest img var).x0.toNat :=
      toNat_count (n := (dest img var).dw) (by omega)
    have hin : InRect img var y (BitVec.ofNat 32 (b / 3 - (dest img var).x0.toNat)) := ⟨htop, hbottom, by omega⟩
    exact ⟨_, ⟨_, hin, rfl⟩, b % 3, Nat.mod_lt _ (by decide), by rw [turn_dst hin, hx]; omega⟩

/-- No byte is stored to twice. -/
theorem nodup_rowStores (y : BitVec 32) : (rowStores img var y).Nodup := by
  unfold rowStores
  rw [List.filterMap_flatMap, List.nodup_flatMap]
  refine ⟨fun t _ => ?_, (List.pairwise_map.mp (rowTurns_places y)).imp_of_mem ?_⟩
  · rw [stored_accesses]
    exact List.nodup_range.map fun k k' h => Nat.add_left_cancel h
  · intro t t' ht ht' hne
    obtain ⟨x, hin, rfl⟩ := mem_rowTurns.mp ht
    obtain ⟨x', hin', rfl⟩ := mem_rowTurns.mp ht'
    simp only [Function.onFun, stored_accesses, turn_dst hin, turn_dst hin']
    intro b hb hb'
    simp only [List.mem_map, List.mem_range] at hb hb'
    obtain ⟨k, hk, rfl⟩ := hb
    obtain ⟨k', hk', heq⟩ := hb'
    refine hne (Prod.ext rfl ?_)
    change (turn img var y x).x.toNat = (turn img var y x').x.toNat
    rw [turn_x hin, turn_x hin']
    omega

/-- **Each byte of the rectangle's columns is stored to once**, in the rectangle's rows, and no other byte is. -/
theorem count_rowStores (y : BitVec 32) (b : ℕ) :
    (rowStores img var y).count b = if (dest img var).Has y.toNat (b / 3) then 1 else 0 := by
  split
  · next hin => exact List.count_eq_one_of_mem (nodup_rowStores y) (mem_rowStores.mpr hin)
  · next hout => exact List.count_eq_zero.mpr fun hmem => hout (mem_rowStores.mp hmem)

/-! ## The framebuffer -/

/-- Each row ends in its place. -/
theorem frame_row (fb : ℕ → UInt8) {n Y b : ℕ} (hY : Y < n) (hb : b < var.lineLength.toNat) :
    frame img var fb n (Y * var.lineLength.toNat + b) = rowBytes img var (BitVec.ofNat 32 Y) b := by
  induction n with
  | zero => omega
  | succ n ih =>
    unfold frame at ih ⊢
    rw [List.range_succ, List.foldl_append, List.foldl_cons, List.foldl_nil, pwrite]
    rcases Nat.lt_succ_iff_lt_or_eq.mp hY with hlt | rfl
    · have hbefore : (Y + 1) * var.lineLength.toNat ≤ n * var.lineLength.toNat := Nat.mul_le_mul_right _ hlt
      rw [Nat.succ_mul] at hbefore
      rw [if_neg (by omega), ih hlt]
    · rw [if_pos ⟨by omega, by omega⟩, Nat.add_sub_cancel_left]

/-- The byte of a row of the rectangle. -/
theorem rowBytes_inside {y x : BitVec 32} (hin : InRect img var y x) {k : ℕ} (hk : k < 3) :
    rowBytes img var y (3 * ((dest img var).x0.toNat + x.toNat) + k) =
      img.byte (3 * ((y.toNat - (dest img var).y0.toNat) * img.height / (dest img var).dh.toNat * img.width +
        x.toNat * img.width / (dest img var).dw.toNat) + (2 - k)) := by
  have hstored : .store (3 * ((dest img var).x0.toNat + x.toNat) + k)
      (img.byte (((turn img var y x).px img).toNat + (2 - k))) ∈ (rowTurns img var y).flatMap
        (Turn.accesses img) := by
    rw [List.mem_flatMap]
    refine ⟨_, mem_rowTurns.mpr ⟨x, hin, rfl⟩, mem_stores.mpr ⟨k, hk, ?_, rfl⟩⟩
    rw [turn_dst hin]
  obtain ⟨u, hu, hexec⟩ := exec_of_stored hstored
  -- only the turn of the same column stores there
  obtain ⟨t, ht, hmem⟩ := List.mem_flatMap.mp hu
  obtain ⟨x', hin', rfl⟩ := mem_rowTurns.mp ht
  obtain ⟨k', hk', hoff, rfl⟩ := mem_stores.mp hmem
  rw [turn_dst hin'] at hoff
  have hx : x' = x := BitVec.eq_of_toNat_eq (by omega)
  subst hx
  have hkk : k' = k := by omega
  rw [rowBytes, hexec, hkk, turn_px hin, (srcRow_lt hin).1, (srcCol_lt hin).1]

theorem rowBytes_outside {y : BitVec 32} {b : ℕ}
    (hout : ∀ x, InRect img var y x → b / 3 ≠ (dest img var).x0.toNat + x.toNat) : rowBytes img var y b = 0 := by
  refine exec_of_not_stored _ fun v hv => ?_
  obtain ⟨t, ht, hmem⟩ := List.mem_flatMap.mp hv
  obtain ⟨x, hin, rfl⟩ := mem_rowTurns.mp ht
  obtain ⟨k, hk, rfl, -⟩ := mem_stores.mp hmem
  rw [turn_dst hin] at hout
  exact hout x hin (by omega)

/-- Every pixel of the rectangle shows its sample, red first in the image and blue first on the screen, and
the rest of each row is black. -/
theorem frame_byte (fb : ℕ → UInt8) {Y X k : ℕ} (hY : Y < var.yres.toNat) (hX : X < var.xres.toNat) (hk : k < 3) :
    frame img var fb var.yres.toNat (Y * var.lineLength.toNat + (3 * X + k)) =
      if (dest img var).Has Y X then
        img.byte (3 * ((Y - (dest img var).y0.toNat) * img.height / (dest img var).dh.toNat * img.width +
          (X - (dest img var).x0.toNat) * img.width / (dest img var).dw.toNat) + (2 - k))
      else 0 := by
  have hline := var.line
  rw [frame_row fb hY (by omega)]
  have hy := toNat_count hY
  split
  · next hin =>
    obtain ⟨⟨htop, hbottom⟩, hleft, hright⟩ := hin
    have hx : (BitVec.ofNat 32 (X - (dest img var).x0.toNat)).toNat = X - (dest img var).x0.toNat :=
      toNat_count (n := (dest img var).dw) (by omega)
    have hrect : InRect img var (BitVec.ofNat 32 Y) (BitVec.ofNat 32 (X - (dest img var).x0.toNat)) :=
      ⟨by omega, by omega, by omega⟩
    have hbyte := rowBytes_inside hrect hk
    rwa [hx, hy, Nat.add_sub_cancel' hleft] at hbyte
  · next hout =>
    refine rowBytes_outside fun x hin hcol => hout ?_
    have htop := hin.top
    have hbottom := hin.bottom
    have hright := hin.right
    exact ⟨⟨by omega, by omega⟩, by omega, by omega⟩

/-! ## The picture -/

/-- **The picture.**  The rectangle is the largest one of the image's shape, up to rounding, inside the screen;
every sample lies in the image and every byte stored in the row buffer; every place of the rectangle has one turn
and every byte of it one store; and the framebuffer ends with the samples in the rectangle and black beside it. -/
theorem scaling_in_bounds (img : Image) (var : Screen) :
    ((dest img var).x0.toNat + (dest img var).dw.toNat ≤ var.xres.toNat ∧
        (dest img var).y0.toNat + (dest img var).dh.toNat ≤ var.yres.toNat) ∧
      ((dest img var).dw.toNat = var.xres.toNat ∧
          (dest img var).dh.toNat = max 1 (img.height * var.xres.toNat / img.width) ∨
        (dest img var).dh.toNat = var.yres.toNat ∧
          (dest img var).dw.toNat = max 1 (img.width * var.yres.toNat / img.height)) ∧
      (∀ t ∈ turns img var, t.srcRow.toNat < img.height ∧ t.srcCol.toNat < img.width ∧
        (∀ i, .load i ∈ t.accesses img → i < 3 * (img.width * img.height)) ∧
        ∀ off v, .store off v ∈ t.accesses img → off < var.lineLength.toNat) ∧
      (∀ Y X, ((turns img var).map Turn.place).count (Y, X) = if (dest img var).Has Y X then 1 else 0) ∧
      (∀ y b, (rowStores img var y).count b = if (dest img var).Has y.toNat (b / 3) then 1 else 0) ∧
      ∀ (fb : ℕ → UInt8) (Y X k : ℕ), Y < var.yres.toNat → X < var.xres.toNat → k < 3 →
        frame img var fb var.yres.toNat (Y * var.lineLength.toNat + (3 * X + k)) =
          if (dest img var).Has Y X then
            img.byte (3 * ((Y - (dest img var).y0.toNat) * img.height / (dest img var).dh.toNat * img.width +
              (X - (dest img var).x0.toNat) * img.width / (dest img var).dw.toNat) + (2 - k))
          else 0 := by
  obtain ⟨⟨-, hw⟩, ⟨-, hh⟩, hx0, hy0⟩ := dest_inside img var
  refine ⟨⟨by omega, by omega⟩, ?_, ?_, ?_, count_rowStores, fun fb Y X k hY hX hk => frame_byte fb hY hX hk⟩
  · rcases dest_fit img var with ⟨hside, hother, -⟩ | ⟨hside, hother, -⟩
    · exact .inl ⟨hside, hother⟩
    · exact .inr ⟨hside, hother⟩
  · intro t ht
    obtain ⟨y, x, hin, rfl⟩ := mem_turns.mp ht
    refine ⟨(srcRow_lt hin).2, (srcCol_lt hin).2, fun i hi => turn_loads hin hi, ?_⟩
    intro off v hs
    exact (turn_stores hin hs).trans_le var.line
  · intro Y X
    split
    · next hin => exact List.count_eq_one_of_mem turns_places ((mem_places Y X).mpr hin)
    · next hout => exact List.count_eq_zero.mpr fun hmem => hout ((mem_places Y X).mp hmem)

/-- A white pixel beside a black one, on a screen of four by four pixels. -/
def pair : Image := ⟨2, 1, fun i => if i < 3 then 255 else 0, by decide, by decide⟩

def square : Screen := ⟨4, 4, 16, by decide, by decide, by decide, by decide, by decide⟩

/-- Two rows in the middle, white on the left and black on the right. -/
theorem pair_in_bounds : (dest pair square).dh.toNat = 2 ∧ (rowStores pair square 1).count 4 = 1 ∧
    frame pair square (fun _ => 7) 4 (1 * 16 + (3 * 1 + 2)) = 255 ∧
    frame pair square (fun _ => 7) 4 (2 * 16 + (3 * 2 + 0)) = 0 ∧
    frame pair square (fun _ => 7) 4 (0 * 16 + (3 * 1 + 0)) = 0 := by
  obtain ⟨-, -, -, -, hstores, hframe⟩ := scaling_in_bounds pair square
  refine ⟨by decide, (hstores 1 4).trans (by decide), ?_, ?_, ?_⟩
  · exact (hframe _ 1 1 2 (by decide) (by decide) (by decide)).trans (by decide)
  · exact (hframe _ 2 2 0 (by decide) (by decide) (by decide)).trans (by decide)
  · exact (hframe _ 0 1 0 (by decide) (by decide) (by decide)).trans (by decide)

end Soceteer.Fbimg
