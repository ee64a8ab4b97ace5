import Soceteer.Doom.Rows
import Soceteer.Lib.Run

/-!
# Soceteer.Doom.Shows — the screen shows the frame of the engine

* `picture`, `Shows`: the scaled frame in the middle of a black screen.
* `Kept`, `Rest`, `Expanded`, `Written`: what `prev`, the slab and the frames of the screen hold at each barrier.
* `Inv`, `Inv.step`: the same while the workers are at it, whichever goes on.
* `reach_finished`: a frame gets through; `reach_second`: a run that shows the second frame of the screen as it
  was.
* `shows_iff`: the screen shows each frame that is done, except where a mapping has failed and flipping came back
  with it.
-/

namespace Soceteer.Doom

open Soceteer.Lib

variable {C : Setup}

/-! ## What is to be seen -/

/-- Byte `b` of line `Y` of the screen: each pixel of the frame is `scale` times as large, and around them it is
black. -/
def picture (C : Setup) (palette : Palette) (frame : Frame) (Y b : ℕ) : UInt8 :=
  if (C.y0 ≤ Y ∧ Y < C.y0 + resY * C.scale) ∧ C.x0 ≤ b / 3 ∧ b / 3 < C.x0 + resX * C.scale then
    (palette (frame ((Y - C.y0) / C.scale) ((b / 3 - C.x0) / C.scale))).byte (b % 3)
  else 0

/-- The screen shows the frame that was drawn last. -/
def Shows (C : Setup) (s : St) : Prop :=
  ∀ Y < C.yres, ∀ b < 3 * C.xres, s.mem (.screen ((s.yoffset + Y) * C.lineLength + b)) =
    picture C s.palette s.frame Y b

/-- Byte `b` of the lines of row `y`. -/
def rowByte (C : Setup) (palette : Palette) (frame : Frame) (y b : ℕ) : UInt8 :=
  if C.x0 * 3 ≤ b ∧ b < C.x0 * 3 + resX * C.scale3 then
    (palette (frame y ((b - C.x0 * 3) / C.scale3))).byte (b % 3)
  else 0

theorem rowByte_congr {palette : Palette} {frame frame' : Frame} {y : ℕ} (h : ∀ x < resX, frame y x = frame' y x)
    (b : ℕ) :
    rowByte C palette frame y b = rowByte C palette frame' y b := by
  unfold rowByte
  split_ifs with hcol
  · have hx : (b - C.x0 * 3) / C.scale3 < resX := (Nat.div_lt_iff_lt_mul C.scale3_pos).mpr (by omega)
    rw [h _ hx]
  · rfl

theorem byte_black (k : ℕ) : (⟨0, 0, 0⟩ : Color).byte k = 0 := by
  unfold Color.byte
  split_ifs <;> rfl

theorem rowByte_black (frame : Frame) (y b : ℕ) : rowByte C (fun _ => ⟨0, 0, 0⟩) frame y b = 0 := by
  rw [rowByte, byte_black]
  exact ite_self 0

theorem picture_black (frame : Frame) (Y b : ℕ) : picture C (fun _ => ⟨0, 0, 0⟩) frame Y b = 0 := by
  rw [picture, byte_black]
  exact ite_self 0

theorem picture_row (palette : Palette) (frame : Frame) {y r : ℕ} (hy : y < resY) (hr : r < C.scale) (b : ℕ) :
    picture C palette frame (C.y0 + y * C.scale + r) b = rowByte C palette frame y b := by
  have hlt := row_lt (C := C) hy hr
  have hmul : resX * C.scale3 = resX * C.scale * 3 := (Nat.mul_assoc _ _ _).symm
  have hrow : (C.y0 + y * C.scale + r - C.y0) / C.scale = y := by
    rw [Nat.add_assoc, Nat.add_sub_cancel_left, div_of_lt hr]
  have hcol : (b / 3 - C.x0) / C.scale = (b - C.x0 * 3) / C.scale3 := by
    have hthird : b / 3 - C.x0 = (b - C.x0 * 3) / 3 := by omega
    rw [hthird, Nat.div_div_eq_div_mul, Framebuffer.scale3, Nat.mul_comm 3]
  have hiff : ((C.y0 ≤ C.y0 + y * C.scale + r ∧ C.y0 + y * C.scale + r < C.y0 + resY * C.scale) ∧
      C.x0 ≤ b / 3 ∧ b / 3 < C.x0 + resX * C.scale) ↔ C.x0 * 3 ≤ b ∧ b < C.x0 * 3 + resX * C.scale3 := by
    omega
  rw [picture, rowByte, hrow, hcol]
  exact if_congr hiff rfl rfl

/-- A line of the screen is a line of a row, or above or below them all. -/
theorem line_cases (C : Setup) (Y : ℕ) :
    (∃ y < resY, ∃ r < C.scale, Y = C.y0 + y * C.scale + r) ∨ ¬ (C.y0 ≤ Y ∧ Y < C.y0 + resY * C.scale) := by
  by_cases h : C.y0 ≤ Y ∧ Y < C.y0 + resY * C.scale
  · left
    refine ⟨(Y - C.y0) / C.scale, ?_, (Y - C.y0) % C.scale, Nat.mod_lt _ C.scale_pos, ?_⟩
    · exact (Nat.div_lt_iff_lt_mul C.scale_pos).mpr (by omega)
    · have hdiv := Nat.div_add_mod' (Y - C.y0) C.scale
      omega
  · exact Or.inr h

/-! ## Memory at the barriers -/

/-- What is drawn: the frame and its colours, the rows that it has changed and those to be written, and the frames
of the screen that were written last and are to be written. -/
structure View where
  palette : Palette
  frame : Frame
  wasChanged : ℕ → Bool
  writeRows : List ℕ
  front : ℕ
  back : ℕ

def view (C : Setup) (s : St) : View where
  palette := s.palette
  frame := s.frame
  wasChanged := s.wasChanged
  writeRows := s.writeRows
  front := if C.flip then 1 - s.back else s.back
  back := s.back

/-- Row `y` is on frame `f` of the screen. -/
def RowOn (C : Setup) (v : View) (m : Mem) (f y : ℕ) : Prop :=
  ∀ r < C.scale, ∀ b < 3 * C.xres, m (pixel C f (C.y0 + y * C.scale + r) b) = rowByte C v.palette v.frame y b

/-- Frame `f` is black above and below the rows. -/
def Border (C : Setup) (m : Mem) (f : ℕ) : Prop :=
  ∀ Y < C.yres, ¬ (C.y0 ≤ Y ∧ Y < C.y0 + resY * C.scale) → ∀ b < 3 * C.xres, m (pixel C f Y b) = 0

/-- `prev` and the slab have the frame, and the borders are black. -/
structure Kept (C : Setup) (v : View) (m : Mem) : Prop where
  prev : ∀ y < resY, ∀ x < resX, m (.prev (y * resX + x)) = v.frame y x
  slab : C.fbmap = false → ∀ y < resY, ∀ r < C.scale, ∀ b < C.lineLength,
    m (.framebuf ((y * C.scale + r) * C.lineLength + b)) = rowByte C v.palette v.frame y b
  frontBorder : Border C m v.front
  backBorder : Border C m v.back

/-- The frame is through: the back has the rows that it has not changed. -/
structure Rest (C : Setup) (v : View) (m : Mem) : Prop extends Kept C v m where
  front : ∀ y < resY, RowOn C v m v.front y
  back : ∀ y < resY, v.wasChanged y = false → RowOn C v m v.back y

/-- In front of the writes: the back lacks the rows that are to be written. -/
structure Expanded (C : Setup) (v : View) (m : Mem) : Prop extends Kept C v m where
  front : ∀ y < resY, v.wasChanged y = false → RowOn C v m v.front y
  back : ∀ y < resY, C.fbmap = true ∨ y ∉ v.writeRows → RowOn C v m v.back y

/-- Behind the writes: the back has it all. -/
structure Written (C : Setup) (v : View) (m : Mem) : Prop extends Kept C v m where
  front : ∀ y < resY, v.wasChanged y = false → RowOn C v m v.front y
  back : ∀ y < resY, RowOn C v m v.back y

/-- What holds of the rest of the state. -/
structure Sound (C : Setup) (s : St) : Prop where
  pat : ∀ i, ∀ b < C.scale3, s.pat i b = (s.palette i).byte (b % 3)
  colors : s.paletteChanged = false → s.colors = s.palette
  sorted : s.writeRows.Pairwise (· < ·)
  rows : ∀ y ∈ s.writeRows, y < resY
  flips : C.flip = true → s.back ≤ 1
  still : C.flip = false → s.back = 0 ∧ s.yoffset = 0

theorem flip_of_fbmap (h : C.fbmap = true) : C.flip = false := by
  unfold Setup.fbmap at h
  unfold Setup.flip Setup.flipFirst
  rw [Bool.and_eq_true] at h
  simp [h.1, h.2]

theorem front_of_still (h : C.flip = false) (s : St) : (view C s).front = s.back := by
  unfold view
  rw [h]
  rfl

theorem shows_of_rest {s : St} (h : Rest C (view C s) s.mem) (hoffset : s.yoffset = (view C s).front * C.yres) :
    Shows C s := by
  intro Y hY b hb
  have hloc : Loc.screen ((s.yoffset + Y) * C.lineLength + b) = pixel C (view C s).front Y b := by
    rw [hoffset, pixel]
  rw [hloc]
  rcases line_cases C Y with ⟨y, hy, r, hr, rfl⟩ | hborder
  · rw [picture_row _ _ hy hr]
    exact h.front y hy r hr b hb
  · rw [h.frontBorder Y hY hborder b hb, picture, if_neg fun h => hborder h.1]

/-! ## `DG_DrawFrame` -/

section Draw

variable {s : St} {frame : Frame}

/-- What the workers have stored when they come to the barrier. -/
def drawn (C : Setup) (s : St) (frame : Frame) : Mem :=
  moved (expandBand C (drawFrame C s frame).snap (drawFrame C s frame).pat (changed s frame)
    (drawFrame C s frame).writeRows) s.mem

theorem mem_writeRows {y : ℕ} : y ∈ (drawFrame C s frame).writeRows ↔
    y < resY ∧ (changed s frame y = true ∨ C.flip = true ∧ s.wasChanged y = true) := by
  simp [drawFrame]

theorem changed_eq_false {y : ℕ} (h : changed s frame y = false) :
    s.paletteChanged = false ∧ ∀ x < resX, frame y x = s.mem (.prev (y * resX + x)) := by
  rw [changed, Bool.or_eq_false_iff, List.any_eq_false] at h
  refine ⟨h.1, fun x hx => ?_⟩
  have hx' := h.2 x (List.mem_range.mpr hx)
  rwa [decide_eq_true_eq, not_not] at hx'

/-- A row that has not changed looks as before. -/
theorem rowByte_of_not_changed (hsound : Sound C s)
    (hprev : ∀ y < resY, ∀ x < resX, s.mem (.prev (y * resX + x)) = s.frame y x)
    {y : ℕ} (hy : y < resY) (h : changed s frame y = false) (b : ℕ) :
    rowByte C s.palette s.frame y b = rowByte C s.colors frame y b := by
  obtain ⟨hpalette, hrow⟩ := changed_eq_false h
  rw [hsound.colors hpalette]
  exact rowByte_congr (fun x hx => (hprev y hy x hx).symm.trans (hrow x hx).symm) b

theorem Sound.drawFrame (h : Sound C s) (frame : Frame) : Sound C (drawFrame C s frame) where
  pat i b hb := by
    show (if s.paletteChanged then repattern C s.colors s.pat else s.pat) i b = (s.colors i).byte (b % 3)
    split_ifs with hp
    · rw [repattern, if_pos hb]
    · rw [h.colors (Bool.not_eq_true _ ▸ hp)]
      exact h.pat i b hb
  colors _ := rfl
  sorted := List.pairwise_lt_range.filter _
  rows _ hy := (mem_writeRows.mp hy).1
  flips := h.flips
  still := h.still

/-- A line of a row after the expansion. -/
theorem drawn_place (hsound : Sound C s)
    (hprev : ∀ y < resY, ∀ x < resX, s.mem (.prev (y * resX + x)) = s.frame y x)
    {y r b : ℕ} (hy : y < resY) (hr : r < C.scale) (hb : b < C.lineLength)
    (h : s.mem (place C y r b) = rowByte C s.palette s.frame y b) :
    drawn C s frame (place C y r b) = rowByte C s.colors frame y b := by
  have hsound' := hsound.drawFrame frame
  rw [drawn, moved_expand_place (hsound'.sorted.imp Nat.ne_of_lt) hr hb]
  by_cases hc : changed s frame y = true
  · have hsnap : (drawFrame C s frame).snap y = frame y := if_pos hc
    rw [if_pos ⟨mem_writeRows.mpr ⟨hy, Or.inl hc⟩, hc⟩, moved_rowMoves_place hr hb, hsnap]
    unfold rowByte at h ⊢
    split_ifs at h ⊢ with hcol
    · have hthree : (b - C.x0 * 3) % C.scale3 % 3 = b % 3 := by
        rw [Framebuffer.scale3, Nat.mod_mul_left_mod]
        omega
      rw [hsound'.pat _ _ (Nat.mod_lt _ C.scale3_pos), hthree]
      rfl
    · exact h
  · rw [if_neg fun h => hc h.2, h]
    exact rowByte_of_not_changed hsound hprev hy (Bool.not_eq_true _ ▸ hc) b

/-- The lines above and below the rows, and with the slab the whole screen, are as before. -/
theorem drawn_pixel {f Y b : ℕ} (hY : Y < C.yres) (hb : b < C.lineLength)
    (h : C.fbmap = false ∨ ¬ (C.y0 ≤ Y ∧ Y < C.y0 + resY * C.scale)) :
    drawn C s frame (pixel C f Y b) = s.mem (pixel C f Y b) := by
  refine moved_expand_other (fun i heq => by simp [pixel] at heq) fun y hy r hr b' hb' heq => ?_
  have hlt := row_lt (C := C) (mem_writeRows.mp hy).1 hr
  rw [place] at heq
  split_ifs at heq with hmap
  · obtain ⟨-, hline, -⟩ := pixel_inj hY (hlt.trans_le C.rows_fit) hb hb' heq
    have hborder := h.resolve_left (by simp [hmap])
    omega
  · simp [pixel] at heq

/-- **The expansion.**  Behind it `prev` and the slab have the new frame. -/
theorem expanded_drawn (hsound : Sound C s) (h : Rest C (view C s) s.mem) (frame : Frame) :
    Expanded C (view C (drawFrame C s frame)) (drawn C s frame) := by
  have hsound' := hsound.drawFrame frame
  have hline := C.line
  have hfit := C.rows_fit
  -- an unchanged row that is on the screen stays there
  have hkeep : ∀ f, ∀ y < resY, changed s frame y = false → C.fbmap = false → RowOn C (view C s) s.mem f y →
      RowOn C (view C (drawFrame C s frame)) (drawn C s frame) f y := by
    intro f y hy hc hmap hon r hr b hb
    have hb' : b < C.lineLength := hb.trans_le hline
    rw [drawn_pixel ((row_lt hy hr).trans_le hfit) hb' (Or.inl hmap), hon r hr b hb]
    exact rowByte_of_not_changed hsound h.prev hy hc b
  have hmapped :
      C.fbmap = true → ∀ y < resY, RowOn C (view C (drawFrame C s frame)) (drawn C s frame) s.back y := by
    intro hmap y hy r hr b hb
    obtain ⟨hback, -⟩ := hsound.still (flip_of_fbmap hmap)
    have hplace : pixel C s.back (C.y0 + y * C.scale + r) b = place C y r b := by rw [place, if_pos hmap, hback]
    have hold := h.front y hy r hr b hb
    rw [front_of_still (flip_of_fbmap hmap)] at hold
    rw [hplace] at hold ⊢
    exact drawn_place hsound h.prev hy hr (hb.trans_le hline) hold
  refine ⟨⟨fun y hy x hx => ?_, fun hmap y hy r hr b hb => ?_, fun Y hY hborder b hb => ?_,
    fun Y hY hborder b hb => ?_⟩,
    fun y hy hc => ?_, fun y hy hw => ?_⟩
  · rw [drawn, moved_expand_prev (hsound'.sorted.imp Nat.ne_of_lt) hx]
    by_cases hc : changed s frame y = true
    · rw [if_pos ⟨mem_writeRows.mpr ⟨hy, Or.inl hc⟩, hc⟩]
      exact congrFun (if_pos hc) x
    · rw [if_neg fun h => hc h.2]
      exact ((changed_eq_false (Bool.not_eq_true _ ▸ hc)).2 x hx).symm
  · have hplace : Loc.framebuf ((y * C.scale + r) * C.lineLength + b) = place C y r b := by simp [place, hmap]
    rw [hplace]
    refine drawn_place hsound h.prev hy hr hb ?_
    rw [← hplace]
    exact h.slab hmap y hy r hr b hb
  · exact (drawn_pixel hY (hb.trans_le hline) (Or.inr hborder)).trans (h.frontBorder Y hY hborder b hb)
  · exact (drawn_pixel hY (hb.trans_le hline) (Or.inr hborder)).trans (h.backBorder Y hY hborder b hb)
  · by_cases hmap : C.fbmap = true
    · rw [front_of_still (flip_of_fbmap hmap)]
      exact hmapped hmap y hy
    · exact hkeep _ y hy hc (Bool.not_eq_true _ ▸ hmap) (h.front y hy)
  · by_cases hmap : C.fbmap = true
    · exact hmapped hmap y hy
    · have hno := mt mem_writeRows.mpr (hw.resolve_left hmap)
      simp only [not_and, not_or, hy, true_implies, Bool.not_eq_true] at hno
      refine hkeep _ y hy hno.1 (Bool.not_eq_true _ ▸ hmap) ?_
      by_cases hflip : C.flip = true
      · exact h.back y hy (hno.2 hflip)
      · have hon := h.front y hy
        rwa [front_of_still (Bool.not_eq_true _ ▸ hflip)] at hon

end Draw

/-! ## The writes and the pan -/

section Write

variable {s : St} {m : Mem}

theorem writes_nil (C : Setup) (back : ℕ) : writes C back [] = [] := by
  refine List.flatten_eq_nil_iff.mpr fun xs hxs => ?_
  obtain ⟨wi, -, rfl⟩ := List.mem_map.mp hxs
  simp [band, writeBand]

theorem not_screen_of_writes (hmap : C.fbmap = false) (hsound : Sound C s) {l : Loc} (hl : ∀ i, l ≠ .screen i) :
    moved (writes C s.back s.writeRows) m l = m l := by
  rcases moved_writes (m := m) s.back hmap hsound.sorted l with ⟨hsame, -⟩ | ⟨k, -, heq, -⟩
  · exact hsame
  · exact absurd heq (hl _)

/-- **The writes.**  Behind them the back has the whole frame. -/
theorem Expanded.written (hsound : Sound C s) (h : Expanded C (view C s) m) :
    Written C (view C s) (moved (writes C s.back s.writeRows) m) := by
  have hline := C.line
  have hfit := C.rows_fit
  by_cases hmap : C.fbmap = true
  · rw [writes_of_fbmap hmap, moved_nil]
    exact ⟨h.toKept, h.front, fun y hy => h.back y hy (Or.inl hmap)⟩
  · have hmap : C.fbmap = false := Bool.not_eq_true _ ▸ hmap
    -- a row that is on a frame stays there: what is written over it is the row from the slab
    have hkeep : ∀ f, ∀ y < resY, RowOn C (view C s) m f y →
        RowOn C (view C s) (moved (writes C s.back s.writeRows) m) f y := by
      intro f y hy hon r hr b hb
      rcases moved_writes_pixel (m := m) hmap hsound.sorted hsound.rows ((row_lt hy hr).trans_le hfit)
        (hb.trans_le hline)
        with hsame | ⟨-, y', hy', r', hr', heq, hval⟩
      · rw [hsame]
        exact hon r hr b hb
      · have hrow : y * C.scale + r = y' * C.scale + r' := by omega
        obtain ⟨rfl, rfl⟩ := line_inj hr hr' hrow
        rw [hval]
        exact h.slab hmap y hy r hr b (hb.trans_le hline)
    have hborder : ∀ f, Border C m f → Border C (moved (writes C s.back s.writeRows) m) f := by
      intro f hf Y hY hout b hb
      rcases moved_writes_pixel (m := m) hmap hsound.sorted hsound.rows hY (hb.trans_le hline)
        with hsame | ⟨-, y, hy, r, hr, heq, -⟩
      · rw [hsame]
        exact hf Y hY hout b hb
      · have hlt := row_lt (C := C) hy hr
        omega
    refine ⟨⟨fun y hy x hx => ?_, fun hmap y hy r hr b hb => ?_, hborder _ h.frontBorder, hborder _ h.backBorder⟩,
      fun y hy hc => hkeep _ y hy (h.front y hy hc), fun y hy => ?_⟩
    · rw [not_screen_of_writes hmap hsound (by simp)]
      exact h.prev y hy x hx
    · rw [not_screen_of_writes hmap hsound (by simp)]
      exact h.slab hmap y hy r hr b hb
    · by_cases hw : y ∈ s.writeRows
      · intro r hr b hb
        have hb' : b < C.lineLength := hb.trans_le hline
        exact (moved_writes_row hmap hsound.sorted hw hr hb').trans (h.slab hmap y hy r hr b hb')
      · exact hkeep _ y hy (h.back y hy (Or.inr hw))

/-- The state behind the pan. -/
def panned (C : Setup) (s : St) : St := { s with yoffset := s.back * C.yres, back := s.back ^^^ 1, phase := .done }

theorem xor_one {n : ℕ} (h : n ≤ 1) : n ^^^ 1 = 1 - n := by
  rcases Nat.le_one_iff_eq_zero_or_eq_one.mp h with rfl | rfl <;> rfl

theorem view_panned (hflip : C.flip = true) (hsound : Sound C s) :
    (view C (panned C s)).front = s.back ∧ (view C (panned C s)).back = (view C s).front := by
  have hle := hsound.flips hflip
  constructor
  · show (if C.flip then 1 - (s.back ^^^ 1) else s.back ^^^ 1) = s.back
    rw [if_pos hflip, xor_one hle]
    omega
  · show s.back ^^^ 1 = if C.flip then 1 - s.back else s.back
    rw [if_pos hflip, xor_one hle]

/-- **The pan.**  The back is in front. -/
theorem Written.panned (hflip : C.flip = true) (hsound : Sound C s) (h : Written C (view C s) m) :
    Rest C (view C (panned C s)) m := by
  obtain ⟨hfront, hback⟩ := view_panned hflip hsound
  refine ⟨⟨h.prev, h.slab, ?_, ?_⟩, ?_, ?_⟩
  · rw [hfront]
    exact h.backBorder
  · rw [hback]
    exact h.frontBorder
  · rw [hfront]
    exact h.back
  · rw [hback]
    exact h.front

/-- Where there is one frame only. -/
theorem Written.still (hflip : C.flip = false) (h : Written C (view C s) m) : Rest C (view C s) m := by
  refine ⟨h.toKept, fun y hy => ?_, fun y hy _ => h.back y hy⟩
  rw [front_of_still hflip]
  exact h.back y hy

end Write

/-! ## Every run -/

section Steps

variable {s s' : St}

/-- What holds between the steps; of the workers' stores, what it will be when all are done. -/
def Inv (C : Setup) (s : St) : Prop :=
  Sound C s ∧ match s.phase with
    | .idle => Rest C (view C s) s.mem
    | .expanding todo => Independent todo ∧ Expanded C (view C s) (moved todo.flatten s.mem)
    | .writing todo => Independent todo ∧ Written C (view C s) (moved todo.flatten s.mem)
    | .panning => C.flip = true ∧ Written C (view C s) s.mem
    | .done => Rest C (view C s) s.mem ∧ s.yoffset = (view C s).front * C.yres

/-- The worker's store leads to the same memory in the end. -/
theorem work_next {todo todo' : List (List (Move Loc UInt8))} {wi : ℕ} {a : Move Loc UInt8}
    (hind : Independent todo)
    (h : work todo wi = some (a, todo')) (m : Mem) :
    Independent todo' ∧ moved todo'.flatten (a.apply m) = moved todo.flatten m := by
  unfold work at h
  split at h
  · rename_i a' rest hwi
    rw [Option.some.injEq, Prod.mk.injEq] at h
    obtain ⟨rfl, rfl⟩ := h
    exact hind.next hwi m
  · cases h

theorem flatten_of_all_isEmpty {todo : List (List (Move Loc UInt8))} (h : todo.all List.isEmpty = true) :
    todo.flatten = [] :=
  List.flatten_eq_nil_iff.mpr fun xs hxs => List.isEmpty_iff.mp (List.all_eq_true.mp h xs hxs)

theorem inv_drawFrame (hsound : Sound C s) (h : Rest C (view C s) s.mem) (frame : Frame) :
    Inv C (drawFrame C s frame) := by
  have hsound' := hsound.drawFrame frame
  refine ⟨hsound', expand_independent hsound'.sorted, ?_⟩
  rw [expand_flatten]
  exact expanded_drawn hsound h frame

/-- The memory and the threads are about nothing else. -/
theorem Sound.at (h : Sound C s) (m : Mem) (phase : Phase) : Sound C { s with mem := m, phase } :=
  ⟨h.pat, h.colors, h.sorted, h.rows, h.flips, h.still⟩

theorem Inv.palette (h : Inv C s) (colors : Palette) : Inv C { s with colors, paletteChanged := true } := by
  obtain ⟨hsound, hphase⟩ := h
  exact ⟨⟨hsound.pat, nofun, hsound.sorted, hsound.rows, hsound.flips, hsound.still⟩, hphase⟩

theorem Inv.draw (h : Inv C s) {frame : Frame} (hs : step C s (.draw frame) = some s') : Inv C s' := by
  obtain ⟨hsound, hphase⟩ := h
  rw [Doom.step] at hs
  split at hs <;> rename_i hp
  · rw [hp] at hphase
    cases hs
    exact inv_drawFrame hsound hphase frame
  · rw [hp] at hphase
    cases hs
    exact inv_drawFrame hsound hphase.1 frame
  · cases hs

theorem Inv.work (h : Inv C s) {wi : ℕ} (hs : step C s (.work wi) = some s') : Inv C s' := by
  obtain ⟨hsound, hphase⟩ := h
  rw [Doom.step] at hs
  split at hs <;> rename_i hp
  · rw [hp] at hphase
    obtain ⟨⟨a, todo'⟩, hwork, rfl⟩ := Option.map_eq_some_iff.mp hs
    obtain ⟨hind, hsame⟩ := work_next hphase.1 hwork s.mem
    refine ⟨hsound.at _ _, hind, ?_⟩
    rw [hsame]
    exact hphase.2
  · rw [hp] at hphase
    obtain ⟨⟨a, todo'⟩, hwork, rfl⟩ := Option.map_eq_some_iff.mp hs
    obtain ⟨hind, hsame⟩ := work_next hphase.1 hwork s.mem
    refine ⟨hsound.at _ _, hind, ?_⟩
    rw [hsame]
    exact hphase.2
  · cases hs

theorem Inv.barrier (h : Inv C s) (hs : step C s .barrier = some s') : Inv C s' := by
  obtain ⟨hsound, hphase⟩ := h
  rw [Doom.step] at hs
  split at hs <;> rename_i hp
  · -- all rows are expanded
    rw [hp] at hphase
    obtain ⟨hall, hs⟩ := Option.ite_none_right_eq_some.mp hs
    cases hs
    have hexpanded := hphase.2
    rw [flatten_of_all_isEmpty hall, moved_nil] at hexpanded
    have hwritten := hexpanded.written hsound
    exact ⟨hsound.at _ _, write_independent hsound.sorted, hwritten⟩
  · -- all writes have landed
    rw [hp] at hphase
    obtain ⟨hall, hs⟩ := Option.ite_none_right_eq_some.mp hs
    have hwritten := hphase.2
    rw [flatten_of_all_isEmpty hall, moved_nil] at hwritten
    by_cases hflip : C.flip = true
    · rw [if_pos hflip] at hs
      cases hs
      exact ⟨hsound.at _ _, hflip, hwritten⟩
    · rw [if_neg hflip] at hs
      cases hs
      have hflip : C.flip = false := Bool.not_eq_true _ ▸ hflip
      obtain ⟨hback, hoffset⟩ := hsound.still hflip
      refine ⟨hsound.at _ _, hwritten.still hflip, ?_⟩
      rw [front_of_still hflip]
      show s.yoffset = s.back * C.yres
      rw [hback, hoffset, Nat.zero_mul]
  · cases hs

theorem Inv.pan (h : Inv C s) (hs : step C s .pan = some s') : Inv C s' := by
  obtain ⟨hsound, hphase⟩ := h
  rw [Doom.step] at hs
  split at hs <;> rename_i hp
  · rw [hp] at hphase
    cases hs
    obtain ⟨hflip, hwritten⟩ := hphase
    have hview := view_panned hflip hsound
    refine ⟨⟨hsound.pat, hsound.colors, hsound.sorted, hsound.rows, fun _ => ?_, fun h => ?_⟩,
      hwritten.panned hflip hsound, ?_⟩
    · show s.back ^^^ 1 ≤ 1
      rw [xor_one (hsound.flips hflip)]
      omega
    · rw [hflip] at h
      cases h
    · show s.back * C.yres = (view C (panned C s)).front * C.yres
      rw [hview.1]
  · cases hs

/-- **A step.** -/
theorem Inv.step {e : Event} (h : Inv C s) (hs : step C s e = some s') : Inv C s' := by
  cases e with
  | palette colors =>
    cases hs
    exact h.palette colors
  | draw frame => exact h.draw hs
  | work wi => exact h.work hs
  | barrier => exact h.barrier hs
  | pan => exact h.pan hs

end Steps

/-! ## `DG_Init` -/

section Init

variable {content : ℕ → UInt8}

theorem mem_letterbox {a : Move Loc UInt8} : a ∈ letterbox C ↔ ∃ k j,
    k < (C.letterboxLines + resY * C.scale - 1) / (resY * C.scale) ∧
    j < min (C.letterboxLines - k * (resY * C.scale)) (resY * C.scale) * C.lineLength ∧
    a = ⟨.screen (k * (resY * C.scale) * C.lineLength + j), .inr (.framebuf j)⟩ := by
  simp only [letterbox, List.mem_flatMap, List.mem_map, List.mem_range]
  constructor
  · rintro ⟨k, hk, j, hj, rfl⟩
    exact ⟨k, j, hk, hj, rfl⟩
  · rintro ⟨k, j, hk, hj, rfl⟩
    exact ⟨k, hk, j, hj, rfl⟩

/-- The steps of the first pass cover the lines, and no others. -/
theorem screen_mem_letterbox {i : ℕ} :
    .screen i ∈ (letterbox C).map Move.dst ↔ i < C.letterboxLines * C.lineLength := by
  have hstep : 0 < resY * C.scale := Nat.mul_pos (by decide) C.scale_pos
  have hpos := C.lineLength_pos
  constructor
  · intro h
    obtain ⟨a, ha, heq⟩ := List.mem_map.mp h
    obtain ⟨k, j, -, hj, rfl⟩ := mem_letterbox.mp ha
    obtain rfl : k * (resY * C.scale) * C.lineLength + j = i := Loc.screen.inj heq
    have hline : j / C.lineLength < C.letterboxLines - k * (resY * C.scale) :=
      ((Nat.div_lt_iff_lt_mul hpos).mpr hj).trans_le (Nat.min_le_left _ _)
    rw [← Nat.div_lt_iff_lt_mul hpos, Nat.mul_comm, Nat.mul_add_div hpos]
    exact Nat.add_lt_of_lt_sub' hline
  · intro hi
    have hline : i / C.lineLength < C.letterboxLines := (Nat.div_lt_iff_lt_mul hpos).mpr hi
    have hmod : i / C.lineLength % (resY * C.scale) < resY * C.scale := Nat.mod_lt _ hstep
    have hdiv := Nat.div_add_mod' (i / C.lineLength) (resY * C.scale)
    have hcol : i % C.lineLength < C.lineLength := Nat.mod_lt _ hpos
    refine List.mem_map.mpr ⟨_, mem_letterbox.mpr ⟨i / C.lineLength / (resY * C.scale),
      i / C.lineLength % (resY * C.scale) * C.lineLength + i % C.lineLength, ?_, ?_, rfl⟩, ?_⟩
    · rw [Nat.lt_iff_add_one_le, Nat.le_div_iff_mul_le hstep, Nat.succ_mul]
      omega
    · rw [← Nat.div_lt_iff_lt_mul hpos, div_of_lt hcol]
      omega
    · rw [Loc.screen.injEq, ← Nat.add_assoc, ← Nat.add_mul, hdiv, Nat.div_add_mod']

theorem init_screen (i : ℕ) : (init C content).mem (.screen i) =
    if i < C.letterboxLines * C.lineLength then 0 else content i := by
  show moved (letterbox C) (cleared content) (.screen i) = _
  split_ifs with h
  · refine moved_of_mem (fun a ha l hl hmem => ?_) (fun a ha _ => ?_) (screen_mem_letterbox.mpr h)
    · obtain ⟨k, j, -, -, rfl⟩ := mem_letterbox.mp ha
      obtain ⟨b, hb, heq⟩ := List.mem_map.mp hmem
      obtain ⟨k', j', -, -, rfl⟩ := mem_letterbox.mp hb
      cases hl
      cases heq
    · obtain ⟨k, j, -, -, rfl⟩ := mem_letterbox.mp ha
      rfl
  · exact moved_of_not_mem (mt screen_mem_letterbox.mp h)

theorem init_line (n : ℕ) {b : ℕ} (hb : b < C.lineLength) : (init C content).mem (.screen (n * C.lineLength + b)) =
    if n < C.letterboxLines then 0 else content (n * C.lineLength + b) := by
  rw [init_screen]
  refine if_congr ?_ rfl rfl
  rw [← Nat.div_lt_iff_lt_mul C.lineLength_pos, div_of_lt hb]

theorem init_other {l : Loc} (hl : ∀ i, l ≠ .screen i) : (init C content).mem l = 0 := by
  have hno : l ∉ (letterbox C).map Move.dst := by
    intro h
    obtain ⟨a, ha, heq⟩ := List.mem_map.mp h
    obtain ⟨k, j, -, -, rfl⟩ := mem_letterbox.mp ha
    exact hl _ heq.symm
  refine (moved_of_not_mem hno).trans ?_
  cases l with
  | prev i => rfl
  | framebuf i => rfl
  | screen i => exact absurd rfl (hl i)

/-- The second frame of the screen is black, where a mapping that has failed brings it into use. -/
def Blank (C : Setup) (content : ℕ → UInt8) : Prop :=
  C.wantMmap = true → C.mmapOk = false → C.two = true →
    ∀ Y < C.yres, ∀ b < 3 * C.xres, content ((C.yres + Y) * C.lineLength + b) = 0

theorem flip_of_flipFirst (h : C.flipFirst = true) : C.flip = true := by
  unfold Setup.flipFirst at h
  rw [Bool.and_eq_true, Bool.not_eq_true'] at h
  unfold Setup.flip Setup.flipFirst
  simp [h.1, h.2]

theorem fell_back (hflip : C.flip = true) (h : C.flipFirst = false) :
    C.wantMmap = true ∧ C.mmapOk = false ∧ C.two = true := by
  unfold Setup.flip at hflip
  split_ifs at hflip with hfail
  · rw [Bool.and_eq_true, Bool.not_eq_true'] at hfail
    exact ⟨hfail.1, hfail.2, hflip⟩
  · rw [h] at hflip
    cases hflip

/-- What is black when the game starts. -/
theorem init_pixel (hblank : Blank C content) {f : ℕ} (hf : f = 0 ∨ f = 1 ∧ C.flip = true) {Y b : ℕ}
    (hY : Y < C.yres)
    (hb : b < 3 * C.xres) : (init C content).mem (pixel C f Y b) = 0 := by
  have hb' : b < C.lineLength := hb.trans_le C.line
  rw [pixel, init_line _ hb', Setup.letterboxLines]
  rcases hf with rfl | ⟨rfl, hflip⟩
  · rw [if_pos]
    split_ifs <;> omega
  · by_cases hfirst : C.flipFirst = true
    · rw [if_pos hfirst, if_pos (by omega)]
    · rw [if_neg hfirst, if_neg (by omega), Nat.one_mul]
      obtain ⟨hwant, hfail, htwo⟩ := fell_back hflip (Bool.not_eq_true _ ▸ hfirst)
      exact hblank hwant hfail htwo Y hY b hb

theorem Inv.init (hblank : Blank C content) : Inv C (init C content) := by
  have hfirst : C.backFirst = 0 ∨ C.backFirst = 1 ∧ C.flip = true := by
    unfold Setup.backFirst
    split_ifs with h
    · exact Or.inr ⟨rfl, flip_of_flipFirst h⟩
    · exact Or.inl rfl
  have hback : (view C (Doom.init C content)).back = 0 ∨ (view C (Doom.init C content)).back = 1 ∧
    C.flip = true := hfirst
  have hfront : (view C (Doom.init C content)).front = 0 ∨ (view C (Doom.init C content)).front = 1 ∧
      C.flip = true := by
    show (if C.flip then 1 - C.backFirst else C.backFirst) = 0 ∨ (if C.flip then 1 - C.backFirst
      else C.backFirst) = 1 ∧ _
    split_ifs with h
    · rcases hfirst with h0 | ⟨h1, -⟩
      · exact Or.inr ⟨by rw [h0], h⟩
      · exact Or.inl (by rw [h1])
    · exact hfirst
  have hrow : ∀ {f : ℕ}, f = 0 ∨ f = 1 ∧ C.flip = true → ∀ y < resY,
      RowOn C (view C (Doom.init C content)) (Doom.init C content).mem f y := by
    intro f hf y hy r hr b hb
    rw [init_pixel hblank hf ((row_lt hy hr).trans_le C.rows_fit) hb]
    exact (rowByte_black _ y b).symm
  refine ⟨⟨fun i b _ => ?_, fun _ => rfl, List.Pairwise.nil, nofun, fun _ => ?_, fun h => ⟨?_, rfl⟩⟩,
    ⟨fun y _ x _ => init_other (by simp), fun _ y _ r _ b _ => ?_, fun Y hY _ b hb =>
      init_pixel hblank hfront hY hb,
      fun Y hY _ b hb => init_pixel hblank hback hY hb⟩, hrow hfront, fun y hy _ => hrow hback y hy⟩
  · exact (byte_black _).symm
  · show C.backFirst ≤ 1
    omega
  · refine hfirst.resolve_right fun h1 => ?_
    rw [h] at h1
    cases h1.2
  · rw [init_other (by simp)]
    exact (rowByte_black _ y b).symm

end Init

/-! ## A frame gets through -/

section Finish

variable {s₀ s : St}

/-- The states of the runs from `s₀`. -/
abbrev Reach (C : Setup) (s₀ s : St) : Prop := Run.Reach (step C) (fun _ _ => True) s₀ s

/-- The workers store what they have to, one after the other. -/
theorem reach_work {phase : List (List (Move Loc UInt8)) → Phase} (hphase : phase = .expanding ∨ phase = .writing)
    (rest pre : List (List (Move Loc UInt8))) (hr : Reach C s₀ s) (hs : s.phase = phase (pre ++ rest)) :
    Reach C s₀ { s with mem := moved rest.flatten s.mem, phase := phase (pre ++ rest.map fun _ => []) } := by
  induction rest generalizing pre s with
  | nil =>
    rw [List.map_nil, ← hs]
    exact hr
  | cons xs rest ih =>
    induction xs generalizing s with
    | nil =>
      have hdone := ih (pre ++ [[]]) hr (by rw [hs, List.append_assoc, List.singleton_append])
      rw [List.append_assoc, List.singleton_append] at hdone
      exact hdone
    | cons a xs ihxs =>
      have hwork : work (pre ++ (a :: xs) :: rest) pre.length = some (a, pre ++ xs :: rest) := by
        have hset : (pre ++ (a :: xs) :: rest).set pre.length xs = pre ++ xs :: rest := by
          rw [List.set_append_right _ _ (Nat.le_refl _), Nat.sub_self, List.set_cons_zero]
        rw [work, List.getElem?_append_right (Nat.le_refl _), Nat.sub_self, List.getElem?_cons_zero, ← hset]
      have hstep : step C s (.work pre.length) =
          some { s with mem := a.apply s.mem, phase := phase (pre ++ xs :: rest) } := by
        rcases hphase with rfl | rfl
        · simp only [step, hs, hwork, Option.map_some]
        · simp only [step, hs, hwork, Option.map_some]
      exact ihxs (hr.next trivial hstep) rfl

/-- The state when the frame is through. -/
def finished (C : Setup) (s : St) (m : Mem) : St :=
  let s := { s with mem := moved (writes C s.back s.writeRows) m, phase := .done }
  if C.flip then panned C s else s

theorem all_isEmpty (todo : List (List (Move Loc UInt8))) :
    (todo.map fun _ => ([] : List (Move Loc UInt8))).all List.isEmpty = true := by
  rw [List.all_map]
  exact List.all_eq_true.mpr fun _ _ => rfl

theorem step_barrier_expanding {todo : List (List (Move Loc UInt8))} (hs : s.phase = .expanding todo)
    (hall : todo.all List.isEmpty = true) : step C s .barrier = some { s with
      phase := .writing ((List.range C.nworkers).map fun wi =>
        writeBand C s.back (band s.writeRows C.nworkers wi)) } := by
  simp only [step, hs, hall, if_true]

theorem step_barrier_writing {todo : List (List (Move Loc UInt8))} (hs : s.phase = .writing todo)
    (hall : todo.all List.isEmpty = true) :
    step C s .barrier = some { s with phase := if C.flip then .panning else .done } := by
  simp only [step, hs, hall, if_true]

/-- **A frame gets through.**  No barrier waits for ever. -/
theorem reach_finished {todo : List (List (Move Loc UInt8))} (hr : Reach C s₀ s) (hs : s.phase = .expanding todo) :
    Reach C s₀ (finished C s (moved todo.flatten s.mem)) := by
  have hexpanded := reach_work (Or.inl rfl) todo [] hr hs
  have hwriting := hexpanded.next trivial (step_barrier_expanding rfl (all_isEmpty todo))
  have hwritten := reach_work (Or.inr rfl) _ [] hwriting rfl
  have hdone := hwritten.next trivial (step_barrier_writing rfl (all_isEmpty _))
  unfold finished
  by_cases hflip : C.flip = true
  · rw [if_pos hflip] at hdone
    rw [if_pos hflip]
    exact hdone.next (e := .pan) trivial rfl
  · rw [if_neg hflip] at hdone
    rw [if_neg hflip]
    exact hdone

/-! ## The second frame -/

/-- Nothing has been drawn but black. -/
structure Quiet (m : Mem) (s : St) : Prop where
  phase : s.phase = .idle ∨ s.phase = .done
  mem : s.mem = m
  paletteChanged : s.paletteChanged = false
  wasChanged : ∀ y, s.wasChanged y = false
  colors : s.colors = fun _ => ⟨0, 0, 0⟩

/-- Another black frame: nothing is stored, and the frames of the screen change places. -/
theorem Quiet.next {m : Mem} (hflip : C.flip = true) (hm : ∀ i, m (.prev i) = 0) (hr : Reach C s₀ s)
    (h : Quiet m s) :
    ∃ s', Reach C s₀ s' ∧ Quiet m s' ∧ s'.phase = .done ∧ s'.palette = (fun _ => ⟨0, 0, 0⟩) ∧
      s'.back = s.back ^^^ 1 ∧ s'.yoffset = s.back * C.yres := by
  let frame : Frame := fun _ _ => 0
  have hchanged : ∀ y, changed s frame y = false := by
    intro y
    rw [changed, h.paletteChanged, h.mem, Bool.false_or, List.any_eq_false]
    intro x _
    rw [hm, decide_eq_true_eq, not_not]
  have hrows : (drawFrame C s frame).writeRows = [] := by
    refine List.filter_eq_nil_iff.mpr fun y _ => ?_
    rw [hchanged, h.wasChanged, Bool.and_false]
    exact Bool.false_ne_true
  have hstep : step C s (.draw frame) = some (drawFrame C s frame) := by
    rcases h.phase with hp | hp <;> simp only [step, hp]
  have hreach := reach_finished (hr.next trivial hstep) rfl
  rw [expand_flatten] at hreach
  change Reach C s₀ (finished C (drawFrame C s frame) (drawn C s frame)) at hreach
  have hdrawn : drawn C s frame = m := by
    rw [drawn, hrows, ← h.mem]
    rfl
  rw [hdrawn, finished, if_pos hflip, hrows, writes_nil] at hreach
  exact ⟨_, hreach, ⟨Or.inr rfl, rfl, rfl, hchanged, h.colors⟩, rfl, h.colors, rfl, rfl⟩

/-- The second frame of the screen comes to be seen as it was. -/
theorem reach_second (content : ℕ → UInt8) (hwant : C.wantMmap = true) (hfail : C.mmapOk = false)
    (htwo : C.two = true) :
    ∃ s, Reach C (init C content) s ∧ s.phase = .done ∧ s.palette = (fun _ => ⟨0, 0, 0⟩) ∧
      ∀ Y < C.yres, ∀ b < 3 * C.xres,
        s.mem (.screen ((s.yoffset + Y) * C.lineLength + b)) = content ((C.yres + Y) * C.lineLength + b) := by
  have hflip : C.flip = true := by simp [Setup.flip, hwant, hfail, htwo]
  have hfirst : C.flipFirst = false := by simp [Setup.flipFirst, hwant]
  have hback : (init C content).back = 0 := by simp [init, Setup.backFirst, hfirst]
  have hzero : ∀ i, (init C content).mem (.prev i) = 0 := fun i => init_other (by simp)
  have hquiet : Quiet (init C content).mem (init C content) := ⟨Or.inl rfl, rfl, rfl, fun _ => rfl, rfl⟩
  obtain ⟨s₁, hr₁, hquiet₁, -, -, hback₁, -⟩ := hquiet.next hflip hzero .start
  obtain ⟨s₂, hr₂, hquiet₂, hdone, hpalette, -, hoffset⟩ := hquiet₁.next hflip hzero hr₁
  have hyres : s₂.yoffset = C.yres := by
    rw [hoffset, hback₁, hback]
    exact Nat.one_mul _
  refine ⟨s₂, hr₂, hdone, hpalette, fun Y hY b hb => ?_⟩
  rw [hquiet₂.mem, hyres, init_line _ (hb.trans_le C.line), if_neg]
  rw [Setup.letterboxLines, hfirst]
  simp

end Finish

/-! ## What is shown -/

/-- **Each frame that is done is shown**, in every run, exactly when the second frame of the screen is black
wherever a failed mapping brings it into use: the letterbox was drawn before the mapping failed, and on the first
frame only. -/
theorem shows_iff (C : Setup) (content : ℕ → UInt8) :
    (∀ s, Reach C (init C content) s → s.phase = .done → Shows C s) ↔ Blank C content := by
  constructor
  · intro h hwant hfail htwo Y hY b hb
    obtain ⟨s, hr, hdone, hpalette, hsecond⟩ := reach_second content hwant hfail htwo
    rw [← hsecond Y hY b hb, h s hr hdone Y hY b hb, hpalette, picture_black]
  · intro hblank s hr hdone
    have hinv : Inv C s := hr.invariant (Inv.init hblank) fun _ _ _ h _ hs => h.step hs
    obtain ⟨-, hphase⟩ := hinv
    rw [hdone] at hphase
    exact shows_of_rest hphase.1 hphase.2

/-- A screen of 1280 by 720 with room for two frames, and a mapping that fails. -/
def unmapped : Setup where
  xres := 1280
  yres := 720
  yresVirtual := 1440
  lineLength := 3840
  smemLen := 5529600
  wide := by decide
  tall := by decide
  line := by decide
  virt := by decide
  size := by decide
  word := by decide
  wantMmap := true
  mmapOk := false
  ncpu := 2

/-- What was on the second frame is seen above the second picture. -/
theorem unmapped_not_shown :
    ¬ ∀ s, Reach unmapped (init unmapped fun _ => 255) s → s.phase = .done → Shows unmapped s := by
  intro h
  obtain ⟨s, hr, hdone, hpalette, hsecond⟩ := reach_second (C := unmapped) (fun _ => 255) rfl rfl rfl
  have hbyte := h s hr hdone 0 (by decide) 0 (by decide)
  rw [hsecond 0 (by decide) 0 (by decide), hpalette, picture_black] at hbyte
  cases hbyte

end Soceteer.Doom
