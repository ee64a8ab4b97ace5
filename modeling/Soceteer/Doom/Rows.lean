import Soceteer.Doom.Blit

/-!
# Soceteer.Doom.Rows — what the workers make of the memory

* `pixel`, `place`: the bytes of the screen, and those that a row is expanded to.
* `rowOf`: the row that a byte is about; `moved_expandBand`: a row depends on its own stores only.
* `band_flatten`: the workers share the rows; `expand_independent`, `write_independent`: their stores do not meet.
* `moved_expand_place`, `moved_writes_pixel`, `moved_writes_row`: the bytes at each barrier.
-/

namespace Soceteer.Doom

open Soceteer.Lib

variable {C : Setup}

/-! ## Geometry -/

namespace Framebuffer

variable (fb : Framebuffer)

theorem scale_pos : 0 < fb.scale := by
  have hx : 0 < fb.xres / resX := Nat.div_pos fb.wide (by decide)
  have hy : 0 < fb.yres / resY := Nat.div_pos fb.tall (by decide)
  unfold scale
  dsimp only
  split_ifs <;> omega

theorem scale_le : fb.scale ≤ fb.xres / resX ∧ fb.scale ≤ fb.yres / resY := by
  unfold scale
  dsimp only
  split_ifs <;> omega

theorem rows_fit : fb.y0 + resY * fb.scale ≤ fb.yres := by
  have hle : resY * fb.scale ≤ fb.yres := by
    rw [Nat.mul_comm]
    exact (Nat.le_div_iff_mul_le (by decide)).mp fb.scale_le.2
  unfold y0
  omega

theorem columns_fit : fb.x0 * 3 + resX * fb.scale3 ≤ 3 * fb.xres := by
  have hle : resX * fb.scale ≤ fb.xres := by
    rw [Nat.mul_comm]
    exact (Nat.le_div_iff_mul_le (by decide)).mp fb.scale_le.1
  have hmul : resX * fb.scale3 = resX * fb.scale * 3 := (Nat.mul_assoc _ _ _).symm
  unfold x0
  omega

theorem scale3_pos : 0 < fb.scale3 := Nat.mul_pos fb.scale_pos (by decide)

theorem lineLength_pos : 0 < fb.lineLength := by
  have hline := fb.line
  have hwide := fb.wide
  unfold resX at hwide
  omega

end Framebuffer

/-- Byte `b` of line `Y` of a frame of the screen. -/
def pixel (C : Setup) (f Y b : ℕ) : Loc := .screen ((f * C.yres + Y) * C.lineLength + b)

/-- Byte `b` of line `r` of row `y`, where the row is expanded to. -/
def place (C : Setup) (y r b : ℕ) : Loc :=
  if C.fbmap then pixel C 0 (C.y0 + y * C.scale + r) b else .framebuf ((y * C.scale + r) * C.lineLength + b)

/-- The row that a byte is about. -/
def rowOf (C : Setup) : Loc → ℕ
  | .prev i => i / resX
  | .framebuf i => i / (C.scale * C.lineLength)
  | .screen i => (i / C.lineLength - C.y0) / C.scale

theorem div_of_lt {a n k : ℕ} (h : k < n) : (a * n + k) / n = a := by
  rw [Nat.mul_comm, Nat.mul_add_div (by omega), Nat.div_eq_of_lt h, Nat.add_zero]

theorem line_inj {n a a' k k' : ℕ} (hk : k < n) (hk' : k' < n) (h : a * n + k = a' * n + k') :
    a = a' ∧ k = k' := by
  have hdiv : a = a' := by rw [← div_of_lt (a := a) hk, h, div_of_lt hk']
  subst hdiv
  exact ⟨rfl, Nat.add_left_cancel h⟩

theorem pixel_inj {f f' Y Y' b b' : ℕ} (hY : Y < C.yres) (hY' : Y' < C.yres) (hb : b < C.lineLength)
    (hb' : b' < C.lineLength)
    (h : pixel C f Y b = pixel C f' Y' b') : f = f' ∧ Y = Y' ∧ b = b' := by
  rw [pixel, pixel, Loc.screen.injEq] at h
  obtain ⟨hline, hcol⟩ := line_inj hb hb' h
  obtain ⟨hf, hY⟩ := line_inj hY hY' hline
  exact ⟨hf, hY, hcol⟩

/-- The lines of the rows are on the screen. -/
theorem row_lt {y r : ℕ} (hy : y < resY) (hr : r < C.scale) : C.y0 + y * C.scale + r < C.y0 + resY * C.scale := by
  have hle : (y + 1) * C.scale ≤ resY * C.scale := Nat.mul_le_mul_right _ hy
  rw [Nat.succ_mul] at hle
  omega

theorem rowOf_prev (y : ℕ) {x : ℕ} (hx : x < resX) : rowOf C (.prev (y * resX + x)) = y := div_of_lt hx

theorem rowOf_framebuf (y : ℕ) {r b : ℕ} (hr : r < C.scale) (hb : b < C.lineLength) :
    rowOf C (.framebuf ((y * C.scale + r) * C.lineLength + b)) = y := by
  have hlt : r * C.lineLength + b < C.scale * C.lineLength := by
    have hle : (r + 1) * C.lineLength ≤ C.scale * C.lineLength := Nat.mul_le_mul_right _ hr
    rw [Nat.succ_mul] at hle
    omega
  have heq : (y * C.scale + r) * C.lineLength + b = y * (C.scale * C.lineLength) + (r * C.lineLength + b) := by
    ring
  rw [rowOf, heq, div_of_lt hlt]

theorem rowOf_pixel (y : ℕ) {r b : ℕ} (hr : r < C.scale) (hb : b < C.lineLength) :
    rowOf C (pixel C 0 (C.y0 + y * C.scale + r) b) = y := by
  rw [pixel, rowOf, div_of_lt hb, Nat.zero_mul, Nat.zero_add, Nat.add_assoc, Nat.add_sub_cancel_left, div_of_lt hr]

theorem rowOf_place (y : ℕ) {r b : ℕ} (hr : r < C.scale) (hb : b < C.lineLength) :
    rowOf C (place C y r b) = y := by
  unfold place
  split_ifs
  · exact rowOf_pixel y hr hb
  · exact rowOf_framebuf y hr hb

/-- The bytes of a line, wherever it is. -/
theorem lineLoc_eq (y r j : ℕ) : lineLoc C y (r * C.lineLength + j) = place C y r (C.x0 * 3 + j) := by
  unfold lineLoc place pixel
  split_ifs
  · congr 1
    ring
  · congr 1
    ring

theorem lineLoc_injective (y : ℕ) : Function.Injective (lineLoc C y) := by
  intro a b h
  unfold lineLoc at h
  split_ifs at h
  · rw [Loc.screen.injEq] at h
    omega
  · rw [Loc.framebuf.injEq] at h
    omega

theorem column_lt {j : ℕ} (hj : j < resX * C.scale3) : C.x0 * 3 + j < C.lineLength := by
  have hfit := C.columns_fit
  have hline := C.line
  omega

theorem rowOf_lineLoc (y : ℕ) {r j : ℕ} (hr : r < C.scale) (hj : j < resX * C.scale3) :
    rowOf C (lineLoc C y (r * C.lineLength + j)) = y := by
  rw [lineLoc_eq]
  exact rowOf_place y hr (column_lt hj)

/-! ## A row -/

section Row

variable {snap : Frame} {pat : Patterns} {y : ℕ} {m : Mem}

theorem mem_patMoves {a : Move Loc UInt8} : a ∈ patMoves C snap pat y ↔
    ∃ j < resX * C.scale3, a = ⟨lineLoc C y j, .inl (pat (snap y (j / C.scale3)) (j % C.scale3))⟩ := by
  have hpos := C.scale3_pos
  simp only [patMoves, List.mem_flatMap, List.mem_map, List.mem_range]
  constructor
  · rintro ⟨x, hx, b, hb, rfl⟩
    have hlt : (x + 1) * C.scale3 ≤ resX * C.scale3 := Nat.mul_le_mul_right _ hx
    rw [Nat.succ_mul] at hlt
    refine ⟨x * C.scale3 + b, by omega, ?_⟩
    rw [div_of_lt hb, Nat.mul_add_mod_self_right, Nat.mod_eq_of_lt hb]
  · rintro ⟨j, hj, rfl⟩
    refine ⟨j / C.scale3, (Nat.div_lt_iff_lt_mul hpos).mpr hj, j % C.scale3, Nat.mod_lt _ hpos, ?_⟩
    rw [Nat.div_add_mod' j C.scale3]

theorem mem_copyMoves {a : Move Loc UInt8} : a ∈ copyMoves C y ↔ ∃ r j, 1 ≤ r ∧ r < C.scale ∧ j < resX * C.scale3 ∧
    a = ⟨lineLoc C y (r * C.lineLength + j), .inr (lineLoc C y j)⟩ := by
  have hpos := C.scale_pos
  simp only [copyMoves, List.mem_flatMap, List.mem_map, List.mem_range, List.mem_range'_1]
  constructor
  · rintro ⟨r, ⟨hr1, hr⟩, j, hj, rfl⟩
    exact ⟨r, j, hr1, by omega, hj, rfl⟩
  · rintro ⟨r, j, hr1, hr, hj, rfl⟩
    exact ⟨r, ⟨hr1, by omega⟩, j, hj, rfl⟩

theorem lineLoc_ne_prev (y off i : ℕ) : lineLoc C y off ≠ .prev i := by
  unfold lineLoc
  split_ifs <;> simp

theorem place_ne_prev (y r b i : ℕ) : place C y r b ≠ .prev i := by
  unfold place
  split_ifs <;> simp [pixel]

theorem place_inj {r r' b b' : ℕ} (hb : b < C.lineLength) (hb' : b' < C.lineLength)
    (h : place C y r b = place C y r' b') :
    r = r' ∧ b = b' := by
  unfold place at h
  split_ifs at h
  · rw [pixel, pixel, Loc.screen.injEq] at h
    obtain ⟨hline, hcol⟩ := line_inj hb hb' h
    exact ⟨by omega, hcol⟩
  · rw [Loc.framebuf.injEq] at h
    obtain ⟨hline, hcol⟩ := line_inj hb hb' h
    exact ⟨by omega, hcol⟩

/-- The first line is not among the copies. -/
theorem first_not_copied {j : ℕ} (hj : j < resX * C.scale3) : lineLoc C y j ∉ (copyMoves C y).map Move.dst := by
  intro hmem
  obtain ⟨a, ha, heq⟩ := List.mem_map.mp hmem
  obtain ⟨r, j', hr1, -, -, rfl⟩ := mem_copyMoves.mp ha
  have hoff := lineLoc_injective y heq
  have hlt := @column_lt C j hj
  have hle : C.lineLength ≤ r * C.lineLength := Nat.le_mul_of_pos_left _ hr1
  omega

theorem moved_patMoves {j : ℕ} (hj : j < resX * C.scale3) :
    moved (patMoves C snap pat y) m (lineLoc C y j) = pat (snap y (j / C.scale3)) (j % C.scale3) := by
  refine moved_of_mem (fun a ha l hl => ?_) (fun a ha hdst => ?_) ?_
  · obtain ⟨j', -, rfl⟩ := mem_patMoves.mp ha
    cases hl
  · obtain ⟨j', -, rfl⟩ := mem_patMoves.mp ha
    obtain rfl := lineLoc_injective y hdst
    rfl
  · exact List.mem_map.mpr ⟨_, mem_patMoves.mpr ⟨j, hj, rfl⟩, rfl⟩

theorem moved_copyMoves {r j : ℕ} (hr1 : 1 ≤ r) (hr : r < C.scale) (hj : j < resX * C.scale3) :
    moved (copyMoves C y) m (lineLoc C y (r * C.lineLength + j)) = m (lineLoc C y j) := by
  refine moved_of_mem (fun a ha l hl => ?_) (fun a ha hdst => ?_) ?_
  · obtain ⟨r', j', -, -, hj', rfl⟩ := mem_copyMoves.mp ha
    cases hl
    exact first_not_copied hj'
  · obtain ⟨r', j', -, -, hj', rfl⟩ := mem_copyMoves.mp ha
    have hoff := lineLoc_injective y hdst
    have hcol : j' = j := by
      have h1 := congrArg (· % C.lineLength) hoff
      have hlt := @column_lt C j hj
      have hlt' := @column_lt C j' hj'
      simpa [Nat.mul_add_mod_self_right, Nat.mod_eq_of_lt (show j < C.lineLength by omega),
        Nat.mod_eq_of_lt (show j' < C.lineLength by omega)] using h1
    rw [hcol]
    rfl
  · exact List.mem_map.mpr ⟨_, mem_copyMoves.mpr ⟨r, j, hr1, hr, hj, rfl⟩, rfl⟩

theorem prev_not_line {i : ℕ} : .prev i ∉ (patMoves C snap pat y ++ copyMoves C y).map Move.dst := by
  intro hmem
  obtain ⟨a, ha, heq⟩ := List.mem_map.mp hmem
  rcases List.mem_append.mp ha with ha | ha
  · obtain ⟨j, -, rfl⟩ := mem_patMoves.mp ha
    exact lineLoc_ne_prev y j i heq
  · obtain ⟨r, j, -, -, -, rfl⟩ := mem_copyMoves.mp ha
    exact lineLoc_ne_prev y _ i heq

/-- The row is remembered. -/
theorem moved_rowMoves_prev {x : ℕ} (hx : x < resX) :
    moved (rowMoves C snap pat y) m (.prev (y * resX + x)) = snap y x := by
  rw [rowMoves, List.append_assoc, moved_append, moved_of_not_mem prev_not_line]
  refine moved_of_mem (fun a ha l hl => ?_) (fun a ha hdst => ?_) ?_
  · obtain ⟨x', -, rfl⟩ := List.mem_map.mp ha
    cases hl
  · obtain ⟨x', -, rfl⟩ := List.mem_map.mp ha
    rw [Loc.prev.injEq, Nat.add_left_cancel_iff] at hdst
    rw [hdst]
    rfl
  · exact List.mem_map.mpr ⟨_, List.mem_map.mpr ⟨x, List.mem_range.mpr hx, rfl⟩, rfl⟩

/-- Each of its lines is the expanded row. -/
theorem moved_rowMoves_line {r j : ℕ} (hr : r < C.scale) (hj : j < resX * C.scale3) :
    moved (rowMoves C snap pat y) m (lineLoc C y (r * C.lineLength + j)) =
      pat (snap y (j / C.scale3)) (j % C.scale3) := by
  rw [rowMoves, moved_append, moved_append]
  rcases Nat.eq_zero_or_pos r with rfl | hr1
  · rw [Nat.zero_mul, Nat.zero_add, moved_of_not_mem (first_not_copied hj), moved_patMoves hj]
  · rw [moved_copyMoves hr1 hr hj, moved_patMoves hj]

/-- Where the stores of a row go. -/
theorem mem_rowMoves {a : Move Loc UInt8} (ha : a ∈ rowMoves C snap pat y) :
    (∃ x < resX, a.dst = .prev (y * resX + x)) ∨
      ∃ r < C.scale, ∃ j < resX * C.scale3, a.dst = lineLoc C y (r * C.lineLength + j) := by
  rw [rowMoves, List.mem_append, List.mem_append] at ha
  rcases ha with (ha | ha) | ha
  · obtain ⟨x, hx, rfl⟩ := List.mem_map.mp ha
    exact Or.inl ⟨x, List.mem_range.mp hx, rfl⟩
  · obtain ⟨j, hj, rfl⟩ := mem_patMoves.mp ha
    refine Or.inr ⟨0, C.scale_pos, j, hj, ?_⟩
    rw [Nat.zero_mul, Nat.zero_add]
  · obtain ⟨r, j, -, hr, hj, rfl⟩ := mem_copyMoves.mp ha
    exact Or.inr ⟨r, hr, j, hj, rfl⟩

/-- A line of the row in full: its borders are left as they are. -/
theorem moved_rowMoves_place {r b : ℕ} (hr : r < C.scale) (hb : b < C.lineLength) :
    moved (rowMoves C snap pat y) m (place C y r b) =
      if C.x0 * 3 ≤ b ∧ b < C.x0 * 3 + resX * C.scale3 then
        pat (snap y ((b - C.x0 * 3) / C.scale3)) ((b - C.x0 * 3) % C.scale3)
      else m (place C y r b) := by
  split_ifs with hcol
  · have hj : b - C.x0 * 3 < resX * C.scale3 := by omega
    have hplace : place C y r b = lineLoc C y (r * C.lineLength + (b - C.x0 * 3)) := by
      rw [lineLoc_eq, Nat.add_sub_cancel' hcol.1]
    rw [hplace, moved_rowMoves_line hr hj]
  · refine moved_of_not_mem fun hmem => ?_
    obtain ⟨a, ha, heq⟩ := List.mem_map.mp hmem
    rcases mem_rowMoves ha with ⟨x, -, hdst⟩ | ⟨r', -, j, hj, hdst⟩
    · exact place_ne_prev y r b _ (heq.symm.trans hdst)
    · rw [hdst, lineLoc_eq] at heq
      have hb' := (place_inj (column_lt hj) hb heq).2
      omega

/-- The stores of a row are about that row. -/
theorem rowOf_rowMoves {a : Move Loc UInt8} (ha : a ∈ rowMoves C snap pat y) : rowOf C a.dst = y := by
  rcases mem_rowMoves ha with ⟨x, hx, hdst⟩ | ⟨r, hr, j, hj, hdst⟩
  · rw [hdst, rowOf_prev y hx]
  · rw [hdst, rowOf_lineLoc y hr hj]

theorem rowOf_src {a : Move Loc UInt8} (ha : a ∈ rowMoves C snap pat y) {l : Loc}
    (hl : a.src = .inr l) : rowOf C l = y := by
  rw [rowMoves, List.mem_append, List.mem_append] at ha
  rcases ha with (ha | ha) | ha
  · obtain ⟨x, -, rfl⟩ := List.mem_map.mp ha
    cases hl
  · obtain ⟨j, -, rfl⟩ := mem_patMoves.mp ha
    cases hl
  · obtain ⟨r, j, -, -, hj, rfl⟩ := mem_copyMoves.mp ha
    cases hl
    have hrow := rowOf_lineLoc y C.scale_pos hj
    rwa [Nat.zero_mul, Nat.zero_add] at hrow

end Row

/-! ## The rows in front of the barrier -/

section Expand

variable {snap : Frame} {pat : Patterns} {expandRow : ℕ → Bool} {rows : List ℕ} {m : Mem}

theorem mem_expandBand {a : Move Loc UInt8} : a ∈ expandBand C snap pat expandRow rows ↔
    ∃ y ∈ rows, expandRow y = true ∧ a ∈ rowMoves C snap pat y := by
  rw [expandBand, List.mem_flatMap]
  refine exists_congr fun y => and_congr_right fun _ => ?_
  by_cases h : expandRow y = true <;> simp [h]

/-- The stores about a row. -/
theorem filter_expandBand (hnd : rows.Nodup) (y : ℕ) :
    (expandBand C snap pat expandRow rows).filter (fun a => rowOf C a.dst = y) =
      if y ∈ rows ∧ expandRow y = true then rowMoves C snap pat y else [] := by
  have hsame : (rowMoves C snap pat y).filter (fun a => rowOf C a.dst = y) = rowMoves C snap pat y :=
    List.filter_eq_self.mpr fun a ha => decide_eq_true (rowOf_rowMoves ha)
  have hother : ∀ z, z ≠ y → (rowMoves C snap pat z).filter (fun a => rowOf C a.dst = y) = [] := by
    intro z hz
    refine List.filter_eq_nil_iff.mpr fun a ha => ?_
    rw [rowOf_rowMoves ha, decide_eq_true_eq]
    exact hz
  induction rows with
  | nil => simp [expandBand]
  | cons z rows ih =>
    obtain ⟨hz, hnd⟩ := List.nodup_cons.mp hnd
    have hrest := ih hnd
    rw [expandBand] at hrest
    rw [expandBand, List.flatMap_cons, List.filter_append, hrest]
    by_cases hzy : z = y
    · subst hzy
      by_cases he : expandRow z = true <;> simp [he, hz, hsame]
    · by_cases he : expandRow z = true <;> simp [he, hother z hzy, Ne.symm hzy]

/-- A byte after the stores of some rows: only those of its own row matter. -/
theorem moved_expandBand (hnd : rows.Nodup) (l : Loc) : moved (expandBand C snap pat expandRow rows) m l =
    if rowOf C l ∈ rows ∧ expandRow (rowOf C l) = true then moved (rowMoves C snap pat (rowOf C l)) m l
      else m l := by
  have hregion : ∀ a ∈ expandBand C snap pat expandRow rows, ∀ l, a.src = .inr l → rowOf C l = rowOf C a.dst := by
    intro a ha l hl
    obtain ⟨y, -, -, ha⟩ := mem_expandBand.mp ha
    rw [rowOf_src ha hl, rowOf_rowMoves ha]
  rw [moved_region (r := rowOf C l) hregion (fun _ _ => rfl) rfl, filter_expandBand hnd]
  split_ifs <;> rfl

theorem moved_expand_prev (hnd : rows.Nodup) {y x : ℕ} (hx : x < resX) :
    moved (expandBand C snap pat expandRow rows) m (.prev (y * resX + x)) =
      if y ∈ rows ∧ expandRow y = true then snap y x else m (.prev (y * resX + x)) := by
  rw [moved_expandBand hnd, rowOf_prev y hx, moved_rowMoves_prev hx]

theorem moved_expand_place (hnd : rows.Nodup) {y r b : ℕ} (hr : r < C.scale) (hb : b < C.lineLength) :
    moved (expandBand C snap pat expandRow rows) m (place C y r b) =
      if y ∈ rows ∧ expandRow y = true then moved (rowMoves C snap pat y) m (place C y r b)
        else m (place C y r b) := by
  rw [moved_expandBand hnd, rowOf_place y hr hb]

/-- Everything else is left as it is. -/
theorem moved_expand_other {l : Loc} (hprev : ∀ i, l ≠ .prev i)
    (hplace : ∀ y ∈ rows, ∀ r < C.scale, ∀ b < C.lineLength, l ≠ place C y r b) :
    moved (expandBand C snap pat expandRow rows) m l = m l := by
  refine moved_of_not_mem fun hmem => ?_
  obtain ⟨a, ha, heq⟩ := List.mem_map.mp hmem
  obtain ⟨y, hy, -, ha⟩ := mem_expandBand.mp ha
  rcases mem_rowMoves ha with ⟨x, -, hdst⟩ | ⟨r, hr, j, hj, hdst⟩
  · exact hprev _ (heq.symm.trans hdst)
  · rw [lineLoc_eq] at hdst
    exact hplace y hy r hr _ (column_lt hj) (heq.symm.trans hdst)

end Expand

/-! ## The workers -/

section Workers

variable {snap : Frame} {pat : Patterns} {expandRow : ℕ → Bool} {rows : List ℕ} {back : ℕ} {m : Mem}

/-- The workers share the rows, in their order. -/
theorem band_flatten (C : Setup) (rows : List ℕ) :
    ((List.range C.nworkers).map (band rows C.nworkers)).flatten = rows := by
  rw [Setup.nworkers]
  split_ifs
  · have hle : rows.length / 2 ≤ rows.length := Nat.div_le_self _ _
    simp [List.range_succ, band, List.take_of_length_le]
  · simp [band]

/-- The rows of one worker are above those of the next. -/
theorem band_pairwise (C : Setup) (hs : rows.Pairwise (· < ·)) :
    ((List.range C.nworkers).map (band rows C.nworkers)).Pairwise fun xs ys => ∀ x ∈ xs, ∀ y ∈ ys, x < y := by
  rw [← band_flatten C rows, List.pairwise_flatten] at hs
  exact hs.2

theorem band_sorted (hs : rows.Pairwise (· < ·)) (n wi : ℕ) : (band rows n wi).Pairwise (· < ·) :=
  (hs.drop).take

theorem expand_flatten (C : Setup) (snap : Frame) (pat : Patterns) (expandRow : ℕ → Bool) (rows : List ℕ) :
    ((List.range C.nworkers).map fun wi => expandBand C snap pat expandRow (band rows C.nworkers wi)).flatten =
      expandBand C snap pat expandRow rows := by
  conv_rhs => rw [← band_flatten C rows]
  simp only [expandBand, List.flatMap_def, List.map_flatten, List.flatten_flatten, List.map_map, Function.comp_def]

theorem expand_independent (hs : rows.Pairwise (· < ·)) : Independent
    ((List.range C.nworkers).map fun wi => expandBand C snap pat expandRow (band rows C.nworkers wi)) := by
  have hbands := List.pairwise_map.mp (band_pairwise C hs)
  refine List.pairwise_map.mpr (hbands.imp fun {i j} hlt a ha b hb => ?_)
  obtain ⟨y, hy, -, ha⟩ := mem_expandBand.mp ha
  obtain ⟨z, hz, -, hb⟩ := mem_expandBand.mp hb
  have hne : y ≠ z := Nat.ne_of_lt (hlt y hy z hz)
  refine ⟨fun heq => hne ?_, fun hsrc => hne ?_, fun hsrc => hne ?_⟩
  · rw [← rowOf_rowMoves ha, heq, rowOf_rowMoves hb]
  · rw [← rowOf_src ha hsrc, rowOf_rowMoves hb]
  · rw [← rowOf_src hb hsrc, rowOf_rowMoves ha]

/-- `pwrite` copies the lines from the first to the last of some rows to their places on the screen. -/
theorem mem_pwriteMoves {a : Move Loc UInt8} {r0 r1 : ℕ} (hle : r0 ≤ r1) : a ∈ pwriteMoves C back r0 r1 ↔
    ∃ k, r0 * (C.scale * C.lineLength) ≤ k ∧ k < (r1 + 1) * (C.scale * C.lineLength) ∧
      a = ⟨.screen ((back * C.yres + C.y0) * C.lineLength + k), .inr (.framebuf k)⟩ := by
  have hfirst : r0 * C.scale * C.lineLength = r0 * (C.scale * C.lineLength) := Nat.mul_assoc _ _ _
  have hbase : (back * C.yres + C.y0 + r0 * C.scale) * C.lineLength =
      (back * C.yres + C.y0) * C.lineLength + r0 * (C.scale * C.lineLength) := by ring
  have hlen : r0 * (C.scale * C.lineLength) + (r1 - r0 + 1) * C.scale * C.lineLength =
      (r1 + 1) * (C.scale * C.lineLength) := by
    rw [Nat.mul_assoc, ← Nat.add_mul]
    congr 1
    omega
  simp only [pwriteMoves, List.mem_map, List.mem_range, hfirst, hbase]
  constructor
  · rintro ⟨j, hj, rfl⟩
    refine ⟨r0 * (C.scale * C.lineLength) + j, by omega, by omega, ?_⟩
    rw [Nat.add_assoc]
  · rintro ⟨k, hlo, hhi, rfl⟩
    refine ⟨k - r0 * (C.scale * C.lineLength), by omega, ?_⟩
    rw [Nat.add_assoc, Nat.add_sub_cancel' hlo]

/-- The lines that a worker writes. -/
theorem mem_writeBand (hmap : C.fbmap = false) (hs : rows.Pairwise (· < ·)) {a : Move Loc UInt8} :
    a ∈ writeBand C back rows ↔ ∃ k, (∃ r0 ∈ rows, r0 * (C.scale * C.lineLength) ≤ k) ∧
      (∃ r1 ∈ rows, k < (r1 + 1) * (C.scale * C.lineLength)) ∧
      a = ⟨.screen ((back * C.yres + C.y0) * C.lineLength + k), .inr (.framebuf k)⟩ := by
  by_cases hnil : rows = []
  · subst hnil
    simp [writeBand]
  · have hfirst : rows.head? = some (rows.head hnil) := List.head?_eq_some_head hnil
    have hlast : rows.getLast? = some (rows.getLast hnil) := List.getLast?_eq_some_getLast hnil
    have hmin : ∀ r ∈ rows, rows.head hnil ≤ r := by
      intro r hr
      cases rows with
      | nil => exact absurd rfl hnil
      | cons z rows =>
        rcases List.mem_cons.mp hr with rfl | hr
        · exact Nat.le_refl _
        · exact Nat.le_of_lt ((List.pairwise_cons.mp hs).1 r hr)
    have hmax : ∀ r ∈ rows, r ≤ rows.getLast hnil := by
      intro r hr
      have hsplit := List.dropLast_concat_getLast hnil
      rw [← hsplit] at hr hs
      rcases List.mem_append.mp hr with hr | hr
      · exact Nat.le_of_lt ((List.pairwise_append.mp hs).2.2 r hr _ List.mem_cons_self)
      · exact Nat.le_of_eq (List.mem_singleton.mp hr)
    rw [writeBand, hfirst, hlast]
    simp only [hmap, Bool.false_eq_true, if_false]
    rw [mem_pwriteMoves (hmax _ (List.head_mem hnil))]
    refine exists_congr fun k =>
      ⟨fun ⟨hlo, hhi, ha⟩ => ⟨⟨_, List.head_mem hnil, hlo⟩, ⟨_, List.getLast_mem hnil, hhi⟩, ha⟩,
      fun ⟨⟨r0, hr0, hlo⟩, ⟨r1, hr1, hhi⟩, ha⟩ => ⟨?_, ?_, ha⟩⟩
    · exact (Nat.mul_le_mul_right _ (hmin r0 hr0)).trans hlo
    · exact hhi.trans_le (Nat.mul_le_mul_right _ (Nat.succ_le_succ (hmax r1 hr1)))

/-- The stores of all workers behind the barrier. -/
def writes (C : Setup) (back : ℕ) (rows : List ℕ) : List (Move Loc UInt8) :=
  ((List.range C.nworkers).map fun wi => writeBand C back (band rows C.nworkers wi)).flatten

theorem writeBand_of_fbmap (hmap : C.fbmap = true) (back : ℕ) (rows : List ℕ) : writeBand C back rows = [] := by
  unfold writeBand
  split
  · exact if_pos hmap
  · rfl

theorem writes_of_fbmap (hmap : C.fbmap = true) (back : ℕ) (rows : List ℕ) : writes C back rows = [] := by
  refine List.flatten_eq_nil_iff.mpr fun xs hxs => ?_
  obtain ⟨wi, -, rfl⟩ := List.mem_map.mp hxs
  exact writeBand_of_fbmap hmap back _

theorem write_independent (hs : rows.Pairwise (· < ·)) :
    Independent ((List.range C.nworkers).map fun wi => writeBand C back (band rows C.nworkers wi)) := by
  have hbands := List.pairwise_map.mp (band_pairwise C hs)
  refine List.pairwise_map.mpr (hbands.imp fun {i j} hlt a ha b hb => ?_)
  by_cases hmap : C.fbmap = true
  · rw [writeBand_of_fbmap hmap] at ha
    cases ha
  · have hmap : C.fbmap = false := Bool.not_eq_true _ ▸ hmap
    obtain ⟨k, -, ⟨r1, hr1, hk⟩, rfl⟩ := (mem_writeBand hmap (band_sorted hs _ _)).mp ha
    obtain ⟨k', ⟨r0, hr0, hk'⟩, -, rfl⟩ := (mem_writeBand hmap (band_sorted hs _ _)).mp hb
    have hle : (r1 + 1) * (C.scale * C.lineLength) ≤ r0 * (C.scale * C.lineLength) :=
      Nat.mul_le_mul_right _ (hlt r1 hr1 r0 hr0)
    refine ⟨fun heq => ?_, fun heq => by simp at heq, fun heq => by simp at heq⟩
    rw [Loc.screen.injEq] at heq
    omega

/-- Some band has the row. -/
theorem exists_band {y : ℕ} (hy : y ∈ rows) : ∃ wi < C.nworkers, y ∈ band rows C.nworkers wi := by
  rw [← band_flatten C rows, List.mem_flatten] at hy
  obtain ⟨_, hband, hy⟩ := hy
  obtain ⟨wi, hwi, rfl⟩ := List.mem_map.mp hband
  exact ⟨wi, List.mem_range.mp hwi, hy⟩

theorem mem_writes (hmap : C.fbmap = false) (hs : rows.Pairwise (· < ·)) {a : Move Loc UInt8}
    (ha : a ∈ writes C back rows) :
    ∃ k, (∃ r ∈ rows, k < (r + 1) * (C.scale * C.lineLength)) ∧
      a = ⟨.screen ((back * C.yres + C.y0) * C.lineLength + k), .inr (.framebuf k)⟩ := by
  obtain ⟨_, hband, ha⟩ := List.mem_flatten.mp ha
  obtain ⟨wi, hwi, rfl⟩ := List.mem_map.mp hband
  obtain ⟨k, -, ⟨r1, hr1, hk⟩, rfl⟩ := (mem_writeBand hmap (band_sorted hs _ _)).mp ha
  have hmem : r1 ∈ rows := List.mem_of_mem_drop (List.mem_of_mem_take hr1)
  exact ⟨k, ⟨r1, hmem, hk⟩, rfl⟩

/-- A byte of the screen after the writes: it is as it was, or it is the byte of the slab that belongs there. -/
theorem moved_writes (back : ℕ) (hmap : C.fbmap = false) (hs : rows.Pairwise (· < ·)) (l : Loc) :
    moved (writes C back rows) m l = m l ∧ l ∉ (writes C back rows).map Move.dst ∨
      ∃ k, (∃ r ∈ rows, k < (r + 1) * (C.scale * C.lineLength)) ∧
        l = .screen ((back * C.yres + C.y0) * C.lineLength + k) ∧ moved (writes C back rows) m l =
          m (.framebuf k) := by
  by_cases hl : l ∈ (writes C back rows).map Move.dst
  · right
    obtain ⟨a, ha, rfl⟩ := List.mem_map.mp hl
    obtain ⟨k, hk, rfl⟩ := mem_writes hmap hs ha
    refine ⟨k, hk, rfl, moved_of_mem (fun b hb l hsrc hmem => ?_) (fun b hb hdst => ?_) hl⟩
    · obtain ⟨k', -, rfl⟩ := mem_writes hmap hs hb
      cases hsrc
      obtain ⟨c, hc, heq⟩ := List.mem_map.mp hmem
      obtain ⟨k'', -, rfl⟩ := mem_writes hmap hs hc
      cases heq
    · obtain ⟨k', -, rfl⟩ := mem_writes hmap hs hb
      rw [Loc.screen.injEq, Nat.add_left_cancel_iff] at hdst
      rw [hdst]
      rfl
  · exact Or.inl ⟨moved_of_not_mem hl, hl⟩

/-- A row that is to be written is written. -/
theorem row_mem_writes (back : ℕ) (hmap : C.fbmap = false) (hs : rows.Pairwise (· < ·)) {y : ℕ}
    (hy : y ∈ rows) {r b : ℕ}
    (hr : r < C.scale) (hb : b < C.lineLength) :
    .screen ((back * C.yres + C.y0) * C.lineLength + ((y * C.scale + r) * C.lineLength + b)) ∈
      (writes C back rows).map Move.dst := by
  obtain ⟨wi, hwi, hband⟩ := exists_band (C := C) hy
  have hlt : r * C.lineLength + b < C.scale * C.lineLength := by
    have hle : (r + 1) * C.lineLength ≤ C.scale * C.lineLength := Nat.mul_le_mul_right _ hr
    rw [Nat.succ_mul] at hle
    omega
  have heq : (y * C.scale + r) * C.lineLength + b = y * (C.scale * C.lineLength) + (r * C.lineLength + b) := by
    ring
  refine List.mem_map.mpr ⟨⟨_, .inr (.framebuf ((y * C.scale + r) * C.lineLength + b))⟩, ?_, rfl⟩
  refine List.mem_flatten.mpr ⟨_, List.mem_map.mpr ⟨wi, List.mem_range.mpr hwi, rfl⟩, ?_⟩
  refine (mem_writeBand hmap (band_sorted hs _ _)).mpr ⟨_, ⟨y, hband, ?_⟩, ⟨y, hband, ?_⟩, rfl⟩
  · rw [heq]
    omega
  · rw [heq, Nat.succ_mul]
    omega

theorem pixel_row (f y r b : ℕ) : pixel C f (C.y0 + y * C.scale + r) b =
    .screen ((f * C.yres + C.y0) * C.lineLength + ((y * C.scale + r) * C.lineLength + b)) := by
  rw [pixel]
  congr 1
  ring

theorem moved_writes_row (hmap : C.fbmap = false) (hs : rows.Pairwise (· < ·)) {y : ℕ} (hy : y ∈ rows) {r b : ℕ}
    (hr : r < C.scale) (hb : b < C.lineLength) :
      moved (writes C back rows) m (pixel C back (C.y0 + y * C.scale + r) b) =
      m (.framebuf ((y * C.scale + r) * C.lineLength + b)) := by
  have hmem := row_mem_writes back hmap hs hy hr hb
  rw [pixel_row]
  rcases moved_writes (m := m) back hmap hs (.screen ((back * C.yres + C.y0) * C.lineLength +
    ((y * C.scale + r) * C.lineLength + b))) with ⟨-, hno⟩ | ⟨k, -, heq, hval⟩
  · exact absurd hmem hno
  · rw [Loc.screen.injEq, Nat.add_left_cancel_iff] at heq
    rw [hval, heq]

/-- A byte of the screen after the writes: it is as it was, or it is of a row of this frame and is as in the
slab. -/
theorem moved_writes_pixel (hmap : C.fbmap = false) (hs : rows.Pairwise (· < ·)) (hrows : ∀ y ∈ rows, y < resY)
    {f Y b : ℕ}
    (hY : Y < C.yres) (hb : b < C.lineLength) :
    moved (writes C back rows) m (pixel C f Y b) = m (pixel C f Y b) ∨
      f = back ∧ ∃ y < resY, ∃ r < C.scale, Y = C.y0 + y * C.scale + r ∧
        moved (writes C back rows) m (pixel C f Y b) = m (.framebuf ((y * C.scale + r) * C.lineLength + b)) := by
  rcases moved_writes (m := m) back hmap hs (pixel C f Y b) with ⟨hsame, -⟩ | ⟨k, ⟨y', hy', hk⟩, heq, hval⟩
  · exact Or.inl hsame
  · right
    have hline : k / C.lineLength < resY * C.scale := by
      refine (Nat.div_lt_iff_lt_mul C.lineLength_pos).mpr (hk.trans_le ?_)
      rw [Nat.mul_assoc]
      exact Nat.mul_le_mul_right _ (hrows y' hy')
    have hy : k / C.lineLength / C.scale < resY := (Nat.div_lt_iff_lt_mul C.scale_pos).mpr hline
    have hr : k / C.lineLength % C.scale < C.scale := Nat.mod_lt _ C.scale_pos
    have hk' : k = (k / C.lineLength / C.scale * C.scale + k / C.lineLength % C.scale) * C.lineLength +
        k % C.lineLength := by
      rw [Nat.div_add_mod', Nat.div_add_mod']
    have hrow := heq
    rw [hk', ← pixel_row] at hrow
    have hfit := C.rows_fit
    have hlt := row_lt (C := C) hy hr
    obtain ⟨hf, hY', hb'⟩ := pixel_inj hY (hlt.trans_le hfit) hb (Nat.mod_lt _ C.lineLength_pos) hrow
    refine ⟨hf, _, hy, _, hr, hY', ?_⟩
    rw [hval, hb', ← hk']

end Workers

end Soceteer.Doom
