import Mathlib.Data.Nat.Basic
import Mathlib.Logic.Function.Basic

/-!
# Soceteer.Lib.Raster — drawing into a picture of three-byte pixels

* `Access`, `exec`: the loads and stores of a drawing routine and what they do to the picture.
* `Raster`: rows of pixels of three bytes without gaps; `Raster.byte` is the place of a byte.
* `Drawn`: one picture differs from another in a region only, where it has given values.
* `drawn_of_stores`, `covers_of_store`, `exists_store`: which lists of accesses draw a region whatever the picture
  was.
-/

namespace Soceteer.Lib

/-! ## Accesses -/

/-- A load of a byte of the source, or a store to a byte of the picture. -/
inductive Access
  | load (i : ℕ)
  | store (off : ℕ) (v : UInt8)
deriving DecidableEq

def Access.apply (m : ℕ → UInt8) : Access → ℕ → UInt8
  | .load _ => m
  | .store off v => Function.update m off v

/-- The byte an access stores to. -/
def Access.stored : Access → Option ℕ
  | .load _ => none
  | .store off _ => some off

/-- The picture after the accesses. -/
def exec (m : ℕ → UInt8) (acc : List Access) : ℕ → UInt8 := acc.foldl Access.apply m

section Exec

variable {acc : List Access} {off : ℕ} {v : UInt8}

theorem exec_cons (m : ℕ → UInt8) (x : Access) (acc : List Access) :
    exec m (x :: acc) = exec (x.apply m) acc := rfl

theorem exec_append (m : ℕ → UInt8) (acc₁ acc₂ : List Access) :
    exec m (acc₁ ++ acc₂) = exec (exec m acc₁) acc₂ := by
  simp [exec]

/-- A byte that no access stores to is kept. -/
theorem exec_of_not_stored (m : ℕ → UInt8) (h : ∀ v, Access.store off v ∉ acc) : exec m acc off = m off := by
  induction acc generalizing m with
  | nil => rfl
  | cons x acc ih =>
    have hrest : ∀ v, Access.store off v ∉ acc := fun v hv => h v (List.mem_cons_of_mem _ hv)
    rw [exec_cons, ih _ hrest]
    cases x with
    | load i => rfl
    | store o u =>
      have hne : off ≠ o := by
        rintro rfl
        exact h u List.mem_cons_self
      exact Function.update_of_ne hne u m

/-- A byte that is stored to ends with one of the values stored there, the same for every picture. -/
theorem exec_of_stored (h : Access.store off v ∈ acc) :
    ∃ u, Access.store off u ∈ acc ∧ ∀ m, exec m acc off = u := by
  induction acc generalizing v with
  | nil => exact absurd h List.not_mem_nil
  | cons x acc ih =>
    by_cases hlater : ∃ u, Access.store off u ∈ acc
    · obtain ⟨u, hu⟩ := hlater
      obtain ⟨u', hmem, hall⟩ := ih hu
      exact ⟨u', List.mem_cons_of_mem _ hmem, fun m => hall _⟩
    · have hkept : ∀ u, Access.store off u ∉ acc := fun u hu => hlater ⟨u, hu⟩
      rcases List.mem_cons.mp h with rfl | htail
      · refine ⟨v, List.mem_cons_self, fun m => ?_⟩
        rw [exec_cons, exec_of_not_stored _ hkept]
        exact Function.update_self off v m
      · exact absurd htail (hkept v)

end Exec

/-! ## Pictures -/

structure Raster where
  width : ℕ
  height : ℕ

namespace Raster

variable (R : Raster)

/-- Byte `k` of pixel `px` in row `py`. -/
def byte (px py k : ℕ) : ℕ := 3 * (py * R.width + px) + k

def size : ℕ := 3 * (R.width * R.height)

/-- The bytes of the pixels of a region inside the picture. -/
def Covers (region : ℕ → ℕ → Prop) (off : ℕ) : Prop :=
  ∃ px py k, px < R.width ∧ py < R.height ∧ k < 3 ∧ region px py ∧ off = R.byte px py k

/-- Pixels to the right in the same row. -/
theorem byte_add (px py c k : ℕ) : R.byte px py 0 + 3 * c + k = R.byte (px + c) py k := by
  unfold byte
  omega

/-- The byte behind a row is the first one of the next row. -/
theorem byte_width (py k : ℕ) : R.byte R.width py k = R.byte 0 (py + 1) k := by
  unfold byte
  rw [Nat.succ_mul py, Nat.add_zero]

variable {R}

/-- The pixel and the byte in it are found by division. -/
theorem byte_coords {px py k : ℕ} (hx : px < R.width) (hk : k < 3) :
    R.byte px py k / 3 % R.width = px ∧ R.byte px py k / 3 / R.width = py ∧ R.byte px py k % 3 = k := by
  have hpix : R.byte px py k / 3 = py * R.width + px := by
    unfold byte
    omega
  have hlow : R.byte px py k % 3 = k := by
    unfold byte
    omega
  refine ⟨?_, ?_, hlow⟩
  · rw [hpix, Nat.mul_add_mod_self_right, Nat.mod_eq_of_lt hx]
  · rw [hpix, Nat.mul_comm, Nat.mul_add_div (by omega), Nat.div_eq_of_lt hx, Nat.add_zero]

theorem byte_of_coords (off : ℕ) : R.byte (off / 3 % R.width) (off / 3 / R.width) (off % 3) = off := by
  unfold byte
  rw [Nat.mul_comm (off / 3 / R.width), Nat.div_add_mod, Nat.div_add_mod]

theorem byte_inj {px py k px' py' k' : ℕ} (hx : px < R.width) (hx' : px' < R.width) (hk : k < 3) (hk' : k' < 3)
    (h : R.byte px py k = R.byte px' py' k') : px = px' ∧ py = py' ∧ k = k' := by
  obtain ⟨h1, h2, h3⟩ := @byte_coords R px py k hx hk
  obtain ⟨h1', h2', h3'⟩ := @byte_coords R px' py' k' hx' hk'
  rw [h] at h1 h2 h3
  exact ⟨h1.symm.trans h1', h2.symm.trans h2', h3.symm.trans h3'⟩

theorem byte_lt_size {px py k : ℕ} (hx : px < R.width) (hy : py < R.height) (hk : k < 3) :
    R.byte px py k < R.size := by
  have hrows : (py + 1) * R.width ≤ R.height * R.width := Nat.mul_le_mul_right _ hy
  rw [Nat.succ_mul, Nat.mul_comm R.height] at hrows
  unfold byte size
  omega

/-- Which pixel a covered byte belongs to. -/
theorem covers_byte {region : ℕ → ℕ → Prop} {px py k : ℕ} (hx : px < R.width) (hk : k < 3) :
    R.Covers region (R.byte px py k) ↔ py < R.height ∧ region px py := by
  constructor
  · rintro ⟨px', py', k', hx', hy', hk', hreg, heq⟩
    obtain ⟨rfl, rfl, rfl⟩ := byte_inj hx hx' hk hk' heq
    exact ⟨hy', hreg⟩
  · rintro ⟨hy, hreg⟩
    exact ⟨px, py, k, hx, hy, hk, hreg, rfl⟩

end Raster

/-! ## Drawing -/

/-- The picture `m'` is `m` with the pixels of the region set to `value`. -/
structure Drawn (R : Raster) (region : ℕ → ℕ → Prop) (value : ℕ → ℕ → ℕ → UInt8) (m m' : ℕ → UInt8) : Prop where
  inside : ∀ px py k, px < R.width → py < R.height → k < 3 → region px py → m' (R.byte px py k) = value px py k
  outside : ∀ off, ¬ R.Covers region off → m' off = m off

section Drawn

variable {R : Raster} {region : ℕ → ℕ → Prop} {value : ℕ → ℕ → ℕ → UInt8} {acc : List Access}

/-- One drawing after another, with the same values. -/
theorem Drawn.trans {region' : ℕ → ℕ → Prop} {m m₁ m₂ : ℕ → UInt8} (h₁ : Drawn R region value m m₁)
    (h₂ : Drawn R region' value m₁ m₂) : Drawn R (fun px py => region px py ∨ region' px py) value m m₂ where
  inside := by
    intro px py k hx hy hk hreg
    by_cases hlater : region' px py
    · exact h₂.inside px py k hx hy hk hlater
    · have hkept : ¬ R.Covers region' (R.byte px py k) := fun hcov => hlater ((Raster.covers_byte hx hk).mp hcov).2
      rw [h₂.outside _ hkept]
      exact h₁.inside px py k hx hy hk (hreg.resolve_right hlater)
  outside := by
    intro off hoff
    have hnot : ¬ R.Covers region' off ∧ ¬ R.Covers region off := by
      constructor
      · rintro ⟨px, py, k, hx, hy, hk, hreg, rfl⟩
        exact hoff ⟨px, py, k, hx, hy, hk, .inr hreg, rfl⟩
      · rintro ⟨px, py, k, hx, hy, hk, hreg, rfl⟩
        exact hoff ⟨px, py, k, hx, hy, hk, .inl hreg, rfl⟩
    rw [h₂.outside off hnot.1, h₁.outside off hnot.2]

/-- Only the region inside the picture and the values there matter. -/
theorem Drawn.congr {region' : ℕ → ℕ → Prop} {value' : ℕ → ℕ → ℕ → UInt8} {m m' : ℕ → UInt8}
    (hregion : ∀ px py, px < R.width → py < R.height → (region px py ↔ region' px py))
    (hvalue : ∀ px py k, px < R.width → py < R.height → k < 3 → region px py → value px py k = value' px py k)
    (h : Drawn R region value m m') : Drawn R region' value' m m' where
  inside := by
    intro px py k hx hy hk hreg
    have hreg' := (hregion px py hx hy).mpr hreg
    rw [h.inside px py k hx hy hk hreg', hvalue px py k hx hy hk hreg']
  outside := by
    intro off hoff
    refine h.outside off ?_
    rintro ⟨px, py, k, hx, hy, hk, hreg, rfl⟩
    exact hoff ⟨px, py, k, hx, hy, hk, (hregion px py hx hy).mp hreg, rfl⟩

/-- Stores of the right values to the bytes of the region, and to no other. -/
theorem drawn_of_stores (m : ℕ → UInt8)
    (h : ∀ off v, Access.store off v ∈ acc ↔
      ∃ px py k, px < R.width ∧ py < R.height ∧ k < 3 ∧ region px py ∧ off = R.byte px py k ∧ v = value px py k) :
    Drawn R region value m (exec m acc) where
  inside := by
    intro px py k hx hy hk hreg
    have hmem : Access.store (R.byte px py k) (value px py k) ∈ acc :=
      (h _ _).mpr ⟨px, py, k, hx, hy, hk, hreg, rfl, rfl⟩
    obtain ⟨u, hu, hall⟩ := exec_of_stored hmem
    obtain ⟨px', py', k', hx', -, hk', -, heq, rfl⟩ := (h _ _).mp hu
    obtain ⟨rfl, rfl, rfl⟩ := Raster.byte_inj hx hx' hk hk' heq
    exact hall m
  outside := by
    intro off hoff
    refine exec_of_not_stored m fun v hv => hoff ?_
    obtain ⟨px, py, k, hx, hy, hk, hreg, rfl, -⟩ := (h _ _).mp hv
    exact ⟨px, py, k, hx, hy, hk, hreg, rfl⟩

/-- A routine that draws the region into every picture stores to no other byte. -/
theorem covers_of_store (h : ∀ m, Drawn R region value m (exec m acc)) {off : ℕ} {v : UInt8}
    (hv : Access.store off v ∈ acc) : R.Covers region off := by
  by_contra hoff
  obtain ⟨u, -, hall⟩ := exec_of_stored hv
  -- a picture that differs from the stored value
  have hkept := (h fun _ => u + 1).outside off hoff
  rw [hall] at hkept
  exact absurd hkept (by simp)

/-- It stores to every byte of the region. -/
theorem exists_store (h : ∀ m, Drawn R region value m (exec m acc)) {px py k : ℕ} (hx : px < R.width)
    (hy : py < R.height) (hk : k < 3) (hreg : region px py) : ∃ v, Access.store (R.byte px py k) v ∈ acc := by
  by_contra hnone
  have hin := (h fun _ => value px py k + 1).inside px py k hx hy hk hreg
  rw [exec_of_not_stored _ fun v hv => hnone ⟨v, hv⟩] at hin
  exact absurd hin (by simp)

end Drawn

end Soceteer.Lib
