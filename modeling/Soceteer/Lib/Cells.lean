import Mathlib.Data.Finset.Card
import Mathlib.Data.List.Nodup
import Mathlib.Logic.Function.Basic

/-!
# Soceteer.Lib.Cells — a memory reached through an arbitrary map of addresses

Addresses are mapped to cells by `cell`, not always one to one. A pass goes over a list of addresses and at each
one may compare the cell with a value and may store one.

* `stores`: the memory after a pass that stores `v a` at every address; `stores_of_last`: the last writer of a cell
  wins.
* `mismatches`: how many comparisons of a pass fail; `mismatches_congr`, `mismatches_of_exact`.
* `mismatches_stores`: after storing distinct values, a comparing pass fails once for every address too many.
* `mismatches_swap_eq_zero`: comparing and storing in one pass still finds every shared cell.
-/

namespace Soceteer.Lib

variable {A C V : Type} [DecidableEq C] (cell : A → C)

/-! ## Storing -/

/-- The memory after storing `v a` at each address. -/
def stores (v : A → V) (m : C → V) (xs : List A) : C → V :=
  xs.foldl (fun m a => Function.update m (cell a) (v a)) m

/-- What a pass may store at an address. -/
def put (m : C → V) (a : A) : Option (A → V) → C → V
  | none => m
  | some v => Function.update m (cell a) (v a)

/-- The failed comparisons of a pass that expects `e a` at each address and may store there afterwards. -/
def mismatches [DecidableEq V] (e : A → V) (next : Option (A → V)) (m : C → V) : List A → ℕ
  | [] => 0
  | a :: xs => (if m (cell a) = e a then 0 else 1) + mismatches e next (put cell m a next) xs

variable {cell} {v w : A → V} {m m' : C → V} {xs : List A}

@[simp] theorem stores_nil : stores cell v m [] = m := rfl

theorem stores_cons (a : A) :
    stores cell v m (a :: xs) = stores cell v (Function.update m (cell a) (v a)) xs := rfl

theorem stores_append (ys zs : List A) : stores cell v m (ys ++ zs) = stores cell v (stores cell v m ys) zs := by
  simp [stores]

theorem stores_of_not_mem {c : C} (h : c ∉ xs.map cell) : stores cell v m xs c = m c := by
  induction xs generalizing m with
  | nil => rfl
  | cons a xs ih =>
    rw [List.map_cons, List.mem_cons, not_or] at h
    rw [stores_cons, ih h.2, Function.update_of_ne h.1]

/-- A cell holds the value of its last writer. -/
theorem stores_of_last {b : A} (ys : List A) {zs : List A} (h : cell b ∉ zs.map cell) :
    stores cell v m (ys ++ b :: zs) (cell b) = v b := by
  rw [stores_append, stores_cons, stores_of_not_mem h, Function.update_self]

/-- A cell that is stored to holds the value of one of its writers, whatever it held before. -/
theorem stores_of_mem {c : C} (h : c ∈ xs.map cell) : ∃ b ∈ xs, cell b = c ∧ ∀ m, stores cell v m xs c = v b := by
  induction xs with
  | nil => exact absurd h List.not_mem_nil
  | cons a xs ih =>
    by_cases hlater : c ∈ xs.map cell
    · obtain ⟨b, hb, hc, hall⟩ := ih hlater
      exact ⟨b, List.mem_cons_of_mem _ hb, hc, fun m => hall _⟩
    · rw [List.map_cons, List.mem_cons, or_iff_left hlater] at h
      subst h
      exact ⟨a, List.mem_cons_self, rfl, fun m => stores_of_last [] hlater⟩

theorem stores_congr {c : C} (h : c ∈ xs.map cell) (m m' : C → V) :
    stores cell v m xs c = stores cell v m' xs c := by
  obtain ⟨b, -, -, hall⟩ := stores_of_mem (v := v) h
  rw [hall m, hall m']

/-- When no two addresses share a cell, every value is kept. -/
theorem stores_of_nodup (h : (xs.map cell).Nodup) {a : A} (ha : a ∈ xs) : stores cell v m xs (cell a) = v a := by
  obtain ⟨ys, zs, rfl⟩ := List.append_of_mem ha
  refine stores_of_last ys ?_
  rw [List.map_append, List.map_cons] at h
  exact (List.nodup_cons.mp (List.nodup_append.mp h).2.1).1

/-! ## Comparing -/

/-- The cell of another address is kept. -/
theorem put_of_ne {next : Option (A → V)} {a : A} {c : C} (h : c ≠ cell a) : put cell m a next c = m c := by
  cases next with
  | none => rfl
  | some v => exact Function.update_of_ne h _ _

section Compare

variable [DecidableEq V] {next : Option (A → V)}

theorem mismatches_cons (a : A) : mismatches cell v next m (a :: xs) =
    (if m (cell a) = v a then 0 else 1) + mismatches cell v next (put cell m a next) xs := rfl

/-- A pass depends on the cells of its addresses only. -/
theorem mismatches_congr (h : ∀ a ∈ xs, m (cell a) = m' (cell a)) :
    mismatches cell v next m xs = mismatches cell v next m' xs := by
  induction xs generalizing m m' with
  | nil => rfl
  | cons a xs ih =>
    rw [mismatches_cons, mismatches_cons, h a List.mem_cons_self]
    congr 1
    refine ih fun b hb => ?_
    by_cases hab : cell b = cell a
    · cases next with
      | none => exact h b (List.mem_cons_of_mem _ hb)
      | some w => rw [hab, put, put, Function.update_self, Function.update_self]
    · rw [put_of_ne hab, put_of_ne hab]
      exact h b (List.mem_cons_of_mem _ hb)

theorem mismatches_le : mismatches cell v next m xs ≤ xs.length := by
  induction xs generalizing m with
  | nil => exact le_rfl
  | cons a xs ih =>
    have hrest := ih (m := put cell m a next)
    rw [mismatches_cons, List.length_cons]
    split <;> omega

/-- Nothing fails when every cell holds what is expected and no two addresses share one. -/
theorem mismatches_of_exact (hnd : (xs.map cell).Nodup) (h : ∀ a ∈ xs, m (cell a) = v a) :
    mismatches cell v next m xs = 0 := by
  induction xs generalizing m with
  | nil => rfl
  | cons a xs ih =>
    obtain ⟨hfresh, hnd⟩ := List.nodup_cons.mp hnd
    rw [mismatches_cons, if_pos (h a List.mem_cons_self), Nat.zero_add]
    refine ih hnd fun b hb => ?_
    have hne : cell b ≠ cell a := fun heq => hfresh (heq ▸ List.mem_map_of_mem hb)
    rw [put_of_ne hne]
    exact h b (List.mem_cons_of_mem _ hb)

end Compare

/-! ## Storing, then comparing -/

section Distinct

variable [DecidableEq V] (hv : Function.Injective v)
include hv

omit [DecidableEq V] in
/-- The first of two addresses of a cell has lost its value. -/
theorem stores_ne_head {a : A} (ha : a ∉ xs) (h : cell a ∈ xs.map cell) :
    stores cell v m (a :: xs) (cell a) ≠ v a := by
  obtain ⟨b, hb, -, hall⟩ := stores_of_mem (v := v) h
  rw [stores_cons, hall]
  intro heq
  exact ha (hv heq ▸ hb)

/-- The comparisons that fail are as many as the addresses less the cells. -/
theorem mismatches_stores (hnd : xs.Nodup) :
    mismatches cell v none (stores cell v m xs) xs + (xs.map cell).toFinset.card = xs.length := by
  induction xs generalizing m with
  | nil => rfl
  | cons a xs ih =>
    obtain ⟨ha, hnd⟩ := List.nodup_cons.mp hnd
    have hrest := ih (m := Function.update m (cell a) (v a)) hnd
    rw [← stores_cons] at hrest
    rw [mismatches_cons, List.map_cons, List.toFinset_cons, List.length_cons]
    by_cases hshared : cell a ∈ xs.map cell
    · rw [if_neg (stores_ne_head hv ha hshared), put, Finset.insert_eq_of_mem (List.mem_toFinset.mpr hshared)]
      omega
    · have hkept : stores cell v m (a :: xs) (cell a) = v a := stores_of_last [] hshared
      rw [if_pos hkept, put, Finset.card_insert_of_notMem (fun hmem => hshared (List.mem_toFinset.mp hmem))]
      omega

/-- A pass that compares and stores something else finds every shared cell. -/
theorem mismatches_swap_eq_zero (hnd : xs.Nodup) :
    mismatches cell v (some w) (stores cell v m xs) xs = 0 ↔ (xs.map cell).Nodup := by
  refine ⟨fun hzero => ?_, fun h => mismatches_of_exact h fun a ha => stores_of_nodup h ha⟩
  induction xs generalizing m with
  | nil => exact List.nodup_nil
  | cons a xs ih =>
    obtain ⟨ha, hnd⟩ := List.nodup_cons.mp hnd
    rw [mismatches_cons] at hzero
    have hhead : stores cell v m (a :: xs) (cell a) = v a := by
      by_contra hne
      rw [if_neg hne] at hzero
      omega
    have hfresh : cell a ∉ xs.map cell := fun hshared => stores_ne_head hv ha hshared hhead
    rw [if_pos hhead, Nat.zero_add] at hzero
    refine List.nodup_cons.mpr ⟨hfresh, ih (m := m) hnd ?_⟩
    rw [← hzero]
    -- the cell of `a` is none of the others
    refine mismatches_congr fun b hb => ?_
    have hne : cell b ≠ cell a := fun heq => hfresh (heq ▸ List.mem_map_of_mem hb)
    rw [put_of_ne hne, stores_cons]
    exact stores_congr (List.mem_map_of_mem hb) _ _

end Distinct

end Soceteer.Lib
