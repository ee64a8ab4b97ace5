import Mathlib.Data.List.Perm.Basic
import Mathlib.Logic.Function.Basic
import Mathlib.Order.Lattice

/-!
# Soceteer.Lib.Insertion — insertion sort in an array

An array is a function on its indices.

* `shiftUp`, `insertAt`, `insertionSort`: the inner loop, a turn of the outer loop, and the sort of the first `n`
  entries.
* `Shifted`: where the hole is left, and what has moved.
* `insertAt_perm`, `insertAt_sorted`: a turn; `insertionSort_perm`, `insertionSort_sorted`: the sort.
-/

namespace Soceteer.Lib

variable {α β : Type} [LinearOrder β] (key : α → β)

/-- `while (j > 0 && key(out[j - 1]) > key(x)) { out[j] = out[j - 1]; j--; }`: where it ends, and the array. -/
def shiftUp (x : α) : ℕ → (ℕ → α) → ℕ × (ℕ → α)
  | 0, out => (0, out)
  | j + 1, out => if key x < key (out j) then shiftUp x j (Function.update out (j + 1) (out j)) else (j + 1, out)

/-- The entry at `i` goes to its place among those before it. -/
def insertAt (i : ℕ) (out : ℕ → α) : ℕ → α :=
  let r := shiftUp key (out i) i out
  Function.update r.2 r.1 (out i)

/-- `for (i = 1; i < n; i++)` -/
def insertionSort (n : ℕ) (out : ℕ → α) : ℕ → α :=
  (List.range' 1 (n - 1)).foldl (fun out i => insertAt key i out) out

/-- The first `n` entries do not descend. -/
def SortedTo (n : ℕ) (out : ℕ → α) : Prop := ∀ a b, a ≤ b → b < n → key (out a) ≤ key (out b)

/-- What the inner loop leaves behind: a hole, and above it the entries that are larger, each moved up by one. -/
structure Shifted (x : α) (j : ℕ) (out : ℕ → α) (hole : ℕ) (out' : ℕ → α) : Prop where
  le : hole ≤ j
  below : ∀ k < hole, out' k = out k
  moved : ∀ k, hole ≤ k → k < j → out' (k + 1) = out k
  above : ∀ k, j < k → out' k = out k
  larger : ∀ k, hole ≤ k → k < j → key x < key (out k)
  stop : ∀ k, k + 1 = hole → key (out k) ≤ key x

section Shift

variable {key} {x : α} {i j n : ℕ} {out : ℕ → α}

theorem shifted_shiftUp : Shifted key x j out (shiftUp key x j out).1 (shiftUp key x j out).2 := by
  induction j generalizing out with
  | zero =>
    exact ⟨Nat.le_refl 0, fun _ _ => rfl, fun k _ hk => absurd hk (Nat.not_lt_zero k), fun _ _ => rfl,
      fun k _ hk => absurd hk (Nat.not_lt_zero k), fun k hk => absurd hk (Nat.succ_ne_zero k)⟩
  | succ j ih =>
    rw [shiftUp]
    split_ifs with hlt
    · have h := @ih (Function.update out (j + 1) (out j))
      have hsame : ∀ k ≤ j, Function.update out (j + 1) (out j) k = out k := fun k hk =>
        Function.update_of_ne (by omega) _ out
      have hle := h.le
      refine ⟨by omega, fun k hk => ?_, fun k hlo hk => ?_, fun k hk => ?_, fun k hlo hk => ?_, fun k hk => ?_⟩
      · rw [h.below k hk, hsame k (by omega)]
      · rcases Nat.lt_succ_iff_lt_or_eq.mp hk with hk | rfl
        · rw [h.moved k hlo hk, hsame k (by omega)]
        · rw [h.above _ (by omega), Function.update_self]
      · rw [h.above k (by omega), Function.update_of_ne (by omega)]
      · rcases Nat.lt_succ_iff_lt_or_eq.mp hk with hk | rfl
        · have hlarger := h.larger k hlo hk
          rwa [hsame k (by omega)] at hlarger
        · exact hlt
      · have hstop := h.stop k hk
        rwa [hsame k (by omega)] at hstop
    · refine ⟨Nat.le_refl _, fun _ _ => rfl, fun k hlo hk => absurd hk (by omega), fun _ _ => rfl,
        fun k hlo hk => absurd hk (by omega), fun k hk => ?_⟩
      obtain rfl : k = j := by omega
      exact not_lt.mp hlt

/-- A turn fills the hole. -/
theorem shifted_insertAt (key : α → β) (i : ℕ) (out : ℕ → α) :
    ∃ hole, Shifted key (out i) i out hole (insertAt key i out) ∧ insertAt key i out hole = out i := by
  have h : Shifted key (out i) i out _ _ := shifted_shiftUp
  refine ⟨_, ⟨h.le, fun k hk => ?_, fun k hlo hk => ?_, fun k hk => ?_, h.larger, h.stop⟩,
    Function.update_self _ _ _⟩
  · exact (Function.update_of_ne (Nat.ne_of_lt hk) _ _).trans (h.below k hk)
  · exact (Function.update_of_ne (by omega) _ _).trans (h.moved k hlo hk)
  · have hle := h.le
    exact (Function.update_of_ne (by omega) _ _).trans (h.above k hk)

/-! ## A turn -/

theorem insertAt_above (key : α → β) (out : ℕ → α) {i k : ℕ} (hk : i < k) : insertAt key i out k = out k := by
  obtain ⟨hole, h, -⟩ := shifted_insertAt key i out
  exact h.above k hk

theorem insertAt_sorted (h : SortedTo key i out) : SortedTo key (i + 1) (insertAt key i out) := by
  obtain ⟨hole, hs, hx⟩ := shifted_insertAt key i out
  have hle := hs.le
  -- what stands before the hole is not larger, as the last of it is not
  have hbefore : ∀ k < hole, key (out k) ≤ key (out i) := fun k hk =>
    (h k (hole - 1) (by omega) (by omega)).trans (hs.stop _ (by omega))
  intro a b hab hb
  rcases Nat.lt_trichotomy b hole with hbh | rfl | hbh
  · rw [hs.below b hbh, hs.below a (by omega)]
    exact h a b hab (by omega)
  · rcases Nat.lt_or_eq_of_le hab with hah | rfl
    · rw [hs.below a hah, hx]
      exact hbefore a hah
    · exact le_rfl
  · obtain ⟨b, rfl⟩ : ∃ c, b = c + 1 := ⟨b - 1, by omega⟩
    rw [hs.moved b (by omega) (by omega)]
    rcases Nat.lt_trichotomy a hole with hah | rfl | hah
    · rw [hs.below a hah]
      exact h a b (by omega) (by omega)
    · rw [hx]
      exact (hs.larger b (by omega) (by omega)).le
    · obtain ⟨a, rfl⟩ : ∃ c, a = c + 1 := ⟨a - 1, by omega⟩
      rw [hs.moved a (by omega) (by omega)]
      exact h a b (by omega) (by omega)

theorem insertAt_perm (key : α → β) (i : ℕ) (out : ℕ → α) :
    ((List.range (i + 1)).map (insertAt key i out)).Perm ((List.range (i + 1)).map out) := by
  obtain ⟨hole, hs, hx⟩ := shifted_insertAt key i out
  obtain ⟨d, rfl⟩ := Nat.exists_eq_add_of_le hs.le
  have hbelow : (List.range hole).map (insertAt key (hole + d) out) = (List.range hole).map out :=
    List.map_congr_left fun k hk => hs.below k (List.mem_range.mp hk)
  have hmoved : (List.range' (hole + 1) d).map (insertAt key (hole + d) out) = (List.range' hole d).map out := by
    rw [List.range'_succ_left, List.map_map]
    refine List.map_congr_left fun k hk => ?_
    obtain ⟨hlo, hhi⟩ := List.mem_range'_1.mp hk
    exact hs.moved k hlo hhi
  have hsplit : List.range (hole + d + 1) = List.range hole ++ List.range' hole (d + 1) := by
    rw [List.range_eq_range', List.range_eq_range', Nat.add_assoc, ← List.range'_append_1, Nat.zero_add]
  have hturn : (List.range' hole (d + 1)).map (insertAt key (hole + d) out) =
      out (hole + d) :: (List.range' hole d).map out := by
    rw [List.range'_succ, List.map_cons, hx, hmoved]
  have hold : (List.range' hole (d + 1)).map out = (List.range' hole d).map out ++ [out (hole + d)] := by
    rw [List.range'_1_concat, List.map_append, List.map_singleton]
  rw [hsplit, List.map_append, List.map_append, hbelow, hturn, hold]
  exact (List.perm_append_singleton _ _).symm.append_left _

end Shift

/-! ## The sort -/

section Run

variable {key} {n : ℕ} {out : ℕ → α}

theorem insertionSort_succ (hn : 0 < n) :
    insertionSort key (n + 1) out = insertAt key n (insertionSort key n out) := by
  obtain ⟨m, rfl⟩ : ∃ m, n = m + 1 := ⟨n - 1, by omega⟩
  rw [insertionSort, insertionSort, Nat.add_sub_cancel, Nat.add_sub_cancel, List.range'_1_concat,
    List.foldl_append,
    Nat.add_comm 1]
  rfl

/-- The entries from `n` on are not touched. -/
theorem insertionSort_above {k : ℕ} (hk : n ≤ k) : insertionSort key n out k = out k := by
  induction n with
  | zero => rfl
  | succ n ih =>
    rcases Nat.eq_zero_or_pos n with rfl | hn
    · rfl
    · rw [insertionSort_succ hn, insertAt_above key _ (by omega), ih (by omega)]

theorem insertionSort_sorted : SortedTo key n (insertionSort key n out) := by
  induction n with
  | zero => exact fun a b _ hb => absurd hb (Nat.not_lt_zero b)
  | succ n ih =>
    rcases Nat.eq_zero_or_pos n with rfl | hn
    · intro a b hab hb
      obtain rfl : a = b := by omega
      exact le_rfl
    · rw [insertionSort_succ hn]
      exact insertAt_sorted ih

theorem SortedTo.pairwise (h : SortedTo key n out) :
    ((List.range n).map out).Pairwise fun a b => key a ≤ key b := by
  refine List.pairwise_map.mpr (List.pairwise_lt_range.imp_of_mem fun _ hb hab => ?_)
  exact h _ _ (Nat.le_of_lt hab) (List.mem_range.mp hb)

theorem insertionSort_perm : ((List.range n).map (insertionSort key n out)).Perm ((List.range n).map out) := by
  induction n with
  | zero => exact List.Perm.refl _
  | succ n ih =>
    rcases Nat.eq_zero_or_pos n with rfl | hn
    · exact List.Perm.refl _
    · rw [insertionSort_succ hn]
      refine (insertAt_perm key n _).trans ?_
      rw [List.range_succ, List.map_append, List.map_append, List.map_singleton, List.map_singleton,
        insertionSort_above (Nat.le_refl n)]
      exact ih.append_right _

end Run

end Soceteer.Lib
