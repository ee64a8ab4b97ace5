import Mathlib.Data.List.Chain
import Mathlib.Data.List.Pairwise
import Mathlib.Tactic.SplitIfs

/-!
# Soceteer.Lib.Ranges — lists of ranges of numbers

A range `(lo, hi)` has the numbers from `lo` up to `hi`, without `hi`.

* `Covers rs x`: `x` is in a range of `rs`.
* `Gapless rs`: with two numbers, `rs` covers all those between them.
* `covers_of_chain`: ranges that each end where the next begins cover one range.
* `chain_of_gapless`: ranges in ascending order without a gap are such a chain.
* `mergeRanges`: ranges in ascending order are merged where they meet; `covers_mergeRanges`,
  `mergeRanges_separated`.
-/

namespace Soceteer.Lib

variable {α : Type}

/-- A check of all neighbours. -/
theorem all_zip_tail (R : α → α → Bool) : ∀ l : List α,
    (l.zip l.tail).all (fun p => R p.1 p.2) = true ↔ l.IsChain fun a b => R a b = true
  | [] => by simp
  | [a] => by simp
  | a :: b :: l => by
    rw [List.tail_cons, List.zip_cons_cons, List.all_cons, Bool.and_eq_true, List.isChain_cons_cons]
    exact and_congr_right fun _ => all_zip_tail R (b :: l)

def Covers (rs : List (ℕ × ℕ)) (x : ℕ) : Prop := ∃ r ∈ rs, r.1 ≤ x ∧ x < r.2

/-- What is between two numbers of a list of ranges is in the ranges, too. -/
def Gapless (rs : List (ℕ × ℕ)) : Prop := ∀ x y z, x ≤ y → y ≤ z → Covers rs x → Covers rs z → Covers rs y

theorem covers_cons {r : ℕ × ℕ} {rs : List (ℕ × ℕ)} {x : ℕ} :
    Covers (r :: rs) x ↔ (r.1 ≤ x ∧ x < r.2) ∨ Covers rs x := by
  simp only [Covers, List.mem_cons, or_and_right, exists_or, exists_eq_left]

/-- Ranges that each end where the next begins cover one range. -/
theorem covers_of_chain : ∀ (rs : List (ℕ × ℕ)) (r : ℕ × ℕ), (∀ q ∈ r :: rs, q.1 < q.2) →
    (r :: rs).IsChain (fun a b => a.2 = b.1) → ∃ hi, r.2 ≤ hi ∧ ∀ x, Covers (r :: rs) x ↔ r.1 ≤ x ∧ x < hi
  | [], r, _, _ => ⟨r.2, Nat.le_refl _, fun x => by simp [Covers]⟩
  | r' :: rs, r, hpos, hchain => by
    obtain ⟨hnext, hchain⟩ := List.isChain_cons_cons.mp hchain
    obtain ⟨hr, hpos⟩ := List.forall_mem_cons.mp hpos
    have hr' := hpos r' List.mem_cons_self
    obtain ⟨hi, hle, hcov⟩ := covers_of_chain rs r' hpos hchain
    refine ⟨hi, by omega, fun x => ?_⟩
    rw [covers_cons, hcov]
    omega

/-- Ascending ranges without a gap each end where the next begins. -/
theorem chain_of_gapless : ∀ rs : List (ℕ × ℕ), (∀ r ∈ rs, r.1 < r.2) → rs.Pairwise (fun a b => a.2 ≤ b.1) →
    Gapless rs → rs.IsChain fun a b => a.2 = b.1
  | [], _, _, _ => List.IsChain.nil
  | [r], _, _, _ => List.IsChain.singleton r
  | r :: r' :: rs, hpos, hasc, hgap => by
    obtain ⟨hr, hpos'⟩ := List.forall_mem_cons.mp hpos
    have hr' := hpos' r' List.mem_cons_self
    obtain ⟨hbelow, hasc'⟩ := List.pairwise_cons.mp hasc
    have hle := hbelow r' List.mem_cons_self
    have habove : ∀ x, Covers (r' :: rs) x → r.2 ≤ x := by
      rintro x ⟨q, hq, hqx, -⟩
      exact (hbelow q hq).trans hqx
    have hgap' : Gapless (r' :: rs) := by
      intro x y z hxy hyz hx hz
      have hy := hgap x y z hxy hyz (covers_cons.mpr (Or.inr hx)) (covers_cons.mpr (Or.inr hz))
      have hxr := habove x hx
      exact (covers_cons.mp hy).resolve_left fun h => by omega
    refine List.isChain_cons_cons.mpr ⟨?_, chain_of_gapless (r' :: rs) hpos' hasc' hgap'⟩
    -- the end of `r` is between `r` and `r'`, and only `r'` can have it
    have hcov : Covers (r :: r' :: rs) r.2 :=
      hgap r.1 r.2 r'.1 (by omega) hle (covers_cons.mpr (Or.inl ⟨by omega, hr⟩))
        (covers_cons.mpr (Or.inr (covers_cons.mpr (Or.inl ⟨by omega, hr'⟩))))
    rcases covers_cons.mp hcov with h | h
    · omega
    · rcases covers_cons.mp h with h | ⟨q, hq, hqx, -⟩
      · omega
      · have hlast := (List.pairwise_cons.mp hasc').1 q hq
        omega

/-! ## Merging -/

/-- The range `r`, as far as the next ones reach it, and then the others. -/
def mergeRanges (r : ℕ × ℕ) : List (ℕ × ℕ) → List (ℕ × ℕ)
  | [] => [r]
  | q :: qs => if q.1 ≤ r.2 then mergeRanges (r.1, max r.2 q.2) qs else r :: mergeRanges q qs

section Merge

variable {r q : ℕ × ℕ} {qs : List (ℕ × ℕ)}

/-- A range that takes in the next one begins as before. -/
theorem ascending_absorb (h : (r :: q :: qs).Pairwise fun a b => a.1 ≤ b.1) (hi : ℕ) :
    ((r.1, hi) :: qs).Pairwise fun a b => a.1 ≤ b.1 := by
  obtain ⟨hr, hqs⟩ := List.pairwise_cons.mp h
  exact List.pairwise_cons.mpr ⟨fun p hp => hr p (List.mem_cons_of_mem q hp), (List.pairwise_cons.mp hqs).2⟩

/-- What begins with the first range or later does so afterwards. -/
theorem le_of_mem_mergeRanges (h : (r :: qs).Pairwise fun a b => a.1 ≤ b.1) :
    ∀ p ∈ mergeRanges r qs, r.1 ≤ p.1 := by
  induction qs generalizing r with
  | nil =>
    intro p hp
    rw [List.mem_singleton.mp hp]
  | cons q qs ih =>
    obtain ⟨hr, hqs⟩ := List.pairwise_cons.mp h
    rw [mergeRanges]
    split_ifs with hmeet
    · exact ih (ascending_absorb h _)
    · intro p hp
      rcases List.mem_cons.mp hp with rfl | hp
      · exact Nat.le_refl _
      · exact (hr q List.mem_cons_self).trans (ih hqs p hp)

/-- **The same numbers.** -/
theorem covers_mergeRanges (h : (r :: qs).Pairwise fun a b => a.1 ≤ b.1) (x : ℕ) :
    Covers (mergeRanges r qs) x ↔ Covers (r :: qs) x := by
  induction qs generalizing r with
  | nil => rfl
  | cons q qs ih =>
    obtain ⟨hr, hqs⟩ := List.pairwise_cons.mp h
    have hle := hr q List.mem_cons_self
    rw [mergeRanges]
    split_ifs with hmeet
    · have hboth : r.1 ≤ x ∧ x < max r.2 q.2 ↔ (r.1 ≤ x ∧ x < r.2) ∨ q.1 ≤ x ∧ x < q.2 := by omega
      rw [ih (ascending_absorb h _), covers_cons, hboth, or_assoc, ← covers_cons, ← covers_cons]
    · rw [covers_cons, ih hqs, ← covers_cons]

/-- **Apart from each other**: each ends below where the next one begins. -/
theorem mergeRanges_separated (h : (r :: qs).Pairwise fun a b => a.1 ≤ b.1) :
    (mergeRanges r qs).Pairwise fun a b => a.2 < b.1 := by
  induction qs generalizing r with
  | nil => exact List.pairwise_singleton _ _
  | cons q qs ih =>
    obtain ⟨hr, hqs⟩ := List.pairwise_cons.mp h
    rw [mergeRanges]
    split_ifs with hmeet
    · exact ih (ascending_absorb h _)
    · refine List.pairwise_cons.mpr ⟨fun p hp => ?_, ih hqs⟩
      exact (Nat.not_le.mp hmeet).trans_le (le_of_mem_mergeRanges hqs p hp)

end Merge

end Soceteer.Lib
