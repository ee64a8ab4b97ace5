import Mathlib.Data.Nat.ModEq
import Soceteer.Glue.Dtb
import Soceteer.Lib.Insertion
import Soceteer.Lib.Ranges

/-!
# Soceteer.Memtest.Ranges — the RAM that the memory test goes over

`dtb_ram_ranges` collects the ranges of the memory nodes in an array, sorts them there and merges what overlaps or
adjoins. The array is written and read through separate cursors.

* `RamRange`, `mergeStep`, `normalise`, `collected`, `dtbRamRanges`: the source.
* `foldl_mergeStep`: the merging loop in the array is `mergeRanges` on the ranges it has read.
* `normalise_normal`: the entries that are left cover what was collected, and no two of them meet.
* `dtbRamRanges_le`: the array has room for them.
-/

namespace Soceteer.Memtest

open Lib Glue

/-! ## The source -/

/-- `ram_range_t` -/
structure RamRange where
  base : BitVec 64
  size : BitVec 64
deriving DecidableEq

/-- `out[m]` takes in `out[i]`, or the latter is the next one that is kept. -/
def mergeStep (st : ℕ × (ℕ → RamRange)) (i : ℕ) : ℕ × (ℕ → RamRange) :=
  let m := st.1
  let out := st.2
  if (out i).base ≤ (out m).base + (out m).size then
    let stop := (out i).base + (out i).size
    if stop > (out m).base + (out m).size then
      (m, Function.update out m { out m with size := stop - (out m).base })
    else (m, out)
  else (m + 1, Function.update out (m + 1) (out i))

/-- The sort and the merge of the first `cnt` entries: how many are left, and the array. -/
def normalise (cnt : ℕ) (out : ℕ → RamRange) : ℕ × (ℕ → RamRange) :=
  let out := insertionSort (fun r => r.base.toNat) cnt out
  let r := (List.range' 1 (cnt - 1)).foldl mergeStep (0, out)
  (if cnt ≠ 0 then r.1 + 1 else 0, r.2)

/-- `MAX_RANGES` -/
def maxRanges : ℕ := 8

/-- A child of the root: if it is memory, its pairs are appended as far as there is room.  The array that its pairs
are read into has room for eight; like that of `soct_ram_end`, it is stored past its end for a node with more of
them, and what becomes of the program then is not said here. -/
def collectNode (T : Target) (root : DtbNode) (max : ℕ) (out : List RamRange) (n : DtbNode) : List RamRange :=
  if isDevice n (ascii "memory") then
    match dtbFindProp n (ascii "reg") with
    | none => out
    | some reg =>
      let vals := (dtbReadProp2 T reg (dtbGetAddrCellsFor T root, dtbGetSizeCellsFor T root)).take maxRanges
      out ++ (vals.take (max - out.length)).map fun val => ⟨val.1, val.2⟩
  else out

/-- The pairs that are collected. -/
def collected (T : Target) (root : Option DtbNode) (max : ℕ) : List RamRange :=
  match root with
  | none => []
  | some root => root.children.foldl (collectNode T root max) []

/-- The number of ranges, and the array with them. -/
def dtbRamRanges (T : Target) (root : Option DtbNode) (max : ℕ) (out : ℕ → RamRange) : ℕ × (ℕ → RamRange) :=
  let pairs := collected T root max
  normalise pairs.length fun i => pairs.getD i (out i)

/-! ## Ranges of addresses -/

/-- The addresses from `base` on, `size` of them, by their bounds. -/
def RamRange.bounds (r : RamRange) : ℕ × ℕ := (r.base.toNat, r.base.toNat + r.size.toNat)

/-- The end of the range is an address. -/
def RamRange.Fits (r : RamRange) : Prop := r.base.toNat + r.size.toNat < 2 ^ 64

instance (r : RamRange) : Decidable r.Fits := Nat.decLt _ _

theorem RamRange.Fits.toNat_stop {r : RamRange} (h : r.Fits) : (r.base + r.size).toNat = r.bounds.2 :=
  BitVec.toNat_add_of_lt h

/-- The bounds of the first `n` entries. -/
def boundsTo (n : ℕ) (out : ℕ → RamRange) : List (ℕ × ℕ) := (List.range n).map fun k => (out k).bounds

theorem boundsTo_eq (n : ℕ) (out : ℕ → RamRange) :
    boundsTo n out = ((List.range n).map out).map RamRange.bounds := by
  rw [List.map_map]
  rfl

theorem boundsTo_succ (n : ℕ) (out : ℕ → RamRange) :
    boundsTo (n + 1) out = boundsTo n out ++ [(out n).bounds] := by
  rw [boundsTo, List.range_succ, List.map_append]
  rfl

theorem boundsTo_congr {n : ℕ} {out out' : ℕ → RamRange} (h : ∀ k < n, out k = out' k) :
    boundsTo n out = boundsTo n out' :=
  List.map_congr_left fun k hk => congrArg RamRange.bounds (h k (List.mem_range.mp hk))

/-! ## The merge -/

section Merge

variable {m i n : ℕ} {out : ℕ → RamRange}

/-- A turn: the pending range and those behind it. -/
structure Turned (out : ℕ → RamRange) (m i : ℕ) (qs : List (ℕ × ℕ)) (st : ℕ × (ℕ → RamRange)) : Prop where
  le : st.1 ≤ i
  fits : (st.2 st.1).Fits
  above : ∀ k, i < k → st.2 k = out k
  merged : boundsTo st.1 st.2 ++ mergeRanges (st.2 st.1).bounds qs =
    boundsTo m out ++ mergeRanges (out m).bounds ((out i).bounds :: qs)

theorem turned_mergeStep (hlt : m < i) (hm : (out m).Fits) (hi : (out i).Fits) (qs : List (ℕ × ℕ)) :
    Turned out m i qs (mergeStep (m, out) i) := by
  have hstop := hm.toNat_stop
  have hstop' := hi.toNat_stop
  have hmeet : (out i).base ≤ (out m).base + (out m).size ↔ (out i).bounds.1 ≤ (out m).bounds.2 := by
    rw [BitVec.le_def, hstop]
    rfl
  have hlonger : (out i).base + (out i).size > (out m).base + (out m).size ↔
      (out m).bounds.2 < (out i).bounds.2 := by
    rw [gt_iff_lt, BitVec.lt_def, hstop, hstop']
  rw [mergeStep]
  dsimp only
  split_ifs with h1 h2
  · -- the pending range is made longer
    rw [hmeet] at h1
    rw [hlonger] at h2
    have hle : (out m).base.toNat ≤ (out i).bounds.2 := (Nat.le_add_right _ _).trans h2.le
    have hsize : ((out i).base + (out i).size - (out m).base).toNat = (out i).bounds.2 - (out m).base.toNat := by
      rw [← hstop'] at hle ⊢
      exact BitVec.toNat_sub_of_le hle
    have hbounds : RamRange.bounds { out m with size := (out i).base + (out i).size - (out m).base } =
        ((out m).bounds.1, (out i).bounds.2) := by
      rw [RamRange.bounds, hsize]
      exact Prod.ext rfl (Nat.add_sub_cancel' hle)
    refine ⟨hlt.le, ?_, fun k hk => Function.update_of_ne (by omega) _ _, ?_⟩
    · dsimp only
      rw [Function.update_self]
      exact (congrArg Prod.snd hbounds).trans_lt hi
    · dsimp only
      rw [Function.update_self, hbounds, mergeRanges, if_pos h1, Nat.max_eq_right h2.le]
      congr 1
      exact boundsTo_congr fun k hk => Function.update_of_ne (by omega) _ _
  · -- it reaches as far already
    rw [hmeet] at h1
    rw [hlonger] at h2
    refine ⟨hlt.le, hm, fun _ _ => rfl, ?_⟩
    rw [mergeRanges, if_pos h1, Nat.max_eq_left (Nat.not_lt.mp h2)]
  · -- there is a gap
    rw [hmeet] at h1
    refine ⟨hlt, ?_, fun k hk => Function.update_of_ne (by omega) _ _, ?_⟩
    · dsimp only
      rw [Function.update_self]
      exact hi
    · dsimp only
      rw [Function.update_self, mergeRanges, if_neg h1, boundsTo_succ, List.append_assoc,
        Function.update_of_ne (by omega)]
      congr 1
      exact boundsTo_congr fun k hk => Function.update_of_ne (by omega) _ _

/-- **The loop** merges the ranges that it reads. -/
theorem foldl_mergeStep (hlt : m < i) (hm : (out m).Fits) (hfits : ∀ k, i ≤ k → k < i + n → (out k).Fits) :
    boundsTo (((List.range' i n).foldl mergeStep (m, out)).1 + 1) ((List.range' i n).foldl mergeStep (m, out)).2 =
      boundsTo m out ++ mergeRanges (out m).bounds ((List.range' i n).map fun k => (out k).bounds) := by
  induction n generalizing m i out with
  | zero => exact boundsTo_succ m out
  | succ n ih =>
    obtain ⟨m', out', heq⟩ : ∃ m' out', mergeStep (m, out) i = (m', out') := ⟨_, _, rfl⟩
    have hturn := turned_mergeStep hlt hm (hfits i (Nat.le_refl i) (by omega))
      ((List.range' (i + 1) n).map fun k => (out k).bounds)
    rw [heq] at hturn
    have hsame : (List.range' (i + 1) n).map (fun k => (out' k).bounds) =
        (List.range' (i + 1) n).map fun k => (out k).bounds :=
      List.map_congr_left fun k hk => congrArg RamRange.bounds (hturn.above k (List.mem_range'_1.mp hk).1)
    have hmerged := ih (Nat.lt_succ_of_le hturn.le) hturn.fits fun k hlo hhi => by
      rw [hturn.above k hlo]
      exact hfits k (by omega) (by omega)
    rw [hsame, hturn.merged] at hmerged
    rw [List.range'_succ, List.foldl_cons, heq]
    exact hmerged

theorem mergeStep_fst_le (st : ℕ × (ℕ → RamRange)) (i : ℕ) : (mergeStep st i).1 ≤ st.1 + 1 := by
  unfold mergeStep
  dsimp only
  split_ifs
  · exact Nat.le_succ st.1
  · exact Nat.le_succ st.1
  · exact Nat.le_refl _

theorem foldl_mergeStep_fst_le (is : List ℕ) (st : ℕ × (ℕ → RamRange)) :
    (is.foldl mergeStep st).1 ≤ st.1 + is.length := by
  induction is generalizing st with
  | nil => exact Nat.le_refl _
  | cons i is ih =>
    have hrest := ih (mergeStep st i)
    have hturn := mergeStep_fst_le st i
    rw [List.foldl_cons, List.length_cons]
    omega

/-- No range is added. -/
theorem normalise_fst_le (cnt : ℕ) (out : ℕ → RamRange) : (normalise cnt out).1 ≤ cnt := by
  rw [normalise]
  dsimp only
  split_ifs with hcnt
  · have hle := foldl_mergeStep_fst_le (List.range' 1 (cnt - 1)) (0, insertionSort (fun r => r.base.toNat) cnt out)
    rw [List.length_range'] at hle
    dsimp only at hle
    omega
  · exact Nat.zero_le cnt

end Merge

/-! ## The whole function -/

section Whole

variable {cnt : ℕ} {out : ℕ → RamRange}

theorem bounds_cons (cnt : ℕ) (out : ℕ → RamRange) :
    boundsTo (cnt + 1) out = (out 0).bounds :: (List.range' 1 cnt).map fun k => (out k).bounds := by
  rw [boundsTo, List.range_eq_range', List.range'_succ, List.map_cons]

/-- What is left is the merge of the sorted ranges. -/
theorem normalise_eq (hfits : ∀ i < cnt + 1, (out i).Fits) : ∃ r qs, (r :: qs).Pairwise (fun a b => a.1 ≤ b.1) ∧
    (r :: qs).Perm (boundsTo (cnt + 1) out) ∧
    boundsTo (normalise (cnt + 1) out).1 (normalise (cnt + 1) out).2 = mergeRanges r qs := by
  let sorted := insertionSort (fun r : RamRange => r.base.toNat) (cnt + 1) out
  have hperm : ((List.range (cnt + 1)).map sorted).Perm ((List.range (cnt + 1)).map out) := insertionSort_perm
  have hsorted : ∀ i < cnt + 1, (sorted i).Fits := by
    intro i hi
    have hmem := hperm.mem_iff.mp (List.mem_map.mpr ⟨i, List.mem_range.mpr hi, rfl⟩)
    obtain ⟨k, hk, heq⟩ := List.mem_map.mp hmem
    rw [← heq]
    exact hfits k (List.mem_range.mp hk)
  have hmerged :=
    foldl_mergeStep (n := cnt) Nat.zero_lt_one (hsorted 0 (Nat.succ_pos cnt)) fun k _ hk => hsorted k (by omega)
  refine ⟨_, _, ?_, ?_, hmerged⟩
  · rw [← bounds_cons, boundsTo_eq]
    exact List.pairwise_map.mpr insertionSort_sorted.pairwise
  · rw [← bounds_cons, boundsTo_eq, boundsTo_eq]
    exact hperm.map RamRange.bounds

/-- The entries that are left: in ascending order, each ending below the next one, and covering what was there. -/
structure Normal (cnt : ℕ) (out : ℕ → RamRange) (r : ℕ × (ℕ → RamRange)) : Prop where
  le : r.1 ≤ cnt
  ascending : ∀ i j, i < j → j < r.1 → (r.2 i).base < (r.2 j).base
  apart : ∀ i j, i < j → j < r.1 → (r.2 i).base.toNat + (r.2 i).size.toNat < (r.2 j).base.toNat
  covers : ∀ x, (∃ i < r.1, (r.2 i).base.toNat ≤ x ∧ x < (r.2 i).base.toNat + (r.2 i).size.toNat) ↔
    ∃ i < cnt, (out i).base.toNat ≤ x ∧ x < (out i).base.toNat + (out i).size.toNat

theorem covers_boundsTo (n : ℕ) (out : ℕ → RamRange) (x : ℕ) : Covers (boundsTo n out) x ↔
    ∃ i < n, (out i).base.toNat ≤ x ∧ x < (out i).base.toNat + (out i).size.toNat := by
  constructor
  · rintro ⟨q, hq, hx⟩
    obtain ⟨i, hi, rfl⟩ := List.mem_map.mp hq
    exact ⟨i, List.mem_range.mp hi, hx⟩
  · rintro ⟨i, hi, hx⟩
    exact ⟨_, List.mem_map.mpr ⟨i, List.mem_range.mpr hi, rfl⟩, hx⟩

/-- **The ranges are normalised.** -/
theorem normalise_normal (cnt : ℕ) (out : ℕ → RamRange) (hfits : ∀ i < cnt, (out i).Fits) :
    Normal cnt out (normalise cnt out) := by
  obtain _ | cnt := cnt
  · exact ⟨Nat.le_refl 0, fun _ _ _ hj => absurd hj (Nat.not_lt_zero _), fun _ _ _ hj =>
      absurd hj (Nat.not_lt_zero _),
      fun _ => Iff.rfl⟩
  · obtain ⟨r, qs, hasc, hperm, hmerged⟩ := normalise_eq hfits
    have hapart : ∀ i j, i < j → j < (normalise (cnt + 1) out).1 →
        ((normalise (cnt + 1) out).2 i).bounds.2 < ((normalise (cnt + 1) out).2 j).bounds.1 := by
      have hsep := mergeRanges_separated hasc
      rw [← hmerged] at hsep
      intro i j hij hj
      have hpair := List.pairwise_iff_getElem.mp (List.pairwise_map.mp hsep) i j (by simpa using hij.trans hj)
        (by simpa using hj) hij
      rwa [List.getElem_range, List.getElem_range] at hpair
    refine ⟨normalise_fst_le _ _, fun i j hij hj => ?_, hapart, fun x => ?_⟩
    · rw [BitVec.lt_def]
      exact (Nat.le_add_right _ _).trans_lt (hapart i j hij hj)
    · have hcov := covers_mergeRanges hasc x
      rw [← hmerged, covers_boundsTo] at hcov
      rw [hcov, ← covers_boundsTo]
      exact exists_congr fun q => and_congr_left fun _ => hperm.mem_iff

/-- An upper half, a lower half that it adjoins, a range within the lower half, and one that is empty. -/
def halves : ℕ → RamRange
  | 0 => ⟨0xC0000000, 0x40000000⟩
  | 1 => ⟨0x80000000, 0x40000000⟩
  | 2 => ⟨0x90000000, 0x1000⟩
  | _ => ⟨0x200000000, 0⟩

theorem halves_normal : Normal 4 halves (normalise 4 halves) := normalise_normal 4 halves (by decide)

example : boundsTo (normalise 4 halves).1 (normalise 4 halves).2 =
    [(0x80000000, 0x100000000), (0x200000000, 0x200000000)] := by decide

theorem length_collectNode {T : Target} {root n : DtbNode} {max : ℕ} {pairs : List RamRange}
    (h : pairs.length ≤ max) :
    (collectNode T root max pairs n).length ≤ max := by
  unfold collectNode
  split_ifs
  · split
    · exact h
    · rw [List.length_append, List.length_map, List.length_take]
      omega
  · exact h

theorem length_collected (T : Target) (root : Option DtbNode) (max : ℕ) : (collected T root max).length ≤ max := by
  cases root with
  | none => exact Nat.zero_le max
  | some root =>
    have hnone : ([] : List RamRange).length ≤ max := Nat.zero_le max
    exact List.foldlRecOn (motive := fun pairs => pairs.length ≤ max) root.children (collectNode T root max) hnone
      fun _ hpairs _ _ => length_collectNode hpairs

/-- No more ranges are returned than there is room for. -/
theorem dtbRamRanges_le (T : Target) (root : Option DtbNode) (max : ℕ) (out : ℕ → RamRange) :
    (dtbRamRanges T root max out).1 ≤ max :=
  (normalise_fst_le _ _).trans (length_collected T root max)

end Whole

end Soceteer.Memtest
