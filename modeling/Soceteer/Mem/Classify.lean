import Soceteer.Lib.Ranges
import Soceteer.Mem.Geometry

/-!
# Soceteer.Mem.Classify — which address sets `geometryOf` takes for what

* `OneInterval`, `Interleaved`: the cases that the documentation of `geometryOf` names.
* `Classifies`: `geometryOf` returns `None` in the first case, the geometry in the second, and throws in all
  others.
* `none_iff`, `some_iff`: what it does.
* `classifies_iff`: it classifies a channel's sets exactly when none of three kinds of sets comes up.
-/

namespace Soceteer.Mem

open Bits Jvm Soceteer.Lib

variable {sets : List AddressSet} {base : ℕ} {g : InterleaveGeometry} {s : AddressSet}

/-! ## What is documented -/

/-- The union of the sets is one interval. -/
def OneInterval (sets : List AddressSet) : Prop :=
  ∃ lo hi, ∀ x, (∃ s ∈ sets, s.contains x = true) ↔ lo ≤ x ∧ x < hi

/-- The value of the channel-select bits of a set. -/
def channelValue (dropLsb dropBits : ℕ) (s : AddressSet) : ℕ := s.base / 2 ^ dropLsb % 2 ^ dropBits

/-- The sets follow the interleave pattern of `g`. -/
structure Interleaved (sets : List AddressSet) (base : ℕ) (g : InterleaveGeometry) : Prop where
  hole : ∃ n, g.dropLsb + g.dropBits < n ∧ ∀ s ∈ sets, HoleMask s.mask g.dropLsb g.dropBits n
  dropBits_pos : 1 ≤ g.dropBits
  dropLsb_pos : 1 ≤ g.dropLsb
  index : ∀ s ∈ sets, (channelValue g.dropLsb g.dropBits s : ℤ) = g.channelIndex
  above : ∀ s ∈ sets, base ≤ s.base
  aligned : base % 2 ^ (g.dropLsb + g.dropBits) = 0
  base_eq : g.base = base

/-- `geometryOf` classifies the sets of one slave as documented. -/
structure Classifies (mAxi : AXI4BusInfo) (sets : List AddressSet) (base : ℕ) : Prop where
  none_iff : geometryOf mAxi base = .ok none ↔ OneInterval sets
  some_iff : ∀ g, geometryOf mAxi base = .ok (some g) ↔ Interleaved sets base g
  throws : ¬ OneInterval sets → (∀ g, ¬ Interleaved sets base g) → ∃ e, geometryOf mAxi base = .error e

/-! ## Blocks of ones -/

/-- The mask is a block of ones: the set is an interval. -/
def Ones (s : AddressSet) : Prop := s.mask &&& (s.mask + 1) = 0

instance (s : AddressSet) : Decidable (Ones s) := inferInstanceAs (Decidable (_ = _))

/-- The interval of a set whose mask is a block of ones. -/
def rangeOf (s : AddressSet) : ℕ × ℕ := (s.base, s.base + s.mask + 1)

theorem contains_iff_of_ones (h : Ones s) {x : ℕ} :
    s.contains x = true ↔ s.base ≤ x ∧ x < s.base + s.mask + 1 := by
  obtain ⟨k, hk⟩ := eq_two_pow_sub_one_of_and_succ h
  have hmask : HoleMask s.mask k 0 k := ⟨le_rfl, fun i => by rw [hk, Nat.testBit_two_pow_sub_one]; simp⟩
  have hbase := hmask.mod_eq_zero s.aligned
  have hpos : 0 < 2 ^ k := Nat.two_pow_pos k
  have hdiv : s.base / 2 ^ k * 2 ^ k = s.base := by
    have := Nat.div_add_mod s.base (2 ^ k)
    rw [hbase, Nat.add_zero, Nat.mul_comm] at this
    exact this
  rw [AddressSet.contains_iff, hmask.agree_iff, hk]
  simp only [Nat.pow_zero, Nat.mod_one, true_and]
  rw [Nat.div_eq_iff hpos, ← hdiv, Nat.mul_div_cancel _ hpos]
  omega

theorem covers_iff (h : ∀ s ∈ sets, Ones s) (x : ℕ) :
    Covers (sets.map rangeOf) x ↔ ∃ s ∈ sets, s.contains x = true := by
  constructor
  · rintro ⟨_, hr, hx⟩
    obtain ⟨s, hs, rfl⟩ := List.mem_map.mp hr
    exact ⟨s, hs, (contains_iff_of_ones (h s hs)).mpr hx⟩
  · rintro ⟨s, hs, hx⟩
    exact ⟨_, List.mem_map_of_mem hs, (contains_iff_of_ones (h s hs)).mp hx⟩

/-- No address is in two sets. -/
def Apart (s t : AddressSet) : Prop := ∀ x, ¬ (s.contains x = true ∧ t.contains x = true)

theorem Apart.symm {s t : AddressSet} (h : Apart s t) : Apart t s := fun x hx => h x hx.symm

/-- Intervals one behind the other. -/
theorem apart_of_ones {s t : AddressSet} (hs : Ones s) (ht : Ones t)
    (hlt : s.base + s.mask < t.base) : Apart s t := by
  rintro x ⟨hlow, hhigh⟩
  have hbelow := ((contains_iff_of_ones hs).mp hlow).2
  have habove := ((contains_iff_of_ones ht).mp hhigh).1
  omega

/-- The scan for a contiguous union, over the intervals in their order. -/
theorem contiguousUnion_eq : contiguousUnion sets = true ↔ (∀ s ∈ sets, Ones s) ∧
    ((sets.insertionSort fun a b => a.base ≤ b.base).map rangeOf).IsChain fun a b => a.2 = b.1 := by
  rw [contiguousUnion, Bool.and_eq_true, List.all_eq_true, List.isChain_map,
    all_zip_tail (fun a b : AddressSet => a.base + a.mask + 1 == b.base)]
  simp only [List.mem_insertionSort, beq_iff_eq]
  rfl

theorem contiguousUnion_iff (hne : sets ≠ []) (hdisj : sets.Pairwise Apart) :
    contiguousUnion sets = true ↔ OneInterval sets ∧ ∀ s ∈ sets, Ones s := by
  rw [contiguousUnion_eq, and_comm]
  refine and_congr_left fun hones => ?_
  set sorted := sets.insertionSort fun a b => a.base ≤ b.base with hsorted
  have hmem : ∀ s, s ∈ sorted ↔ s ∈ sets := fun s => List.mem_insertionSort _
  have hcovers : ∀ x, Covers (sorted.map rangeOf) x ↔ ∃ s ∈ sets, s.contains x = true := by
    intro x
    rw [covers_iff (fun s hs => hones s ((hmem s).mp hs))]
    simp only [hmem]
  have hpos : ∀ r ∈ sorted.map rangeOf, r.1 < r.2 := by
    intro r hr
    obtain ⟨s, -, rfl⟩ := List.mem_map.mp hr
    rw [rangeOf]
    omega
  constructor
  · intro hchain
    obtain ⟨r, rs, hcons⟩ := List.exists_cons_of_ne_nil (show sorted.map rangeOf ≠ [] by
      rw [ne_eq, List.map_eq_nil_iff, ← List.length_eq_zero_iff, hsorted, List.length_insertionSort,
        List.length_eq_zero_iff]
      exact hne)
    rw [hcons] at hchain hpos hcovers
    obtain ⟨hi, -, hcov⟩ := covers_of_chain rs r hpos hchain
    exact ⟨r.1, hi, fun x => (hcovers x).symm.trans (hcov x)⟩
  · rintro ⟨lo, hi, hunion⟩
    have hapart : sorted.Pairwise Apart :=
      ((List.perm_insertionSort _ sets).pairwise_iff Apart.symm).mpr hdisj
    have hle : sorted.Pairwise fun a b => a.base ≤ b.base := by
      have : IsTrans AddressSet fun a b => a.base ≤ b.base := ⟨fun _ _ _ => Nat.le_trans⟩
      have : Std.Total fun a b : AddressSet => a.base ≤ b.base := ⟨fun _ _ => Nat.le_total _ _⟩
      exact List.pairwise_insertionSort _ sets
    have hasc : (sorted.map rangeOf).Pairwise fun a b => a.2 ≤ b.1 := by
      rw [List.pairwise_map]
      refine (hle.and hapart).imp_of_mem fun {a b} ha _ ⟨hbase, hnot⟩ => ?_
      -- the base of `b` is not in `a`
      by_contra hlt
      refine hnot b.base ⟨(contains_iff_of_ones (hones a ((hmem a).mp ha))).mpr ⟨hbase, ?_⟩, b.contains_base⟩
      exact Nat.lt_of_not_le hlt
    have hgap : Gapless (sorted.map rangeOf) := by
      intro x y z hxy hyz hx hz
      rw [hcovers, hunion] at hx hz ⊢
      omega
    exact chain_of_gapless _ hpos hasc hgap

/-! ## What `geometryOf` does -/

/-- The sets share a block of ones as their mask. -/
def OneBlockSize (sets : List AddressSet) : Prop := ∀ s ∈ sets, Ones s ∧ ∀ t ∈ sets, s.mask = t.mask

instance (sets : List AddressSet) : Decidable (OneBlockSize sets) :=
  inferInstanceAs (Decidable (∀ s ∈ sets, Ones s ∧ ∀ t ∈ sets, s.mask = t.mask))

theorem geometryOfSets_none (hne : sets ≠ []) :
    geometryOfSets sets base = .ok none ↔ contiguousUnion sets = true ∨ OneBlockSize sets := by
  obtain ⟨s₀, tl, rfl⟩ := List.exists_cons_of_ne_nil hne
  have hrest : (s₀.mask >>> lowestSetBit (s₀.mask + 1) = 0 ∨
      lowestSetBit (s₀.mask >>> lowestSetBit (s₀.mask + 1)) = 0) ↔ Ones s₀ := by
    rw [Ones, ← rest_eq_zero_iff]
    refine ⟨fun h => ?_, Or.inl⟩
    by_contra hne
    exact lowestSetBit_rest_ne_zero hne (h.resolve_left hne)
  by_cases hcont : contiguousUnion (s₀ :: tl) = true
  · rw [geometryOfSets, if_pos hcont]
    exact iff_of_true rfl (Or.inl hcont)
  by_cases hsame : ∀ s ∈ s₀ :: tl, s.mask = s₀.mask
  · have hsame' : ¬ (!(s₀ :: tl).all fun s => s.mask == s₀.mask) = true := by simpa using hsame
    by_cases hones : Ones s₀
    · rw [geometryOfSets, if_neg hcont]
      dsimp only
      rw [if_neg hsame', if_pos (hrest.mpr hones)]
      refine iff_of_true rfl (Or.inr fun s hs => ⟨?_, fun t ht => (hsame s hs).trans (hsame t ht).symm⟩)
      rw [Ones, hsame s hs]
      exact hones
    · refine iff_of_false (fun h => ?_) (not_or.mpr ⟨hcont, fun h => hones (h s₀ List.mem_cons_self).1⟩)
      rw [geometryOfSets, if_neg hcont] at h
      dsimp only at h
      rw [if_neg hsame', if_neg (mt hrest.mp hones)] at h
      split_ifs at h
      split at h <;> cases h
  · refine iff_of_false (fun h => ?_)
      (not_or.mpr ⟨hcont, fun h => hsame fun s hs => (h s hs).2 s₀ List.mem_cons_self⟩)
    rw [geometryOfSets, if_neg hcont] at h
    dsimp only at h
    rw [if_pos (by simpa using hsame)] at h
    cases h

theorem geometryOfSets_some_iff (hne : sets ≠ []) : geometryOfSets sets base = .ok (some g) ↔
    g.base = base ∧ 1 ≤ g.dropBits ∧ ∃ n, IsGeometry sets g n := by
  constructor
  · intro h
    obtain ⟨hbase, n, hg⟩ := geometryOfSets_some h
    refine ⟨hbase, Nat.one_le_iff_ne_zero.mpr fun hzero => ?_, n, hg⟩
    -- without a hole the masks are a block of ones
    have hblock : OneBlockSize sets := by
      intro s hs
      refine ⟨?_, fun t ht => (hg.hole s hs).ext (hg.hole t ht)⟩
      have hfilled := (hg.hole s hs).filled
      rw [hzero, Nat.pow_zero, Nat.sub_self, Nat.zero_shiftLeft, Nat.or_zero] at hfilled
      rw [Ones, hfilled]
      exact two_pow_sub_one_and_succ n
    rw [(geometryOfSets_none hne).mpr (Or.inr hblock)] at h
    cases h
  · rintro ⟨rfl, hk, n, hg⟩
    obtain ⟨s₀, tl, rfl⟩ := List.exists_cons_of_ne_nil hne
    have hs₀ := hg.hole s₀ List.mem_cons_self
    have hnot := hs₀.and_succ_ne_zero hk hg.above
    have hcont : ¬ contiguousUnion (s₀ :: tl) = true := fun hc =>
      hnot ((contiguousUnion_eq.mp hc).1 s₀ List.mem_cons_self)
    have hsame : ¬ (!(s₀ :: tl).all fun s => s.mask == s₀.mask) = true := by
      simpa using fun s hs => (hg.hole s (List.mem_cons_of_mem _ hs)).ext hs₀
    obtain ⟨hrest, hbits⟩ := hs₀.lowestSetBit_rest hg.above
    have hle : ¬ (!(s₀ :: tl).all fun s => decide (g.base ≤ s.base)) = true := by simpa using hg.base_le
    have hindex : distinct ((s₀ :: tl).map (channelIndexOf g.dropLsb g.dropBits)) = [g.channelIndex] := by
      refine distinct_eq_singleton (List.cons_ne_nil _ _) fun a ha => ?_
      obtain ⟨s, hs, rfl⟩ := List.mem_map.mp ha
      exact hg.index s hs
    rw [geometryOfSets, if_neg hcont]
    dsimp only
    rw [if_neg hsame, hs₀.lowestSetBit_succ hk, hbits, if_neg (not_or.mpr ⟨hrest, by omega⟩), hs₀.filled,
      if_neg (not_not.mpr (two_pow_sub_one_and_succ n)), if_neg (Nat.not_lt.mpr hg.dropLsb_pos),
      if_neg (not_not.mpr hg.base_aligned), if_neg hle, hindex]

/-! ## When it classifies -/

/-- Where the sets follow an interleave pattern and their channel-select values agree modulo `2 ^ 32`, these are
values of an `Int`. -/
def FitsInt (sets : List AddressSet) (base : ℕ) : Prop :=
  ∀ l k n, l + k < n → (∀ s ∈ sets, HoleMask s.mask l k n) → 1 ≤ k → 1 ≤ l → (∀ s ∈ sets, base ≤ s.base) →
    base % 2 ^ (l + k) = 0 →
    (∀ s ∈ sets, ∀ t ∈ sets, channelValue l k s % 2 ^ 32 = channelValue l k t % 2 ^ 32) →
    ∀ s ∈ sets, channelValue l k s < 2 ^ 31

theorem channelIndexOf_channelValue (l k : ℕ) (s : AddressSet) :
    channelIndexOf l k s = toInt32 (channelValue l k s) := by
  rw [channelIndexOf, channelValue, Nat.shiftRight_eq_div_pow, Nat.and_two_pow_sub_one_eq_mod]

theorem toInt32_eq_iff {x y : ℕ} : toInt32 x = toInt32 y ↔ x % 2 ^ 32 = y % 2 ^ 32 := by
  rw [toInt32_def, toInt32_def]
  omega

theorem toInt32_natCast_eq_iff {x : ℕ} : toInt32 x = x ↔ x < 2 ^ 31 := by
  rw [toInt32_def]
  omega

/-- When the sets with a contiguous union are found. -/
theorem none_exact_iff (hne : sets ≠ []) (hdisj : sets.Pairwise Apart) :
    (geometryOfSets sets base = .ok none ↔ OneInterval sets) ↔
      (OneInterval sets → ∀ s ∈ sets, Ones s) ∧ (OneBlockSize sets → OneInterval sets) := by
  rw [geometryOfSets_none hne, contiguousUnion_iff hne hdisj]
  constructor
  · intro h
    refine ⟨fun hone s hs => ?_, fun hblock => h.mp (Or.inr hblock)⟩
    rcases h.mpr hone with hcont | hblock
    · exact hcont.2 s hs
    · exact (hblock s hs).1
  · rintro ⟨hones, hblock⟩
    refine ⟨fun h => h.elim And.left hblock, fun hone => Or.inl ⟨hone, hones hone⟩⟩

/-- When the interleaved sets are found. -/
theorem some_exact_iff (hne : sets ≠ []) :
    (∀ g, geometryOfSets sets base = .ok (some g) ↔ Interleaved sets base g) ↔ FitsInt sets base := by
  simp only [geometryOfSets_some_iff hne]
  constructor
  · intro h l k n hn hhole hk hl habove halign hmod
    obtain ⟨s₀, hs₀⟩ := List.exists_mem_of_ne_nil sets hne
    have hindex : ∀ s ∈ sets, channelIndexOf l k s = channelIndexOf l k s₀ := by
      intro s hs
      rw [channelIndexOf_channelValue, channelIndexOf_channelValue]
      exact toInt32_eq_iff.mpr (hmod s hs s₀ hs₀)
    have hgeo : IsGeometry sets ⟨l, k, channelIndexOf l k s₀, base⟩ n :=
      { nonempty := hne, hole := hhole, above := hn, dropLsb_pos := hl, base_aligned := halign, base_le := habove,
        index := by dsimp only; exact hindex }
    have hg := (h ⟨l, k, channelIndexOf l k s₀, base⟩).mp ⟨rfl, hk, n, hgeo⟩
    intro s hs
    have hvalue := hg.index s hs
    dsimp only at hvalue
    rw [← hindex s hs, channelIndexOf_channelValue] at hvalue
    exact toInt32_natCast_eq_iff.mp hvalue.symm
  · intro hfits g
    constructor
    · rintro ⟨hbase, hk, n, hg⟩
      have hmod : ∀ s ∈ sets, ∀ t ∈ sets,
          channelValue g.dropLsb g.dropBits s % 2 ^ 32 = channelValue g.dropLsb g.dropBits t % 2 ^ 32 := by
        intro s hs t ht
        rw [← toInt32_eq_iff, ← channelIndexOf_channelValue, ← channelIndexOf_channelValue,
          hg.index s hs, hg.index t ht]
      have habove : ∀ s ∈ sets, base ≤ s.base := hbase ▸ hg.base_le
      have halign : base % 2 ^ (g.dropLsb + g.dropBits) = 0 := hbase ▸ hg.base_aligned
      have hlt := hfits _ _ n hg.above hg.hole hk hg.dropLsb_pos habove halign hmod
      refine ⟨⟨n, hg.above, hg.hole⟩, hk, hg.dropLsb_pos, fun s hs => ?_, habove, halign, hbase⟩
      rw [← hg.index s hs, channelIndexOf_channelValue]
      exact (toInt32_natCast_eq_iff.mpr (hlt s hs)).symm
    · intro hi
      obtain ⟨n, hn, hhole⟩ := hi.hole
      have hmod : ∀ s ∈ sets, ∀ t ∈ sets,
          channelValue g.dropLsb g.dropBits s % 2 ^ 32 = channelValue g.dropLsb g.dropBits t % 2 ^ 32 := by
        intro s hs t ht
        rw [Int.ofNat_inj.mp ((hi.index s hs).trans (hi.index t ht).symm)]
      have hlt := hfits _ _ n hn hhole hi.dropBits_pos hi.dropLsb_pos hi.above hi.aligned hmod
      have hbase := hi.base_eq
      refine ⟨hbase, hi.dropBits_pos, n, hne, hhole, hn, hi.dropLsb_pos, ?_, ?_, fun s hs => ?_⟩
      · rw [hbase]
        exact hi.aligned
      · rw [hbase]
        exact hi.above
      · rw [channelIndexOf_channelValue, toInt32_natCast_eq_iff.mpr (hlt s hs)]
        exact hi.index s hs

/-- **`geometryOf` on the disjoint sets of one slave** is as documented exactly when sets with a contiguous union
are intervals one by one, intervals of one size have a contiguous union, and the channel-select values are values
of an `Int`. -/
theorem classifies_iff (hne : sets ≠ []) (hdisj : sets.Pairwise Apart) (base addrBits dataBits idBits : ℕ) :
    Classifies ⟨.slavePort [sets], addrBits, dataBits, idBits⟩ sets base ↔
      (OneInterval sets → ∀ s ∈ sets, Ones s) ∧ (OneBlockSize sets → OneInterval sets) ∧ FitsInt sets base := by
  rw [← and_assoc, ← none_exact_iff hne hdisj, ← some_exact_iff hne]
  constructor
  · rintro ⟨hnone, hsome, -⟩
    exact ⟨hnone, hsome⟩
  · rintro ⟨hnone, hsome⟩
    refine ⟨hnone, hsome, fun hno hno' => ?_⟩
    change ∃ e, geometryOfSets sets base = .error e
    match hres : geometryOfSets sets base with
    | .error e => exact ⟨e, rfl⟩
    | .ok none => exact absurd (hnone.mp hres) hno
    | .ok (some g) => exact absurd ((hsome g).mp hres) (hno' g)

/-- 2 GiB in two pieces next to each other. -/
def plain : List AddressSet := [⟨0x80000000, 0x3fffffff, by decide⟩, ⟨0xc0000000, 0x3fffffff, by decide⟩]

theorem plain_classified : plain.Pairwise Apart ∧ Classifies ⟨.slavePort [plain], 32, 64, 4⟩ plain 0x80000000 := by
  have hones : ∀ s ∈ plain, Ones s := by decide
  have hapart : plain.Pairwise Apart :=
    List.pairwise_pair.mpr (apart_of_ones (hones _ List.mem_cons_self) (hones _ (by simp [plain])) (by decide))
  have hone : OneInterval plain := by
    refine ⟨0x80000000, 0x100000000, fun x => ?_⟩
    simp only [plain, List.mem_cons, List.not_mem_nil, or_false, exists_eq_or_imp, exists_eq_left]
    rw [contains_iff_of_ones (hones _ List.mem_cons_self), contains_iff_of_ones (hones _ (by simp [plain]))]
    dsimp only
    omega
  refine ⟨hapart, (classifies_iff (List.cons_ne_nil _ _) hapart _ _ _ _).mpr
    ⟨fun _ => hones, fun _ => hone, fun l k n hn hhole hk _ _ _ _ => ?_⟩⟩
  have hfirst := hhole _ List.mem_cons_self
  exact absurd (hones _ List.mem_cons_self) (hfirst.and_succ_ne_zero hk hn)

/-- Two pieces of 1 GiB with 1 GiB between them. -/
def apart : List AddressSet := [⟨0x80000000, 0x3fffffff, by decide⟩, ⟨0x100000000, 0x3fffffff, by decide⟩]

/-- They are taken for a contiguous range. -/
theorem apart_taken_for_one : apart.Pairwise Apart ∧ ¬ OneInterval apart ∧
    geometryOf ⟨.slavePort [apart], 33, 64, 4⟩ 0x80000000 = .ok none ∧
    ¬ Classifies ⟨.slavePort [apart], 33, 64, 4⟩ apart 0x80000000 := by
  have hone : ¬ OneInterval apart := by
    rintro ⟨lo, hi, hunion⟩
    have hlow := (hunion 0x80000000).mp (by decide)
    have hhigh := (hunion 0x100000000).mp (by decide)
    exact absurd ((hunion 0xc0000000).mpr ⟨by omega, by omega⟩) (by decide)
  have hnone : geometryOf ⟨.slavePort [apart], 33, 64, 4⟩ 0x80000000 = .ok none :=
    (geometryOfSets_none (List.cons_ne_nil _ _)).mpr (Or.inr (by decide))
  refine ⟨List.pairwise_pair.mpr ?_, hone, hnone, fun h => hone (h.none_iff.mp hnone)⟩
  exact apart_of_ones (by decide) (by decide) (by decide)

end Soceteer.Mem
