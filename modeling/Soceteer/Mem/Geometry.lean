import Mathlib.Data.List.Sort
import Soceteer.Lib.Bits
import Soceteer.Lib.Jvm

/-!
# Soceteer.Mem.Geometry — interleave geometry of the memory channels

`AXIAddrDeinterleaver.geometryOf` reads the interleave geometry of one memory channel off its diplomacy address
sets, and `SOCTVivadoSystem` checks the geometries of all channels against each other.

* `AddressSet`: rocket-chip's address sets, base and mask disjoint.
* `geometryOfSets`, `geometryOf`: `none` for a contiguous range, a geometry for a round-robin channel, an
  exception otherwise.
* `memGeometries`: the geometries of all channels, with the cross-channel sanity check `checkGeometries`.
* `IsGeometry`: what a channel accepted by `geometryOf` looks like (`geometryOf_some`); `CrossChecked`: what the
  cross-channel check establishes (`checkGeometries_ok`).
-/

namespace Soceteer.Mem

open Bits Jvm

/-- `VivadoDesignException`: the error type of the Vivado backend. -/
structure VivadoDesignException where
  message : String
deriving DecidableEq, Repr

/-- `BigInt.toString(16)`. -/
def toHex (n : ℕ) : String := String.ofList (Nat.toDigits 16 n)

/-! ## Address sets -/

/-- rocket-chip's `AddressSet`: the addresses that agree with `base` outside `mask`. -/
structure AddressSet where
  base : ℕ
  mask : ℕ
  aligned : base &&& mask = 0
deriving DecidableEq

namespace AddressSet

/-- `((x ^ base) & ~mask) == 0`. -/
def contains (s : AddressSet) (x : ℕ) : Bool := (x ^^^ s.base) ||| s.mask == s.mask

instance : ToString AddressSet :=
  ⟨fun s => "AddressSet(0x" ++ toHex s.base ++ ", 0x" ++ toHex s.mask ++ ")"⟩

theorem contains_iff {s : AddressSet} {x : ℕ} :
    s.contains x = true ↔ ∀ i, s.mask.testBit i = false → x.testBit i = s.base.testBit i := by
  rw [contains, beq_iff_eq]
  constructor
  · intro h i hi
    have := congrArg (fun y => y.testBit i) h
    simp only [Nat.testBit_or, Nat.testBit_xor, hi, Bool.or_false] at this
    exact bne_eq_false_iff_eq.mp this
  · intro h
    refine Nat.eq_of_testBit_eq fun i => ?_
    cases hi : s.mask.testBit i with
    | true => simp [hi]
    | false => simp [hi, h i hi]

theorem contains_base (s : AddressSet) : s.contains s.base = true :=
  contains_iff.mpr fun _ _ => rfl

/-- The largest address of a set. -/
theorem contains_base_or_mask (s : AddressSet) : s.contains (s.base ||| s.mask) = true :=
  contains_iff.mpr fun i hi => by simp [hi]

/-- No address of a set lies below its base. -/
theorem base_le {s : AddressSet} {x : ℕ} (h : s.contains x = true) : s.base ≤ x := by
  have hsub : s.base &&& x = s.base := by
    refine Nat.eq_of_testBit_eq fun i => ?_
    rw [Nat.testBit_and]
    cases hb : s.base.testBit i with
    | false => simp
    | true =>
      have hm : s.mask.testBit i = false := by
        have := congrArg (fun y => y.testBit i) s.aligned
        simpa [hb] using this
      simp [contains_iff.mp h i hm, hb]
  rw [← hsub]
  exact Nat.and_le_right

/-- No address of a set lies above its base with all mask bits set. -/
theorem le_base_or_mask {s : AddressSet} {x : ℕ} (h : s.contains x = true) : x ≤ s.base ||| s.mask := by
  have hsub : x &&& (s.base ||| s.mask) = x := by
    refine Nat.eq_of_testBit_eq fun i => ?_
    rw [Nat.testBit_and, Nat.testBit_or]
    cases hm : s.mask.testBit i with
    | true => simp
    | false => simp [contains_iff.mp h i hm]
  rw [← hsub]
  exact Nat.and_le_right

end AddressSet

/-! ## The geometry of one channel -/

/-- `InterleaveGeometry`; `channelIndex` is an `Int`. -/
structure InterleaveGeometry where
  dropLsb : ℕ
  dropBits : ℕ
  channelIndex : ℤ
  base : ℕ
deriving DecidableEq

namespace InterleaveGeometry

/-- `1 << dropBits` on `Int`. -/
def nChannels (g : InterleaveGeometry) : ℤ := shl32 g.dropBits

def blockBytes (g : InterleaveGeometry) : ℕ := 2 ^ g.dropLsb

instance : ToString InterleaveGeometry :=
  ⟨fun g => "InterleaveGeometry(blockBytes=0x" ++ toHex g.blockBytes ++ ", nChannels=" ++ toString g.nChannels ++
    ", channelIndex=" ++ toString g.channelIndex ++ ", base=0x" ++ toHex g.base ++ ")"⟩

end InterleaveGeometry

/-- The slave address sets of an exported AXI4 port; a master port has none. -/
inductive AxiParams
  | slavePort (slaves : List (List AddressSet))
  | masterPort

/-- `AXI4BusInfo`, as far as the deinterleaver reads it: the port parameters and the widths of its bundle. -/
structure AXI4BusInfo where
  axiParams : AxiParams
  addrBits : ℕ
  dataBits : ℕ
  idBits : ℕ

/-- `mkString(", ")`. -/
def mkString {α : Type} [ToString α] (xs : List α) : String := String.intercalate ", " (xs.map toString)

/-- Blocks of ones, each ending where the next begins. -/
def contiguousUnion (sets : List AddressSet) : Bool :=
  let sorted := sets.insertionSort (fun a b => a.base ≤ b.base)
  sorted.all (fun s => s.mask &&& (s.mask + 1) == 0) &&
    (sorted.zip sorted.tail).all (fun p => p.1.base + p.1.mask + 1 == p.2.base)

/-- The channel-select value of a set, `((s.base >> dropLsb) & chMask).toInt`. -/
def channelIndexOf (dropLsb dropBits : ℕ) (s : AddressSet) : ℤ :=
  toInt32 ((s.base >>> dropLsb &&& (2 ^ dropBits - 1) : ℕ) : ℤ)

/-- `geometryOf` from the address sets of the one slave on. -/
def geometryOfSets (sets : List AddressSet) (base : ℕ) :
    Except VivadoDesignException (Option InterleaveGeometry) :=
  if contiguousUnion sets then .ok none
  else match sets with
  -- not reached: the empty union is contiguous
  | [] => .ok none
  | s₀ :: _ =>
    let mask := s₀.mask
    if !sets.all (fun s => s.mask == mask) then
      .error ⟨"Memory channel address sets are neither contiguous nor share an interleave mask, " ++
        "cannot derive interleave geometry: " ++ mkString sets⟩
    else
      -- `(~mask).lowestSetBit`: the lowest zero of the mask is the lowest one of `mask + 1`
      let dropLsb := lowestSetBit (mask + 1)
      let rest := mask >>> dropLsb
      if rest = 0 ∨ lowestSetBit rest = 0 then .ok none
      else
        let dropBits := lowestSetBit rest
        let filled := mask ||| ((2 ^ dropBits - 1) <<< dropLsb)
        if filled &&& (filled + 1) ≠ 0 then
          .error ⟨"Memory channel mask 0x" ++ toHex mask ++
            " has more than one hole; unsupported interleave pattern."⟩
        else if dropLsb < 1 then
          .error ⟨"Interleave block size below 2 bytes is not supported by axi_addr_deinterleaver."⟩
        else if base % 2 ^ (dropLsb + dropBits) ≠ 0 then
          .error ⟨"Memory base address 0x" ++ toHex base ++ " must be aligned to the interleave granule (" ++
            toString (shl32 (dropLsb + dropBits)) ++ " bytes)."⟩
        else if !sets.all (fun s => base ≤ s.base) then
          .error ⟨"Memory channel address sets " ++ mkString sets ++
            " start below the memory base address 0x" ++ toHex base ++ "."⟩
        else
          match distinct (sets.map (channelIndexOf dropLsb dropBits)) with
          | [index] => .ok (some ⟨dropLsb, dropBits, index, base⟩)
          | indices => .error ⟨"Memory channel address sets encode inconsistent channel indices " ++
              mkString indices ++ ": " ++ mkString sets⟩

/-- `AXIAddrDeinterleaver.geometryOf`. -/
def geometryOf (mAxi : AXI4BusInfo) (base : ℕ) : Except VivadoDesignException (Option InterleaveGeometry) :=
  match mAxi.axiParams with
  | .masterPort => .error ⟨"AXIAddrDeinterleaver requires an AXI4 slave port (a memory channel), but got a " ++
      "master port."⟩
  | .slavePort [sets] => geometryOfSets sets base
  | .slavePort slaves => .error ⟨"AXIAddrDeinterleaver expects exactly one AXI4 slave per memory channel, " ++
      "but found " ++ toString slaves.length ++ "."⟩

/-- The address sets of a port (all its slaves). -/
def AXI4BusInfo.sets (mAxi : AXI4BusInfo) : List AddressSet :=
  match mAxi.axiParams with
  | .slavePort slaves => slaves.flatten
  | .masterPort => []

/-- The addresses that reach a port. -/
def AXI4BusInfo.Sees (mAxi : AXI4BusInfo) (a : ℕ) : Prop := ∃ s ∈ mAxi.sets, s.contains a = true

/-! ## The cross-channel check of `SOCTVivadoSystem` -/

def checkGeometries (nMems : ℕ) (geos : List InterleaveGeometry) : Except VivadoDesignException Unit :=
  match geos with
  | [] => .ok ()
  | head :: _ =>
    if geos.length ≠ nMems then
      .error ⟨"Only " ++ toString geos.length ++ " of " ++ toString nMems ++
        " memory channels are interleaved. Mixed interleaved/contiguous channels are not supported."⟩
    else if (distinct (geos.map fun g => (g.dropLsb, g.dropBits, g.base))).length ≠ 1 then
      .error ⟨"Memory channels disagree on interleave geometry: " ++ mkString geos⟩
    else if head.nChannels ≠ nMems ∨ (distinct (geos.map (·.channelIndex))).length ≠ nMems then
      .error ⟨"Interleave geometry does not match the number of memory channels (" ++ toString nMems ++ "): " ++
        mkString geos⟩
    else .ok ()

/-- The geometries of the memory channels, `none` where no deinterleaver is needed; `base` is `ExtMem`'s. -/
def memGeometries (base : ℕ) (axiMems : List AXI4BusInfo) :
    Except VivadoDesignException (List (Option InterleaveGeometry)) := do
  let deints ← axiMems.mapM (geometryOf · base)
  checkGeometries axiMems.length (deints.filterMap id)
  pure deints

/-! ## What the checks establish -/

/-- A channel with address sets `sets` and geometry `g`: one mask with a single hole of `g.dropBits` bits at
`g.dropLsb` and `n` bits in all, an aligned base below all sets, and one channel index. -/
structure IsGeometry (sets : List AddressSet) (g : InterleaveGeometry) (n : ℕ) : Prop where
  nonempty : sets ≠ []
  hole : ∀ s ∈ sets, HoleMask s.mask g.dropLsb g.dropBits n
  above : g.dropLsb + g.dropBits < n
  dropLsb_pos : 0 < g.dropLsb
  base_aligned : g.base % 2 ^ (g.dropLsb + g.dropBits) = 0
  base_le : ∀ s ∈ sets, g.base ≤ s.base
  index : ∀ s ∈ sets, channelIndexOf g.dropLsb g.dropBits s = g.channelIndex

/-- The mask analysis: a mask whose only hole starts at its lowest zero. -/
theorem holeMask_of_filled {mask : ℕ} (hrest : mask >>> lowestSetBit (mask + 1) ≠ 0)
    (hfilled :
      (mask ||| ((2 ^ lowestSetBit (mask >>> lowestSetBit (mask + 1)) - 1) <<< lowestSetBit (mask + 1))) &&&
      ((mask ||| ((2 ^ lowestSetBit (mask >>> lowestSetBit (mask + 1)) - 1) <<< lowestSetBit (mask + 1))) + 1) =
        0) :
    ∃ n, HoleMask mask (lowestSetBit (mask + 1)) (lowestSetBit (mask >>> lowestSetBit (mask + 1))) n ∧
      lowestSetBit (mask + 1) + lowestSetBit (mask >>> lowestSetBit (mask + 1)) < n := by
  obtain ⟨n, hn⟩ := eq_two_pow_sub_one_of_and_succ hfilled
  set l := lowestSetBit (mask + 1) with hl
  set k := lowestSetBit (mask >>> l) with hk
  have hbit : ∀ i, (mask.testBit i || (decide (l ≤ i) && decide (i - l < k))) = decide (i < n) := fun i => by
    have := congrArg (fun x => x.testBit i) hn
    simpa [Nat.testBit_shiftLeft, Nat.testBit_two_pow_sub_one] using this
  -- the bit at the end of the run of zeros is one
  have htop : mask.testBit (l + k) = true := by
    have := lowestSetBit_testBit hrest
    rwa [Nat.testBit_shiftRight] at this
  have hlt : l + k < n := by
    have := hbit (l + k)
    rw [htop] at this
    simpa using this.symm
  refine ⟨n, ⟨by omega, fun i => ?_⟩, hlt⟩
  rcases lt_trichotomy i l with hi | rfl | hi
  · rw [testBit_of_lt_lowestSetBit_succ hi]
    simp [hi]
  · rw [testBit_lowestSetBit_succ]
    have hk0 : k ≠ 0 := fun h0 => by
      rw [h0, Nat.add_zero, testBit_lowestSetBit_succ] at htop
      exact absurd htop (by simp)
    simp; omega
  · by_cases hik : i < l + k
    · have := lowestSetBit_low hrest (show i - l < k by omega)
      rw [Nat.testBit_shiftRight, show l + (i - l) = i by omega] at this
      rw [this]; simp; omega
    · have := hbit i
      rw [show decide (i - l < k) = false by simp; omega, Bool.and_false, Bool.or_false] at this
      rw [this]
      simp [show ¬ i < l by omega, show l + k ≤ i by omega]

theorem geometryOfSets_some {sets : List AddressSet} {base : ℕ} {g : InterleaveGeometry}
    (h : geometryOfSets sets base = .ok (some g)) : g.base = base ∧ ∃ n, IsGeometry sets g n := by
  unfold geometryOfSets at h
  split at h
  · cases h
  split at h
  · cases h
  rename_i s₀ tl hcont
  dsimp only at h
  split at h
  · cases h
  rename_i hmask
  split at h
  · cases h
  rename_i hrest
  split at h
  · cases h
  rename_i hfilled
  split at h
  · cases h
  rename_i hlsb
  split at h
  · cases h
  rename_i hbase
  split at h
  · cases h
  rename_i hle
  split at h
  · rename_i index hidx
    simp only [Except.ok.injEq, Option.some.injEq] at h
    subst h
    simp only [Bool.not_eq_true', Bool.not_eq_false, List.all_eq_true, beq_iff_eq, decide_eq_true_eq, not_or,
      ne_eq, not_not] at hmask hrest hfilled hbase hle
    obtain ⟨n, hn, hlt⟩ := holeMask_of_filled hrest.1 hfilled
    refine ⟨rfl, n, by simp, fun s hs => by rw [hmask s hs]; exact hn, hlt, Nat.not_lt.mp hlsb, hbase, hle,
      fun s hs => ?_⟩
    have hmem := mem_distinct.mpr (List.mem_map_of_mem (f := channelIndexOf (lowestSetBit (s₀.mask + 1))
      (lowestSetBit (s₀.mask >>> lowestSetBit (s₀.mask + 1)))) hs)
    rw [hidx, List.mem_singleton] at hmem
    exact hmem
  · cases h

/-- **What an accepted channel looks like.** -/
theorem geometryOf_some {mAxi : AXI4BusInfo} {base : ℕ} {g : InterleaveGeometry}
    (h : geometryOf mAxi base = .ok (some g)) : g.base = base ∧ ∃ n, IsGeometry mAxi.sets g n := by
  unfold geometryOf at h
  unfold AXI4BusInfo.sets
  split at h
  · cases h
  · rename_i sets hax
    rw [hax]
    simpa using geometryOfSets_some h
  · cases h

/-- What the cross-channel check establishes for the geometries of `nMems` interleaved channels. -/
structure CrossChecked (nMems : ℕ) (geos : List InterleaveGeometry) : Prop where
  length_eq : geos.length = nMems
  agree : ∀ g ∈ geos, ∀ g' ∈ geos, g.dropLsb = g'.dropLsb ∧ g.dropBits = g'.dropBits
  nChannels_eq : ∀ g ∈ geos, g.nChannels = nMems
  index_nodup : (geos.map (·.channelIndex)).Nodup

theorem checkGeometries_ok {nMems : ℕ} {geos : List InterleaveGeometry} (hne : geos ≠ [])
    (h : checkGeometries nMems geos = .ok ()) : CrossChecked nMems geos := by
  unfold checkGeometries at h
  split at h
  · exact absurd rfl hne
  rename_i head tl
  split at h
  · cases h
  rename_i hlen
  split at h
  · cases h
  rename_i hagree
  split at h
  · cases h
  rename_i hidx
  simp only [not_or, ne_eq, not_not] at hlen hagree hidx
  have hag : ∀ g ∈ head :: tl, ∀ g' ∈ head :: tl, g.dropLsb = g'.dropLsb ∧ g.dropBits = g'.dropBits := by
    intro g hg g' hg'
    have := eq_of_distinct_length_one hagree (List.mem_map_of_mem hg) (List.mem_map_of_mem hg')
    simp only [Prod.mk.injEq] at this
    exact ⟨this.1, this.2.1⟩
  refine ⟨hlen, hag, fun g hg => ?_, nodup_of_distinct_length (by rw [hidx.2]; simpa using hlen.symm)⟩
  rw [← hidx.1, InterleaveGeometry.nChannels, InterleaveGeometry.nChannels, (hag g hg head (by simp)).2]

theorem memGeometries_ok {base : ℕ} {axiMems : List AXI4BusInfo} {geos : List InterleaveGeometry}
    (h : memGeometries base axiMems = .ok (geos.map some)) :
    List.Forall₂ (fun mAxi g => geometryOf mAxi base = .ok (some g)) axiMems geos ∧
      checkGeometries axiMems.length geos = .ok () := by
  unfold memGeometries at h
  cases hm : axiMems.mapM (geometryOf · base) with
  | error e => rw [hm] at h; cases h
  | ok deints =>
    rw [hm] at h
    cases hc : checkGeometries axiMems.length (deints.filterMap id) with
    | error e =>
      simp only [bind, Except.bind, hc] at h
      cases h
    | ok u =>
      simp only [bind, Except.bind, hc, pure, Except.pure, Except.ok.injEq] at h
      subst h
      have hid : (geos.map some).filterMap id = geos := by
        rw [List.filterMap_map]
        exact List.filterMap_some
      have hall := mapM_ok hm
      rw [List.forall₂_map_right_iff] at hall
      exact ⟨hall, by rw [← hid]; exact hc⟩

end Soceteer.Mem
