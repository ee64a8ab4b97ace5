import Mathlib.Data.Finset.Card
import Mathlib.Data.Finset.Range
import Mathlib.Order.Interval.Set.Basic
import Soceteer.Mem.Geometry

/-!
# Soceteer.Mem.Deinterleaver — the deinterleaver removes the channel-select bits

`axi_addr_deinterleaver.v` sits behind every interleaved memory channel and compacts its sparse addresses.

* `compact`: the fixed-width datapath; on addresses from the base up it removes the channel-select field
  (`compact_toNat`).
* `InterleavedSystem`: two or more channels accepted by `geometryOf` and by the cross-channel check.
* `mAxiAddr`: the address a channel drives towards its memory controller.
* `deinterleave_iff`: the channels and their compacted addresses name every address once, and a full interval
  splits into one dense range per channel, exactly when no channel holds two sets that agree above the
  channel-select field.  `separated_of_dropBits_le`: at most 32 channel-select bits ensure it; with more,
  `toInt` forgets the upper ones.
-/

namespace Soceteer.Mem

open Bits Jvm

/-! ## The Verilog module -/

/-- The signals of an AXI4 read or write address channel. -/
structure AxiAddrChannel (idWidth addrWidth : ℕ) where
  id : BitVec idWidth
  addr : BitVec addrWidth
  len : BitVec 8
  size : BitVec 3
  burst : BitVec 2
  lock : Bool
  cache : BitVec 4
  prot : BitVec 3
  qos : BitVec 4
  valid : Bool

/-- `aw_compact` and `ar_compact`: `BASE + { 0, rel[ADDR_WIDTH-1:CH_MSB], rel[DROP_LSB-1:0] }`. -/
def compact {addrWidth : ℕ} (dropLsb dropBits : ℕ) (base : BitVec 64) (addr : BitVec addrWidth) :
    BitVec addrWidth :=
  let chMsb := dropLsb + dropBits
  let rel := addr - base.setWidth addrWidth
  base.setWidth addrWidth +
    ((BitVec.ofNat dropBits 0 ++ rel.extractLsb' chMsb (addrWidth - chMsb)) ++ rel.extractLsb' 0 dropLsb).setWidth
      addrWidth

/-- An address channel through the module: the address rewritten, everything else passed on. -/
def axiAddrDeinterleaver {idWidth addrWidth : ℕ} (dropLsb dropBits : ℕ) (base : BitVec 64)
    (s : AxiAddrChannel idWidth addrWidth) : AxiAddrChannel idWidth addrWidth :=
  { s with addr := compact dropLsb dropBits base s.addr }

/-- **The datapath removes a field of bits** relative to the base, without wrap-around. -/
theorem compact_toNat {w l k base a : ℕ} (hw : w ≤ 64) (hlk : l + k ≤ w) (hb : base ≤ a) (ha : a < 2 ^ w) :
    (compact l k (BitVec.ofNat 64 base) (BitVec.ofNat w a)).toNat = base + dropField l k (a - base) := by
  have hpow : 2 ^ w ≤ 2 ^ 64 := Nat.pow_le_pow_right (by omega) hw
  have hbw : ((BitVec.ofNat 64 base).setWidth w).toNat = base := by
    rw [BitVec.toNat_setWidth, BitVec.toNat_ofNat, Nat.mod_eq_of_lt (by omega), Nat.mod_eq_of_lt (by omega)]
  have hrel : (BitVec.ofNat w a - (BitVec.ofNat 64 base).setWidth w).toNat = a - base := by
    rw [BitVec.toNat_sub, hbw, BitVec.toNat_ofNat, Nat.mod_eq_of_lt ha,
      show 2 ^ w - base + a = 2 ^ w + (a - base) by omega, Nat.add_mod_left, Nat.mod_eq_of_lt (by omega)]
  have hdrop := dropField_le l k (a - base)
  -- the upper part of the concatenation fits its slice
  have hdiv : (a - base) / 2 ^ (l + k) < 2 ^ (w - (l + k)) := by
    refine Nat.div_lt_of_lt_mul ?_
    rw [← pow_add, show l + k + (w - (l + k)) = w by omega]
    omega
  have hcat :
    (((0#k ++ (BitVec.ofNat w a - (BitVec.ofNat 64 base).setWidth w).extractLsb' (l + k) (w - (l + k))) ++
      (BitVec.ofNat w a - (BitVec.ofNat 64 base).setWidth w).extractLsb' 0 l).setWidth w).toNat =
        dropField l k (a - base) := by
    rw [BitVec.toNat_setWidth, BitVec.toNat_append, BitVec.toNat_append, BitVec.extractLsb'_toNat,
      BitVec.extractLsb'_toNat, hrel, Nat.shiftRight_zero, Nat.shiftRight_eq_div_pow, Nat.mod_eq_of_lt hdiv]
    rw [show (0#k).toNat = 0 by simp, Nat.zero_shiftLeft, Nat.zero_or, Nat.shiftLeft_eq,
      Nat.mul_comm _ (2 ^ l), ← Nat.two_pow_add_eq_or_of_lt (Nat.mod_lt _ (Nat.two_pow_pos l)), Nat.mul_comm,
      ← dropField, Nat.mod_eq_of_lt (by omega)]
  unfold compact
  rw [BitVec.toNat_add, hbw, hcat, Nat.mod_eq_of_lt (by omega)]

/-! ## Interleaved memory systems -/

/-- Two address sets share no address. -/
def DisjointSets (s t : AddressSet) : Prop := ∀ a, ¬ (s.contains a = true ∧ t.contains a = true)

/-- Memory channels as `SOCTVivadoSystem` accepts them: `2 ^ k` channels, all interleaved, their address sets
pairwise disjoint and their addresses within the bundle's width. -/
structure InterleavedSystem where
  base : ℕ
  addrWidth : ℕ
  axiMems : List AXI4BusInfo
  geos : List InterleaveGeometry
  accepted : memGeometries base axiMems = .ok (geos.map some)
  channels : ∃ k ≥ 1, axiMems.length = 2 ^ k
  disjoint : (axiMems.flatMap (·.sets)).Pairwise DisjointSets
  addr_lt : ∀ m ∈ axiMems, ∀ a, m.Sees a → a < 2 ^ addrWidth
  -- `BASE[ADDR_WIDTH-1:0]` reads that many bits of the 64-bit parameter
  width_le : addrWidth ≤ 64

/-- The address that the deinterleaver of a channel with geometry `g` drives for `a`. -/
def mAxiAddr (addrWidth : ℕ) (g : InterleaveGeometry) (a : ℕ) : ℕ :=
  (compact g.dropLsb g.dropBits (BitVec.ofNat 64 g.base) (BitVec.ofNat addrWidth a)).toNat

/-- The channel-select field of an address. -/
def selectBits (g : InterleaveGeometry) (a : ℕ) : ℕ := a / 2 ^ g.dropLsb % 2 ^ g.dropBits

theorem channelIndexOf_eq (g : InterleaveGeometry) (s : AddressSet) :
    channelIndexOf g.dropLsb g.dropBits s = toInt32 (selectBits g s.base) := by
  rw [channelIndexOf, selectBits, Nat.and_two_pow_sub_one_eq_mod, Nat.shiftRight_eq_div_pow]

namespace IsGeometry

variable {sets : List AddressSet} {g : InterleaveGeometry} {n : ℕ} (h : IsGeometry sets g n)
include h

theorem contains_iff {s : AddressSet} (hs : s ∈ sets) (a : ℕ) :
    s.contains a = true ↔ selectBits g a = selectBits g s.base ∧ a / 2 ^ n = s.base / 2 ^ n :=
  AddressSet.contains_iff.trans ((h.hole s hs).agree_iff a s.base)

/-- The channel index is the select field of every address of the channel, as far as an `Int` holds it. -/
theorem index_eq {s : AddressSet} (hs : s ∈ sets) {a : ℕ} (ha : s.contains a = true) :
    toInt32 (selectBits g a) = g.channelIndex := by
  rw [((h.contains_iff hs a).mp ha).1, ← channelIndexOf_eq, h.index s hs]

theorem base_le_of_contains {s : AddressSet} (hs : s ∈ sets) {a : ℕ} (ha : s.contains a = true) : g.base ≤ a :=
  (h.base_le s hs).trans (AddressSet.base_le ha)

/-- The bundle is wider than the channel-select field: the channel has an address with a bit above it. -/
theorem width_gt {w : ℕ} (haddr : ∀ s ∈ sets, ∀ a, s.contains a = true → a < 2 ^ w) :
    g.dropLsb + g.dropBits ≤ w := by
  obtain ⟨s, hs⟩ := List.exists_mem_of_ne_nil _ h.nonempty
  have hlt := haddr s hs _ s.contains_base_or_mask
  have hle : s.mask ≤ s.base ||| s.mask := Nat.right_le_or
  have hmask := (h.hole s hs).two_pow_le h.above
  exact (Nat.pow_lt_pow_iff_right (by omega)).mp (lt_of_le_of_lt (hmask.trans hle) hlt) |>.le

theorem mAxiAddr_eq {w : ℕ} (hw : w ≤ 64) (haddr : ∀ s ∈ sets, ∀ a, s.contains a = true → a < 2 ^ w)
    {s : AddressSet} (hs : s ∈ sets) {a : ℕ} (ha : s.contains a = true) :
    mAxiAddr w g a = g.base + dropField g.dropLsb g.dropBits (a - g.base) :=
  compact_toNat hw (h.width_gt haddr) (h.base_le_of_contains hs ha) (haddr s hs a ha)

/-- Two addresses from the base up are compacted alike iff they agree outside the channel-select field. -/
theorem dropField_sub_eq_iff {a b : ℕ} (ha : g.base ≤ a) (hb : g.base ≤ b) :
    dropField g.dropLsb g.dropBits (a - g.base) = dropField g.dropLsb g.dropBits (b - g.base) ↔
      a / 2 ^ (g.dropLsb + g.dropBits) = b / 2 ^ (g.dropLsb + g.dropBits) ∧
        a % 2 ^ g.dropLsb = b % 2 ^ g.dropLsb := by
  obtain ⟨ha1, -, ha2⟩ := sub_aligned h.base_aligned ha
  obtain ⟨hb1, -, hb2⟩ := sub_aligned h.base_aligned hb
  have hda := Nat.div_le_div_right (c := 2 ^ (g.dropLsb + g.dropBits)) ha
  have hdb := Nat.div_le_div_right (c := 2 ^ (g.dropLsb + g.dropBits)) hb
  rw [dropField_eq_iff, ha1, ha2, hb1, hb2]
  omega

end IsGeometry

namespace InterleavedSystem

variable (sys : InterleavedSystem)

/-- Some channel sees the address. -/
def Sees (a : ℕ) : Prop := ∃ m ∈ sys.axiMems, m.Sees a

/-- Channel `i` sees `a` and its deinterleaver turns it into `d`. -/
def Maps (i a d : ℕ) : Prop :=
  ∃ m g, sys.axiMems[i]? = some m ∧ sys.geos[i]? = some g ∧ m.Sees a ∧ mAxiAddr sys.addrWidth g a = d

/-- **Deinterleaving is a bijection**: no two addresses of a channel are compacted alike, and when the channels
together see exactly `[base, base + S)`, for `S` a multiple of the interleave granule, every channel's addresses
are compacted onto exactly `[base, base + S / N)`. -/
structure Deinterleaves : Prop where
  injective : ∀ i a b d, sys.Maps i a d → sys.Maps i b d → a = b
  dense : ∀ S, (∀ g ∈ sys.geos, 2 ^ (g.dropLsb + g.dropBits) ∣ S) →
    (∀ a, sys.Sees a ↔ a ∈ Set.Ico sys.base (sys.base + S)) →
      ∀ i < sys.axiMems.length, {d | ∃ a, sys.Maps i a d} = Set.Ico sys.base (sys.base + S / sys.axiMems.length)

/-- No channel has two address sets that agree in all bits above the channel-select field. -/
def Separated : Prop :=
  ∀ (i : ℕ) (m : AXI4BusInfo) (g : InterleaveGeometry), sys.axiMems[i]? = some m → sys.geos[i]? = some g →
    (m.sets.map fun s => s.base / 2 ^ (g.dropLsb + g.dropBits)).Nodup

variable {sys}

theorem geos_length : sys.geos.length = sys.axiMems.length :=
  (memGeometries_ok sys.accepted).1.length_eq.symm

theorem crossChecked : CrossChecked sys.axiMems.length sys.geos := by
  refine checkGeometries_ok (fun h => ?_) (memGeometries_ok sys.accepted).2
  obtain ⟨k, -, hk⟩ := sys.channels
  have hlen : sys.geos.length = sys.axiMems.length := geos_length
  rw [h, hk] at hlen
  exact absurd hlen (Nat.two_pow_pos k).ne

/-- The channel at a valid index, with its geometry. -/
theorem exists_channel {i : ℕ} (hi : i < sys.axiMems.length) :
    ∃ m g, sys.axiMems[i]? = some m ∧ sys.geos[i]? = some g :=
  ⟨_, _, List.getElem?_eq_getElem hi, List.getElem?_eq_getElem (by rw [geos_length]; exact hi)⟩

variable {i : ℕ} {m : AXI4BusInfo} {g : InterleaveGeometry}

theorem isGeometry (hm : sys.axiMems[i]? = some m) (hg : sys.geos[i]? = some g) :
    g.base = sys.base ∧ ∃ n, IsGeometry m.sets g n := by
  obtain ⟨hi, rfl⟩ := List.getElem?_eq_some_iff.mp hm
  obtain ⟨hi', rfl⟩ := List.getElem?_eq_some_iff.mp hg
  exact geometryOf_some ((memGeometries_ok sys.accepted).1.get hi hi')

theorem addr_lt_of_contains (hm : sys.axiMems[i]? = some m) :
    ∀ s ∈ m.sets, ∀ a, s.contains a = true → a < 2 ^ sys.addrWidth :=
  fun s hs a ha => sys.addr_lt m (List.mem_of_getElem? hm) a ⟨s, hs, ha⟩

theorem sets_disjoint (hm : sys.axiMems[i]? = some m) : m.sets.Pairwise DisjointSets :=
  (List.pairwise_flatMap.mp sys.disjoint).1 m (List.mem_of_getElem? hm)

/-! ### One address per channel and compacted address -/

theorem separated_of_injective (h : ∀ i a b d, sys.Maps i a d → sys.Maps i b d → a = b) : sys.Separated := by
  intro i m g hm hg
  obtain ⟨-, n, hgeo⟩ := isGeometry hm hg
  have haddr := addr_lt_of_contains hm
  rw [List.Nodup, List.pairwise_map]
  refine (sets_disjoint hm).imp_of_mem fun {s t} hs ht hdisj htop => ?_
  -- the bases of two sets that agree above the field are compacted alike
  have hdrop := (hgeo.dropField_sub_eq_iff (hgeo.base_le s hs) (hgeo.base_le t ht)).mpr
    ⟨htop, by rw [(hgeo.hole s hs).mod_eq_zero s.aligned, (hgeo.hole t ht).mod_eq_zero t.aligned]⟩
  have hmap : ∀ u ∈ m.sets, sys.Maps i u.base (mAxiAddr sys.addrWidth g u.base) := fun u hu =>
    ⟨m, g, hm, hg, ⟨u, hu, u.contains_base⟩, rfl⟩
  have heq : mAxiAddr sys.addrWidth g s.base = mAxiAddr sys.addrWidth g t.base := by
    rw [hgeo.mAxiAddr_eq sys.width_le haddr hs s.contains_base,
      hgeo.mAxiAddr_eq sys.width_le haddr ht t.contains_base, hdrop]
  have hbase := h i s.base t.base _ (heq ▸ hmap s hs) (hmap t ht)
  exact hdisj s.base ⟨s.contains_base, by rw [hbase]; exact t.contains_base⟩

theorem injective_of_separated (h : sys.Separated) {a b d : ℕ} (ha : sys.Maps i a d) (hb : sys.Maps i b d) :
    a = b := by
  obtain ⟨m, g, hm, hg, ⟨s, hs, hsa⟩, hda⟩ := ha
  obtain ⟨m', g', hm', hg', ⟨t, ht, htb⟩, hdb⟩ := hb
  obtain rfl : m = m' := Option.some.inj (hm.symm.trans hm')
  obtain rfl : g = g' := Option.some.inj (hg.symm.trans hg')
  obtain ⟨-, n, hgeo⟩ := isGeometry hm hg
  have haddr := addr_lt_of_contains hm
  rw [hgeo.mAxiAddr_eq sys.width_le haddr hs hsa] at hda
  rw [hgeo.mAxiAddr_eq sys.width_le haddr ht htb] at hdb
  have hdrop : dropField g.dropLsb g.dropBits (a - g.base) = dropField g.dropLsb g.dropBits (b - g.base) := by
    omega
  have hparts := (hgeo.dropField_sub_eq_iff (hgeo.base_le_of_contains hs hsa)
    (hgeo.base_le_of_contains ht htb)).mp hdrop
  obtain ⟨hsel, htop⟩ := (hgeo.contains_iff hs a).mp hsa
  obtain ⟨hsel', htop'⟩ := (hgeo.contains_iff ht b).mp htb
  -- `a` and `b` agree above the field, so their sets do, so the sets are the same
  have hn : ∀ x : ℕ, x / 2 ^ n = x / 2 ^ (g.dropLsb + g.dropBits) / 2 ^ (n - (g.dropLsb + g.dropBits)) :=
      fun x => by
    rw [Nat.div_div_eq_div_mul, ← pow_add, Nat.add_sub_cancel' hgeo.above.le]
  have hst : s = t := List.inj_on_of_nodup_map (h i m g hm hg) hs ht (by
    rw [(hgeo.hole s hs).div_eq s.aligned, (hgeo.hole t ht).div_eq t.aligned, ← htop, ← htop',
      hn a, hn b, hparts.1])
  subst hst
  have hfield : a / 2 ^ g.dropLsb % 2 ^ g.dropBits = b / 2 ^ g.dropLsb % 2 ^ g.dropBits := hsel.trans hsel'.symm
  exact dropField_inj hfield (dropField_eq_iff.mpr hparts)

/-- With at most 32 channel-select bits the `Int` channel index is the whole field, so the sets of a channel
are told apart above it. -/
theorem separated_of_dropBits_le (h : ∀ g ∈ sys.geos, g.dropBits ≤ 32) : sys.Separated := by
  intro i m g hm hg
  obtain ⟨-, n, hgeo⟩ := isGeometry hm hg
  rw [List.Nodup, List.pairwise_map]
  refine (sets_disjoint hm).imp_of_mem fun {s t} hs ht hdisj htop => ?_
  have hlt : ∀ u : AddressSet, selectBits g u.base < 2 ^ 32 := fun u =>
    lt_of_lt_of_le (Nat.mod_lt _ (Nat.two_pow_pos _))
      (Nat.pow_le_pow_right (by omega) (h g (List.mem_of_getElem? hg)))
  have hsel : selectBits g s.base = selectBits g t.base := by
    have := hlt s
    have := hlt t
    have := toInt32_inj (by omega) (by omega) (by omega) (by omega)
      ((hgeo.index_eq hs s.contains_base).trans (hgeo.index_eq ht t.contains_base).symm)
    omega
  refine hdisj s.base ⟨s.contains_base, (hgeo.contains_iff ht _).mpr ⟨hsel, ?_⟩⟩
  rw [show 2 ^ n = 2 ^ (g.dropLsb + g.dropBits) * 2 ^ (n - (g.dropLsb + g.dropBits)) by
    rw [← pow_add, Nat.add_sub_cancel' hgeo.above.le], ← Nat.div_div_eq_div_mul, ← Nat.div_div_eq_div_mul, htop]

/-! ### The dense ranges -/

/-- Channels with the same index are the same channel. -/
theorem channel_unique {j : ℕ} {m' : AXI4BusInfo} {g' : InterleaveGeometry} (hm : sys.axiMems[i]? = some m)
    (hg : sys.geos[i]? = some g) (hm' : sys.axiMems[j]? = some m') (hg' : sys.geos[j]? = some g')
    (hidx : g.channelIndex = g'.channelIndex) : m = m' := by
  have hi := List.getElem?_map (f := (·.channelIndex)) (l := sys.geos) (i := i)
  have hj := List.getElem?_map (f := (·.channelIndex)) (l := sys.geos) (i := j)
  rw [hg, Option.map_some] at hi
  rw [hg', Option.map_some, ← hidx] at hj
  have hij := (List.getElem?_inj (List.getElem?_eq_some_iff.mp hi).1 sys.crossChecked.index_nodup).mp
    (hi.trans hj.symm)
  subst hij
  exact Option.some.inj (hm.symm.trans hm')

theorem agree {j : ℕ} {g' : InterleaveGeometry} (hg : sys.geos[i]? = some g) (hg' : sys.geos[j]? = some g') :
    g.dropLsb = g'.dropLsb ∧ g.dropBits = g'.dropBits :=
  sys.crossChecked.agree g (List.mem_of_getElem? hg) g' (List.mem_of_getElem? hg')

/-- A seen address belongs to the channel whose index its select field is, as far as an `Int` holds it. -/
theorem sees_iff (hm : sys.axiMems[i]? = some m) (hg : sys.geos[i]? = some g) {a : ℕ} (ha : sys.Sees a) :
    m.Sees a ↔ toInt32 (selectBits g a) = g.channelIndex := by
  obtain ⟨-, n, hgeo⟩ := isGeometry hm hg
  constructor
  · rintro ⟨s, hs, hsa⟩
    exact hgeo.index_eq hs hsa
  · intro hidx
    obtain ⟨m', hm', hs'⟩ := ha
    obtain ⟨j, hj⟩ := List.getElem?_of_mem hm'
    obtain ⟨_, g', hj', hg'⟩ := exists_channel (List.getElem?_eq_some_iff.mp hj).1
    obtain ⟨-, n', hgeo'⟩ := isGeometry hj hg'
    obtain ⟨t, ht, hta⟩ := id hs'
    have hidx' := hgeo'.index_eq ht hta
    rw [selectBits, ← (agree hg hg').1, ← (agree hg hg').2, ← selectBits] at hidx'
    rwa [channel_unique hm hg hj hg' (hidx.symm.trans hidx')]

section Interval

variable {S : ℕ} (hS : ∀ g ∈ sys.geos, 2 ^ (g.dropLsb + g.dropBits) ∣ S)
  (hcover : ∀ a, sys.Sees a ↔ a ∈ Set.Ico sys.base (sys.base + S))
include hS hcover

/-- A covered interval has at most 31 channel-select bits: every one of the `2 ^ 32` values of a wider field's
low word would be the index of a channel, and there are at most `2 ^ 30` channels. -/
theorem dropBits_lt (hm : sys.axiMems[i]? = some m) (hg : sys.geos[i]? = some g) : g.dropBits < 32 := by
  by_contra hge
  obtain ⟨hbase, n, hgeo⟩ := isGeometry hm hg
  obtain ⟨s, hs⟩ := List.exists_mem_of_ne_nil _ hgeo.nonempty
  have hsees : sys.Sees s.base := ⟨m, List.mem_of_getElem? hm, s, hs, s.contains_base⟩
  have hmem := (hcover s.base).mp hsees
  obtain ⟨c, hc⟩ := hS g (List.mem_of_getElem? hg)
  have hc0 : 0 < c := by
    rcases Nat.eq_zero_or_pos c with rfl | h
    · rw [Set.mem_Ico, hc] at hmem; omega
    · exact h
  have hpow : 2 ^ 32 ≤ 2 ^ g.dropBits := Nat.pow_le_pow_right (by omega) (by omega)
  -- the block number `v` of the first granule reaches the channel with index `v.toInt`
  have hidx : ∀ v < 2 ^ 32, toInt32 (v : ℕ) ∈ sys.geos.map (·.channelIndex) := by
    intro v hv
    have hvS : v * 2 ^ g.dropLsb < S := by
      calc v * 2 ^ g.dropLsb < 2 ^ g.dropBits * 2 ^ g.dropLsb :=
            Nat.mul_lt_mul_of_pos_right (by omega) (Nat.two_pow_pos _)
        _ = 2 ^ (g.dropLsb + g.dropBits) * 1 := by rw [pow_add]; ring
        _ ≤ S := by rw [hc]; exact Nat.mul_le_mul_left _ hc0
    obtain ⟨m', hm', t, ht, hta⟩ := (hcover (sys.base + v * 2 ^ g.dropLsb)).mpr ⟨by omega, by omega⟩
    obtain ⟨j, hj⟩ := List.getElem?_of_mem hm'
    obtain ⟨_, g', hj', hg'⟩ := exists_channel (List.getElem?_eq_some_iff.mp hj).1
    obtain ⟨-, n', hgeo'⟩ := isGeometry hj hg'
    have hsel : selectBits g' (sys.base + v * 2 ^ g.dropLsb) = v := by
      rw [selectBits, ← (agree hg hg').1, ← (agree hg hg').2,
        ← (sub_aligned (hbase ▸ hgeo.base_aligned) (by omega)).2.1,
        Nat.add_sub_cancel_left, Nat.mul_div_cancel _ (Nat.two_pow_pos _), Nat.mod_eq_of_lt (by omega)]
    have := hgeo'.index_eq ht hta
    rw [hsel] at this
    rw [this]
    exact List.mem_map_of_mem (List.mem_of_getElem? hg')
  have hcard : (Finset.range (2 ^ 32)).card ≤ (sys.geos.map (·.channelIndex)).toFinset.card := by
    refine Finset.card_le_card_of_injOn (fun v => toInt32 (v : ℕ)) (fun v hv => ?_) (fun v hv w hw hvw => ?_)
    · simpa using hidx v (by simpa using hv)
    · simp only [Finset.coe_range, Set.mem_Iio] at hv hw
      have := toInt32_inj (by omega) (by omega) (by omega) (by omega) hvw
      omega
  have hlen := List.toFinset_card_le (sys.geos.map (·.channelIndex))
  have hN := sys.crossChecked.nChannels_eq g (List.mem_of_getElem? hg)
  have hle := shl32_le g.dropBits
  rw [InterleaveGeometry.nChannels] at hN
  rw [Finset.card_range] at hcard
  rw [List.length_map, geos_length] at hlen
  omega

/-- The number of channels is `2 ^ dropBits`, without wrap-around. -/
theorem length_eq_two_pow (hm : sys.axiMems[i]? = some m) (hg : sys.geos[i]? = some g) :
    sys.axiMems.length = 2 ^ g.dropBits := by
  have hlt := dropBits_lt hS hcover hm hg
  have hN := sys.crossChecked.nChannels_eq g (List.mem_of_getElem? hg)
  rw [InterleaveGeometry.nChannels, shl32, Nat.mod_eq_of_lt hlt] at hN
  generalize g.dropBits = k at hlt hN
  rcases Nat.lt_or_ge k 31 with h31 | h31
  · rw [toInt32_eq_self (by positivity) (by gcongr; omega)] at hN
    exact_mod_cast hN.symm
  · have hneg : toInt32 (2 ^ 31) < 0 := by decide
    rw [show k = 31 by omega] at hN
    omega

theorem image_eq (hm : sys.axiMems[i]? = some m) (hg : sys.geos[i]? = some g) :
    {d | ∃ a, sys.Maps i a d} = Set.Ico sys.base (sys.base + S / sys.axiMems.length) := by
  obtain ⟨hbase, n, hgeo⟩ := isGeometry hm hg
  have haddr := addr_lt_of_contains hm
  have hlt := dropBits_lt hS hcover hm hg
  obtain ⟨c, rfl⟩ := hS g (List.mem_of_getElem? hg)
  have hdiv : 2 ^ (g.dropLsb + g.dropBits) * c / 2 ^ g.dropBits = c * 2 ^ g.dropLsb := by
    rw [pow_add, show 2 ^ g.dropLsb * 2 ^ g.dropBits * c = 2 ^ g.dropBits * (c * 2 ^ g.dropLsb) by ring,
      Nat.mul_div_cancel_left _ (Nat.two_pow_pos _)]
  rw [length_eq_two_pow hS hcover hm hg, hdiv]
  have hmul : 2 ^ (g.dropLsb + g.dropBits) * c = c * 2 ^ (g.dropLsb + g.dropBits) := Nat.mul_comm _ _
  ext d
  constructor
  · rintro ⟨a, m', g', hm', hg', hsees, rfl⟩
    obtain rfl : m = m' := Option.some.inj (hm.symm.trans hm')
    obtain rfl : g = g' := Option.some.inj (hg.symm.trans hg')
    have hmem := (hcover a).mp ⟨m, List.mem_of_getElem? hm, hsees⟩
    rw [Set.mem_Ico] at hmem
    obtain ⟨s, hs, hsa⟩ := hsees
    have hdrop : dropField g.dropLsb g.dropBits (a - sys.base) < c * 2 ^ g.dropLsb :=
      dropField_lt (by omega)
    rw [Set.mem_Ico, hgeo.mAxiAddr_eq sys.width_le haddr hs hsa, hbase]
    omega
  · intro hd
    rw [Set.mem_Ico] at hd
    -- a channel's select field, read off one of its sets
    obtain ⟨s, hs⟩ := List.exists_mem_of_ne_nil _ hgeo.nonempty
    obtain ⟨r, hr, hfield, hdrop⟩ := dropField_surj (l := g.dropLsb) (k := g.dropBits) (d := d - sys.base) (m := c)
      (show selectBits g s.base < 2 ^ g.dropBits from Nat.mod_lt _ (Nat.two_pow_pos _)) (by omega)
    have hsees : sys.Sees (sys.base + r) := (hcover _).mpr ⟨by omega, by omega⟩
    have hsel : selectBits g (sys.base + r) = selectBits g s.base := by
      rw [← hfield, selectBits, ← (sub_aligned (hbase ▸ hgeo.base_aligned) (by omega)).2.1,
        Nat.add_sub_cancel_left]
    obtain ⟨t, ht, hta⟩ := (sees_iff hm hg hsees).mpr (by rw [hsel]; exact hgeo.index_eq hs s.contains_base)
    refine ⟨sys.base + r, m, g, hm, hg, ⟨t, ht, hta⟩, ?_⟩
    rw [hgeo.mAxiAddr_eq sys.width_le haddr ht hta, hbase, Nat.add_sub_cancel_left, hdrop]
    omega

end Interval

/-- **Deinterleaving is a bijection exactly on separated systems.** -/
theorem deinterleave_iff (sys : InterleavedSystem) : sys.Deinterleaves ↔ sys.Separated := by
  constructor
  · exact fun h => separated_of_injective h.injective
  · refine fun h => ⟨fun i a b d => injective_of_separated h, fun S hS hcover i hi => ?_⟩
    obtain ⟨m, g, hm, hg⟩ := exists_channel hi
    exact image_eq hS hcover hm hg

/-- Two channels behind 33 channel-select bits: `1 << 33` is `2`, and channel 0 holds the select values `0` and
`2 ^ 32`, which `toInt` maps to the same index. -/
def wideSelect : InterleavedSystem where
  base := 0
  addrWidth := 40
  axiMems := [⟨.slavePort [[⟨0, 2 ^ 39 + 0x3f, by decide⟩, ⟨2 ^ 38, 2 ^ 39 + 0x3f, by decide⟩]], 40, 64, 4⟩,
    ⟨.slavePort [[⟨0x40, 2 ^ 39 + 0x3f, by decide⟩]], 40, 64, 4⟩]
  geos := [⟨6, 33, 0, 0⟩, ⟨6, 33, 1, 0⟩]
  accepted := by decide
  channels := ⟨1, le_rfl, rfl⟩
  disjoint := by
    have hbit : ∀ (s t : AddressSet) (i : ℕ), s.mask.testBit i = false → t.mask.testBit i = false →
        s.base.testBit i ≠ t.base.testBit i → DisjointSets s t := fun s t i hs ht hne a h =>
      hne ((AddressSet.contains_iff.mp h.1 i hs).symm.trans (AddressSet.contains_iff.mp h.2 i ht))
    simp only [AXI4BusInfo.sets, List.flatMap_cons, List.flatMap_nil, List.flatten_cons, List.flatten_nil,
      List.append_nil, List.cons_append, List.nil_append, List.pairwise_cons, List.mem_cons, List.not_mem_nil]
    refine ⟨?_, ?_, ?_, .nil⟩
    · rintro t (rfl | rfl | h)
      · exact hbit _ _ 38 (by decide) (by decide) (by decide)
      · exact hbit _ _ 6 (by decide) (by decide) (by decide)
      · exact h.elim
    · rintro t (rfl | h)
      · exact hbit _ _ 6 (by decide) (by decide) (by decide)
      · exact h.elim
    · simp
  addr_lt := by
    rintro m hm a ⟨s, hs, ha⟩
    refine lt_of_le_of_lt (AddressSet.le_base_or_mask ha) ?_
    simp only [List.mem_cons, List.not_mem_nil, or_false] at hm
    rcases hm with rfl | rfl
    · simp only [AXI4BusInfo.sets, List.flatten_cons, List.flatten_nil, List.append_nil, List.mem_cons,
        List.not_mem_nil, or_false] at hs
      rcases hs with rfl | rfl <;> decide
    · simp only [AXI4BusInfo.sets, List.flatten_cons, List.flatten_nil, List.append_nil, List.mem_singleton] at hs
      subst hs
      decide
  width_le := by decide

/-- The addresses `0` and `2 ^ 38` of channel 0 are both driven as `0`. -/
theorem wideSelect_not_deinterleaves : ¬ wideSelect.Deinterleaves := by
  intro h
  have h0 : wideSelect.Maps 0 0 0 :=
    ⟨_, _, rfl, rfl, ⟨_, List.mem_cons_self, by decide⟩, by decide⟩
  have h1 : wideSelect.Maps 0 (2 ^ 38) 0 :=
    ⟨_, _, rfl, rfl, ⟨_, List.mem_cons_of_mem _ List.mem_cons_self, by decide⟩, by decide⟩
  exact absurd (h.injective 0 0 (2 ^ 38) 0 h0 h1) (by decide)

end InterleavedSystem

end Soceteer.Mem
