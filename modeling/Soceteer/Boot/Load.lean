import Soceteer.Boot.Piece

/-!
# Soceteer.Boot.Load — the memory at the jump

* `loadable`: the `PT_LOAD` segments a file has; `applySegs`: the memory they describe.
* `AtJump`: the segments are in memory, the device tree is where `a1` says and apart from them, and nothing below
  `memEnd` was written before the last copy.
* `Compatible`: no segment is where the device tree goes, and no byte of the staging area is wanted for two things.
* `at_jump_iff`: a download that comes to its jump leaves memory so exactly when the file is compatible.
-/

namespace Soceteer.Boot

open Soceteer.Lib

variable {L : Layout} {fs : Fs}

/-! ## The file -/

/-- The number of `size` bytes at an offset. -/
def numAt (file : List UInt8) (ofs size : ℕ) : ℕ := leNat ((file.drop ofs).take size)

/-- Where the `i`-th program header is. -/
def phOfs (phoff phentsize i : ℕ) : ℕ := (phoff + i * phentsize) % 2 ^ 64

/-- Where the first address of a program header is. -/
def addrOfs (L : Layout) (ofs : ℕ) : ℕ := ofs + 4 + if L.xlen = 32 then 0 else 4

/-- The program header at an offset, if it is of type `PT_LOAD`. -/
def segAt (L : Layout) (file : List UInt8) (ofs : ℕ) : Option Seg :=
  if numAt file ofs 4 = 1 then
    some
      { offset := numAt file (addrOfs L ofs) (L.xlen / 8)
        vaddr := numAt file (addrOfs L ofs + L.xlen / 8) (L.xlen / 8)
        filesz := numAt file (addrOfs L ofs + 3 * (L.xlen / 8)) (L.xlen / 8)
        memsz := numAt file (addrOfs L ofs + 4 * (L.xlen / 8)) (L.xlen / 8) }
  else none

/-- The file reaches as far as the program header is read. -/
def Readable (L : Layout) (file : List UInt8) (ofs : ℕ) : Prop :=
  ofs + 4 ≤ file.length ∧ (numAt file ofs 4 = 1 → addrOfs L ofs + 5 * (L.xlen / 8) ≤ file.length)

theorem bytes_xlen (L : Layout) : L.xlen / 8 = 4 ∧ L.xlen = 32 ∨ L.xlen / 8 = 8 ∧ L.xlen = 64 := by
  rcases L.xlen_eq with h | h
  · exact Or.inl ⟨by rw [h], h⟩
  · exact Or.inr ⟨by rw [h], h⟩

theorem numAt_lt (L : Layout) (file : List UInt8) (ofs : ℕ) : numAt file ofs (L.xlen / 8) < 2 ^ L.xlen := by
  have hlt := leNat_lt ((file.drop ofs).take (L.xlen / 8))
  have hlen : ((file.drop ofs).take (L.xlen / 8)).length ≤ L.xlen / 8 := List.length_take_le _ _
  refine hlt.trans_le ((Nat.pow_le_pow_right (by omega) hlen).trans ?_)
  rcases bytes_xlen L with ⟨h, h'⟩ | ⟨h, h'⟩ <;> rw [h, h'] <;> decide

/-- The fields of a segment are addresses. -/
theorem segAt_lt {file : List UInt8} {ofs : ℕ} {seg : Seg} (h : segAt L file ofs = some seg) :
    seg.vaddr < 2 ^ L.xlen ∧ seg.memsz < 2 ^ L.xlen := by
  unfold segAt at h
  split_ifs at h
  cases h
  exact ⟨numAt_lt L file _, numAt_lt L file _⟩

/-! ## Reading headers -/

/-- Only the place in the file changes. -/
structure Quiet {w : ℕ} (s s' : St w) : Prop where
  mem : s'.mem = s.mem
  alt : s'.altMem = s.altMem
  log : s'.log = s.log

theorem Quiet.refl {w : ℕ} (s : St w) : Quiet s s := ⟨rfl, rfl, rfl⟩

theorem Quiet.trans {w : ℕ} {s s' s'' : St w} (h : Quiet s s') (h' : Quiet s' s'') : Quiet s s'' :=
  ⟨h'.mem.trans h.mem, h'.alt.trans h.alt, h'.log.trans h.log⟩

section Headers

variable {α : Type} {w : ℕ} {s s' : St w}

/-- An error of FatFs, or the end of the file. -/
def ReadError (s : St w) (e : Err) (s' : St w) : Prop := e ≠ .segmentAddr ∧ Quiet s s'

theorem ReadError.of_quiet {s₀ : St w} {e : Err} (h : Quiet s₀ s) (he : ReadError s e s') : ReadError s₀ e s' :=
  ⟨he.1, h.trans he.2⟩

theorem wp_readNum {size : ℕ} (hsize : 0 < size) :
    Wp (readNum fs size) s
      (fun v s' => s.pos + size ≤ fs.file.length ∧ v = numAt fs.file s.pos size ∧
        s'.pos = s.pos + size ∧ Quiet s s')
      (ReadError s) := by
  simp only [readNum, wp_bind, wp_ite, wp_throw, wp_pure]
  refine wp_fRead (fun d hd => ?_) fun c => ⟨by simp, rfl, rfl, rfl⟩
  generalize hdata : (fs.file.drop s.pos).take d = data
  have hlen : data.length = min d (fs.file.length - s.pos) := by rw [← hdata, List.length_take, List.length_drop]
  refine ⟨fun _ => ⟨by simp, rfl, rfl, rfl⟩, fun hfull => ?_⟩
  obtain rfl : d = size := by omega
  refine ⟨by omega, by rw [numAt, hdata], by dsimp only; omega, rfl, rfl, rfl⟩

theorem wp_seek_at {s₀ : St w} {ofs : ℕ} {Q : Unit → St w → Prop} (hq : Quiet s₀ s)
    (h : ∀ s', s'.pos = min ofs fs.file.length → Quiet s₀ s' → Q () s') :
    Wp (fLseek fs ofs) s Q (ReadError s₀) :=
  wp_fLseek (h _ rfl ⟨hq.mem, hq.alt, hq.log⟩) fun _ => ⟨nofun, hq.mem, hq.alt, hq.log⟩

/-- A number at a place that is known. -/
theorem wp_readNum_at {s₀ : St w} {size ofs : ℕ} {Q : ℕ → St w → Prop} (hsize : 0 < size) (hpos : s.pos = ofs)
    (hq : Quiet s₀ s)
    (h : ∀ s', ofs + size ≤ fs.file.length → s'.pos = ofs + size → Quiet s₀ s' → Q (numAt fs.file ofs size) s') :
    Wp (readNum fs size) s Q (ReadError s₀) := by
  refine (wp_readNum hsize).mono ?_ fun e s' he => he.of_quiet hq
  rintro v s' ⟨hlen, rfl, hpos', hq'⟩
  rw [hpos] at hlen hpos' ⊢
  exact h s' hlen hpos' (hq.trans hq')

/-- A place past the end of the file is taken for its end, where there is nothing to read. -/
theorem wp_seek_read {s₀ : St w} {size ofs : ℕ} {k : ℕ → Rom w α} {Q : α → St w → Prop} (hsize : 0 < size)
    (hq : Quiet s₀ s)
    (h : ∀ s', ofs + size ≤ fs.file.length → s'.pos = ofs + size → Quiet s₀ s' →
      Wp (k (numAt fs.file ofs size)) s' Q (ReadError s₀)) :
    Wp (do fLseek fs ofs; k (← readNum fs size)) s Q (ReadError s₀) := by
  simp only [wp_bind]
  refine wp_seek_at hq fun s₁ hpos₁ hq₁ => ?_
  refine wp_readNum_at hsize hpos₁ hq₁ fun s' hlen hpos' hq' => ?_
  rw [Nat.min_eq_left (by omega)] at hlen hpos' ⊢
  exact h s' hlen hpos' hq'

/-- The program header is the one that the file has. -/
theorem wp_programHeader {phoff phentsize i : ℕ} :
    Wp (programHeader fs L phoff phentsize i) s
      (fun res s' => Readable L fs.file (phOfs phoff phentsize i) ∧
        res = segAt L fs.file (phOfs phoff phentsize i) ∧
        Quiet s s') (ReadError s) := by
  have hb : 0 < L.xlen / 8 := by rcases bytes_xlen L with ⟨h, -⟩ | ⟨h, -⟩ <;> omega
  refine wp_seek_read (by omega) (.refl s) fun s₁ hlen₁ hpos₁ hq₁ => ?_
  change phOfs phoff phentsize i + 4 ≤ _ at hlen₁
  change s₁.pos = phOfs phoff phentsize i + 4 at hpos₁
  simp only [wp_ite, wp_bind, wp_pure]
  refine ⟨fun hne => ⟨⟨hlen₁, fun hc => absurd hc hne⟩, (if_neg hne).symm, hq₁⟩, fun heq => ?_⟩
  rw [wp_fTell, hpos₁]
  refine wp_seek_at hq₁ fun s₂ hpos₂ hq₂ => ?_
  refine wp_readNum_at hb hpos₂ hq₂ fun s₃ hlen₃ hpos₃ hq₃ => ?_
  have hofs : min (phOfs phoff phentsize i + 4 + if L.xlen = 32 then 0 else 4) fs.file.length =
      addrOfs L (phOfs phoff phentsize i) := Nat.min_eq_left (by omega)
  rw [hofs] at hpos₃ hlen₃ ⊢
  refine wp_readNum_at hb hpos₃ hq₃ fun s₄ hlen₄ hpos₄ hq₄ => ?_
  refine wp_readNum_at hb hpos₄ hq₄ fun s₅ hlen₅ hpos₅ hq₅ => ?_
  refine wp_readNum_at hb hpos₅ hq₅ fun s₆ hlen₆ hpos₆ hq₆ => ?_
  refine wp_readNum_at hb hpos₆ hq₆ fun s₇ hlen₇ hpos₇ hq₇ => ?_
  refine ⟨⟨hlen₁, fun _ => by omega⟩, ?_, hq₇⟩
  rw [segAt, if_pos (show numAt fs.file (phOfs phoff phentsize i) 4 = 1 from not_not.mp heq)]
  generalize addrOfs L (phOfs phoff phentsize i) = ofs
  generalize L.xlen / 8 = b
  rw [show ofs + b + b + b = ofs + 3 * b by omega, show ofs + 3 * b + b = ofs + 4 * b by omega]

/-- What the first bytes have to be. -/
structure HeaderOk (L : Layout) (file : List UInt8) : Prop where
  long : 24 + 3 * (L.xlen / 8) + 10 ≤ file.length
  magic : file.take 4 = [0x7f, 0x45, 0x4c, 0x46]
  bits : file.getD 4 0 = if L.xlen = 32 then 1 else 2
  endianness : file.getD 5 0 = 1

/-- The entry point, and the place, size and number of the program headers. -/
def headerOf (L : Layout) (file : List UInt8) : ℕ × ℕ × ℕ × ℕ :=
  (numAt file 24 (L.xlen / 8), numAt file (24 + L.xlen / 8) (L.xlen / 8), numAt file (24 + 3 * (L.xlen / 8) + 6) 2,
    numAt file (24 + 3 * (L.xlen / 8) + 8) 2)

theorem wp_elfHeader :
    Wp (elfHeader fs L) s (fun res s' => HeaderOk L fs.file ∧ res = headerOf L fs.file ∧ Quiet s s')
      (ReadError s) := by
  have hb : 0 < L.xlen / 8 := by rcases bytes_xlen L with ⟨h, -⟩ | ⟨h, -⟩ <;> omega
  simp only [elfHeader, fOpen, wp_bind, wp_modify, wp_ite, wp_throw, wp_pure]
  refine wp_call ?_ fun c => ⟨by simp, rfl, rfl, rfl⟩
  refine wp_fRead (fun d hd => ?_) fun c => ⟨by simp, rfl, rfl, rfl⟩
  dsimp only
  rw [List.drop_zero]
  refine ⟨fun _ => ⟨by simp, rfl, rfl, rfl⟩, fun hlen => ?_⟩
  rw [List.length_take] at hlen
  obtain rfl : d = 6 := by omega
  have htake : (fs.file.take 6).take 4 = fs.file.take 4 := by rw [List.take_take, Nat.min_eq_left (by omega)]
  have hget : ∀ i < 6, (fs.file.take 6).getD i 0 = fs.file.getD i 0 := by
    intro i hi
    rw [List.getD_eq_getElem?_getD, List.getElem?_take_of_lt hi, List.getD_eq_getElem?_getD]
  rw [htake, hget 4 (by omega), hget 5 (by omega)]
  refine ⟨fun _ => ⟨by simp, rfl, rfl, rfl⟩, fun hmagic => ⟨fun _ => ⟨by simp, rfl, rfl, rfl⟩, fun hbits =>
    ⟨fun _ => ⟨by simp, rfl, rfl, rfl⟩, fun hendian => ?_⟩⟩⟩
  refine wp_seek_at ⟨rfl, rfl, rfl⟩ fun s₁ hpos₁ hq₁ => ?_
  refine wp_readNum_at hb hpos₁ hq₁ fun s₂ hlen₂ hpos₂ hq₂ => ?_
  rw [Nat.min_eq_left (by omega)] at hlen₂ hpos₂ ⊢
  refine wp_readNum_at hb hpos₂ hq₂ fun s₃ hlen₃ hpos₃ hq₃ => ?_
  rw [wp_fTell, hpos₃, show 24 + L.xlen / 8 + L.xlen / 8 + L.xlen / 8 + 6 = 24 + 3 * (L.xlen / 8) + 6 by omega]
  refine wp_seek_at hq₃ fun s₄ hpos₄ hq₄ => ?_
  refine wp_readNum_at (by omega) hpos₄ hq₄ fun s₅ hlen₅ hpos₅ hq₅ => ?_
  rw [Nat.min_eq_left (by omega)] at hlen₅ hpos₅ ⊢
  refine wp_readNum_at (by omega) hpos₅ hq₅ fun s₆ hlen₆ hpos₆ hq₆ => ?_
  exact ⟨⟨by omega, not_not.mp hmagic, not_not.mp hbits, not_not.mp hendian⟩, rfl, hq₆⟩

end Headers

/-! ## Segments -/

/-- The memory that segments describe, one after the other. -/
def applySegs (file : List UInt8) (m : Mem L.xlen) (segs : List Seg) : Mem L.xlen :=
  segs.foldl (fun m seg => splice m (BitVec.ofNat L.xlen seg.vaddr) (seg.bytes file)) m

/-- The addresses of segments. -/
def covered (L : Layout) (segs : List Seg) : Set (BitVec L.xlen) :=
  {a | ∃ seg ∈ segs, a ∈ range (BitVec.ofNat L.xlen seg.vaddr) seg.memsz}

/-- The segments of `k` program headers, from the `i`-th on. -/
def segsFrom (L : Layout) (file : List UInt8) (phoff phentsize : ℕ) : ℕ → ℕ → List Seg
  | _, 0 => []
  | i, k + 1 => (segAt L file (phOfs phoff phentsize i)).toList ++ segsFrom L file phoff phentsize (i + 1) k

theorem covered_cons (seg : Seg) (segs : List Seg) :
    covered L (seg :: segs) = range (BitVec.ofNat L.xlen seg.vaddr) seg.memsz ∪ covered L segs := by
  ext a
  simp [covered]

/-- The stores in a log are inside. -/
def Confined (L : Layout) (log : List Access) : Prop := ∀ x ∈ log, (∃ seg, x = .segment seg) ∨ x.Inside L

theorem Confined.grows {l l' : List Access} (h : Confined L l) (hg : Grows L l l') : Confined L l' := by
  obtain ⟨xs, rfl, hxs⟩ := hg
  intro x hx
  rcases List.mem_append.mp hx with hx | hx
  · exact h x hx
  · exact Or.inr (hxs x hx)

theorem Confined.segment {l : List Access} (h : Confined L l) (seg : Seg) : Confined L (l ++ [.segment seg]) := by
  intro x hx
  rcases List.mem_append.mp hx with hx | hx
  · exact h x hx
  · exact Or.inl ⟨seg, List.mem_singleton.mp hx⟩

section Segments

variable {m₀ r : Mem L.xlen} {K : Set (BitVec L.xlen)} {s s' : St L.xlen} {phoff phentsize : ℕ}

theorem Loaded.quiet (h : Loaded m₀ r K s) (hq : Quiet s s') : Loaded m₀ r K s' :=
  ⟨by rw [hq.mem]; exact h.mem, fun a ha hlow => by rw [hq.alt]; exact h.alt a ha hlow, h.ram⟩

/-- **The loop over the program headers**, for segments in RAM. -/
theorem wp_loadFrom : ∀ (k i loadEnd : ℕ) (r : Mem L.xlen) (K : Set (BitVec L.xlen)) (s : St L.xlen),
    (∀ seg ∈ segsFrom L fs.file phoff phentsize i k, seg.InRam L) → Loaded m₀ r K s → Confined L s.log →
    Wp (loadFrom fs L phoff phentsize i k loadEnd) s
      (fun res s' => res = (segsFrom L fs.file phoff phentsize i k).foldl (fun e seg => newEnd L seg e) loadEnd ∧
        (∀ seg ∈ segsFrom L fs.file phoff phentsize i k, (seg.bytes fs.file).length = seg.memsz) ∧
        Loaded m₀ (applySegs fs.file r (segsFrom L fs.file phoff phentsize i k))
          (K ∪ covered L (segsFrom L fs.file phoff phentsize i k)) s' ∧ Confined L s'.log)
      (fun _ _ => True)
  | 0, i, loadEnd, r, K, s, hin, h, hlog => by
    refine ⟨rfl, nofun, ?_, hlog⟩
    have hnone : covered L [] = ∅ := by simp [covered]
    rw [segsFrom, hnone, Set.union_empty]
    exact h
  | k + 1, i, loadEnd, r, K, s, hin, h, hlog => by
    rw [loadFrom]
    simp only [wp_bind]
    refine wp_programHeader.mono ?_ fun _ _ _ => trivial
    rintro res s₁ ⟨-, rfl, hq⟩
    have h₁ := h.quiet hq
    have hlog₁ : Confined L s₁.log := by rwa [hq.log]
    cases hseg : segAt L fs.file (phOfs phoff phentsize i) with
    | none =>
      have hsegs :
          segsFrom L fs.file phoff phentsize i (k + 1) = segsFrom L fs.file phoff phentsize (i + 1) k := by
        rw [segsFrom, hseg]
        rfl
      rw [hsegs] at hin ⊢
      exact wp_loadFrom k (i + 1) loadEnd r K s₁ hin h₁ hlog₁
    | some seg =>
      have hsegs : segsFrom L fs.file phoff phentsize i (k + 1) =
          seg :: segsFrom L fs.file phoff phentsize (i + 1) k := by
        rw [segsFrom, hseg]
        rfl
      rw [hsegs] at hin ⊢
      have hfine : seg.Fine L := ⟨(segAt_lt hseg).1, hin seg List.mem_cons_self⟩
      simp only [wp_bind]
      refine (wp_segment hfine h₁).mono ?_ fun _ _ _ => trivial
      rintro _ s₂ ⟨rfl, hlen, h₂, hgrows⟩
      have hlog₂ := (hlog₁.segment seg).grows hgrows
      refine (wp_loadFrom k (i + 1) _ _ _ s₂ (fun seg' hs => hin seg' (List.mem_cons_of_mem _ hs))
        h₂ hlog₂).mono ?_
        fun _ _ _ => trivial
      rintro res s₃ ⟨rfl, hlens, h₃, hlog₃⟩
      refine ⟨rfl, List.forall_mem_cons.mpr ⟨length_bytes hlen, hlens⟩, ?_, hlog₃⟩
      rw [covered_cons, ← Set.union_assoc]
      exact h₃

end Segments

/-! ## The device tree -/

namespace Layout

variable (L)

/-- `totalsize` of the ROM's tree. -/
def total : ℕ := totalsize L.dtb

/-- The length of what is written for the device tree. -/
def treeLen : ℕ := max L.dtb.length (L.total + 0x1000)

/-- The place of the copy of the device tree. -/
def tree : Set (BitVec L.xlen) := range (BitVec.ofNat L.xlen L.dst) L.treeLen

/-- The device tree of the ROM, with the slack added to `totalsize` and zeros there. -/
def patched : List UInt8 :=
  (List.range (L.total + 0x1000)).map fun i =>
    if 4 ≤ i ∧ i < 8 then (beBytes 4 (L.total + 0x1000)).getD (i - 4) 0
      else if i < L.total then L.dtb.getD i 0 else 0

/-- The place of the tree is between the ROM's own data and the staging area. -/
theorem dst_bounds : L.memEnd ≤ L.dst ∧ L.dst + L.treeLen ≤ L.memAlt := by
  have hroom := L.room
  have hpacked := L.packed
  unfold dst treeLen total
  omega

end Layout

theorem totalsize_take (h : List UInt8) : totalsize (h.take 8) = totalsize h := by
  have hget : ∀ i < 8, (h.take 8).getD i 0 = h.getD i 0 := by
    intro i hi
    rw [List.getD_eq_getElem?_getD, List.getElem?_take_of_lt hi, List.getD_eq_getElem?_getD]
  unfold totalsize
  rw [hget 4 (by omega), hget 5 (by omega), hget 6 (by omega), hget 7 (by omega)]

section Tree

variable {s : St L.xlen}

theorem toNat_add_ofNat {w a i : ℕ} (h : a + i < 2 ^ w) : (BitVec.ofNat w a + BitVec.ofNat w i).toNat = a + i := by
  rw [← BitVec.ofNat_add, BitVec.toNat_ofNat, Nat.mod_eq_of_lt h]

/-- The start of what has been written. -/
theorem bytesAt_splice {w a n : ℕ} {m : Mem w} {bs : List UInt8} (h : a + bs.length ≤ 2 ^ w) (hn : n ≤ bs.length) :
    bytesAt (splice m (BitVec.ofNat w a) bs) (BitVec.ofNat w a) n = bs.take n := by
  apply List.ext_getElem?
  intro i
  by_cases hi : i < n
  · rw [getElem?_bytesAt hi, splice_ofNat h, toNat_add_ofNat (by omega), if_pos ⟨by omega, by omega⟩,
      List.getElem?_take_of_lt hi, Nat.add_sub_cancel_left, List.getElem?_eq_getElem (by omega),
      List.getD_eq_getElem _ _ (by omega)]
  · rw [List.getElem?_eq_none (by simpa using hi), List.getElem?_eq_none (by rw [List.length_take]; omega)]

/-- The memory after the three stores. -/
def withTree (L : Layout) (m : Mem L.xlen) : Mem L.xlen :=
  splice (splice (splice m (BitVec.ofNat L.xlen L.dst) L.dtb) (BitVec.ofNat L.xlen (L.dst + L.total))
    (List.replicate 0x1000 0)) (BitVec.ofNat L.xlen (L.dst + 4)) (beBytes 4 (L.total + 0x1000))

theorem withTree_apply (m : Mem L.xlen) (x : BitVec L.xlen) : withTree L m x =
    if L.dst + 4 ≤ x.toNat ∧ x.toNat < L.dst + 8 then (beBytes 4 (L.total + 0x1000)).getD (x.toNat - (L.dst + 4)) 0
    else if L.dst + L.total ≤ x.toNat ∧ x.toNat < L.dst + L.total + 0x1000 then 0
    else if L.dst ≤ x.toNat ∧ x.toNat < L.dst + L.dtb.length then L.dtb.getD (x.toNat - L.dst) 0 else m x := by
  obtain ⟨hown, halt, htop, hsize⟩ := L.areas
  obtain ⟨hlow, hhigh⟩ := L.dst_bounds
  have hheader : 8 ≤ L.total := L.header
  have hlen : (beBytes 4 (L.total + 0x1000)).length = 4 := by simp [beBytes]
  unfold Layout.treeLen at hhigh
  rw [withTree, splice_ofNat (by omega), splice_ofNat (by rw [List.length_replicate]; omega),
    splice_ofNat (by omega),
    hlen, List.length_replicate]
  split_ifs with h4 htot
  · rfl
  · rw [List.getD_eq_getElem _ _ (by rw [List.length_replicate]; omega), List.getElem_replicate]
  · rfl
  · rfl

/-- **The copy of the device tree.** -/
theorem wp_deviceTree {loadEnd : ℕ} :
    Wp (deviceTree L loadEnd) s
      (fun res s' => res = L.dst ∧ (L.base ≤ loadEnd ∧ loadEnd ≤ L.dst) ∧ s'.mem = withTree L s.mem ∧
        s'.altMem = s.altMem ∧ Grows L s.log s'.log)
      (fun _ s' => s'.log = s.log) := by
  obtain ⟨hown, halt, htop, hsize⟩ := L.areas
  obtain ⟨hlow, hhigh⟩ := L.dst_bounds
  have hheader : 8 ≤ L.total := L.header
  have hpacked : L.total ≤ L.dtb.length := L.packed
  unfold Layout.treeLen at hhigh
  simp only [deviceTree, access, store, wp_bind, wp_ite, wp_throw, wp_modify, wp_get, wp_pure]
  refine ⟨fun _ => trivial, fun hin => ?_⟩
  rw [bytesAt_splice (by omega) (by omega), totalsize_take]
  refine ⟨trivial, by omega, rfl, trivial, ?_⟩
  have hin : ∀ a n, L.dst ≤ a → a + n ≤ L.memAlt → (Access.tree a n).Inside L :=
    fun a n ha hn => ⟨by omega, by omega⟩
  have hslack : L.dst + totalsize L.dtb + 0x1000 ≤ L.memAlt := by
    change L.dst + L.total + 0x1000 ≤ L.memAlt
    omega
  exact (Grows.snoc (hin _ _ le_rfl (by omega))).trans ((Grows.snoc (hin _ _ (by omega) hslack)).trans
    (.snoc (hin _ _ (by omega) (by omega))))

/-- What is read back is the patched tree. -/
theorem bytesAt_withTree (m : Mem L.xlen) :
    bytesAt (withTree L m) (BitVec.ofNat L.xlen L.dst) (L.total + 0x1000) = L.patched := by
  obtain ⟨hown, halt, htop, hsize⟩ := L.areas
  obtain ⟨hlow, hhigh⟩ := L.dst_bounds
  have hheader : 8 ≤ L.total := L.header
  have hpacked : L.total ≤ L.dtb.length := L.packed
  unfold Layout.treeLen at hhigh
  unfold bytesAt Layout.patched
  refine List.map_congr_left fun i hi => ?_
  rw [List.mem_range] at hi
  rw [withTree_apply, toNat_add_ofNat (by omega)]
  by_cases h4 : 4 ≤ i ∧ i < 8
  · rw [if_pos h4, if_pos ⟨by omega, by omega⟩, show L.dst + i - (L.dst + 4) = i - 4 by omega]
  rw [if_neg h4, if_neg (by omega)]
  by_cases htot : i < L.total
  · rw [if_pos htot, if_neg (by omega), if_pos ⟨by omega, by omega⟩, Nat.add_sub_cancel_left]
  · rw [if_neg htot, if_pos ⟨by omega, by omega⟩]

/-- Other addresses are left alone. -/
theorem withTree_of_notMem {m : Mem L.xlen} {x : BitVec L.xlen} (hx : x ∉ L.tree) : withTree L m x = m x := by
  obtain ⟨hown, halt, htop, hsize⟩ := L.areas
  obtain ⟨hlow, hhigh⟩ := L.dst_bounds
  have hheader : 8 ≤ L.total := L.header
  have hpacked : L.total ≤ L.dtb.length := L.packed
  rw [Layout.tree, mem_range_ofNat (by omega)] at hx
  unfold Layout.treeLen at hx hhigh
  rw [withTree_apply, if_neg (by omega), if_neg (by omega), if_neg (by omega)]

end Tree

/-! ## The copy down and the jump -/

/-- One round of `boot_rom_memcpy`. -/
theorem copyWord_apply {w t0 t2 : ℕ} (m : Mem w) (x : BitVec w) (h : t0 + 8 ≤ 2 ^ w) :
    splice m (BitVec.ofNat w t0) (bytesAt m (BitVec.ofNat w t2) 8) x =
      if t0 ≤ x.toNat ∧ x.toNat < t0 + 8 then m (BitVec.ofNat w (x.toNat - t0 + t2)) else m x := by
  rw [splice_ofNat (by rwa [length_bytesAt]), length_bytesAt]
  split_ifs with hin
  · rw [List.getD_eq_getElem?_getD, getElem?_bytesAt (by omega), Option.getD_some,
      ← BitVec.ofNat_add, Nat.add_comm]
  · rfl

/-- `boot_rom_memcpy` moves the staging area down. -/
theorem copyDown_apply : ∀ (k t0 t2 : ℕ) (m : Mem L.xlen) (x : BitVec L.xlen), t0 + 8 * (k + 1) = L.memEnd →
    L.memEnd ≤ t2 → t2 + 8 * (k + 1) ≤ 2 ^ L.xlen → copyDown L (k + 1) t0 t2 m x =
      if t0 ≤ x.toNat ∧ x.toNat < L.memEnd then m (BitVec.ofNat L.xlen (x.toNat - t0 + t2)) else m x
  | 0, t0, t2, m, x, hend, hlow, hhigh => by
    rw [copyDown, if_pos (by omega), copyWord_apply m x (by omega), show t0 + 8 = L.memEnd by omega]
  | k + 1, t0, t2, m, x, hend, hlow, hhigh => by
    have hx := x.isLt
    rw [copyDown, if_neg (by omega), copyDown_apply k (t0 + 8) (t2 + 8) _ x (by omega) (by omega) (by omega)]
    by_cases hrest : t0 + 8 ≤ x.toNat ∧ x.toNat < L.memEnd
    · -- the source lies above what has been written
      have hsrc : (BitVec.ofNat L.xlen (x.toNat - (t0 + 8) + (t2 + 8))).toNat = x.toNat - t0 + t2 := by
        rw [BitVec.toNat_ofNat, Nat.mod_eq_of_lt (by omega)]
        omega
      rw [if_pos hrest, if_pos ⟨by omega, hrest.2⟩, copyWord_apply _ _ (by omega), if_neg (by omega)]
      congr 2
      omega
    · rw [if_neg hrest, copyWord_apply m x (by omega)]
      by_cases hword : t0 ≤ x.toNat ∧ x.toNat < t0 + 8
      · rw [if_pos hword, if_pos ⟨hword.1, by omega⟩]
      · rw [if_neg hword, if_neg (by omega)]

/-- The staging area. -/
def Layout.staging (L : Layout) : Set (BitVec L.xlen) := range (BitVec.ofNat L.xlen L.memAlt) (L.memEnd - L.base)

/-- The `PT_LOAD` segments of a file, in the order of their headers. -/
def loadable (L : Layout) (file : List UInt8) : List Seg :=
  segsFrom L file (numAt file (24 + L.xlen / 8) (L.xlen / 8)) (numAt file (24 + 3 * (L.xlen / 8) + 6) 2) 0
    (numAt file (24 + 3 * (L.xlen / 8) + 8) 2)

/-- Memory at the jump, with the device tree's address in `a1`. -/
structure AtJump (file : List UInt8) (m₀ : Mem L.xlen) (a1 : ℕ) (s : St L.xlen) : Prop where
  segments : ∀ a ∈ covered L (loadable L file), s.mem a = applySegs file m₀ (loadable L file) a
  others : ∀ a, a ∉ covered L (loadable L file) → a ∉ L.tree → a ∉ L.staging →
    ¬ (L.base ≤ a.toNat ∧ a.toNat < L.memEnd) → s.mem a = m₀ a
  confined : Confined L s.log
  address : a1 = L.dst
  tree : bytesAt s.mem (BitVec.ofNat L.xlen a1) (L.total + 0x1000) = L.patched
  apart : ∀ a ∈ L.tree, a ∉ covered L (loadable L file) ∧ a ∉ L.staging

/-- No segment is where the device tree goes, and a byte of the staging area that is wanted for two addresses is
the same for both. -/
structure Compatible (L : Layout) (file : List UInt8) (m₀ : Mem L.xlen) : Prop where
  tree : ∀ a ∈ L.tree, a ∉ covered L (loadable L file)
  staging : ∀ i < L.memEnd - L.base, BitVec.ofNat L.xlen (L.base + i) ∈ covered L (loadable L file) →
    BitVec.ofNat L.xlen (L.memAlt + i) ∈ covered L (loadable L file) →
    applySegs file m₀ (loadable L file) (BitVec.ofNat L.xlen (L.base + i)) =
      applySegs file m₀ (loadable L file) (BitVec.ofNat L.xlen (L.memAlt + i))

/-- The memory after the copy down, if there is one. -/
def copied (L : Layout) (altMem : Bool) (m : Mem L.xlen) : Mem L.xlen :=
  if altMem then copyDown L ((L.memEnd - L.base) / 8) L.base L.memAlt m else m

theorem copied_low {m : Mem L.xlen} {x : BitVec L.xlen} (hx : L.base ≤ x.toNat ∧ x.toNat < L.memEnd) :
    copied L true m x = m (L.phys x) := by
  obtain ⟨hown, halt, htop, hsize⟩ := L.areas
  obtain ⟨k, hk⟩ := L.words
  obtain ⟨k, rfl⟩ : ∃ j, k = j + 1 := ⟨k - 1, by omega⟩
  rw [copied, if_pos rfl, hk, Nat.mul_div_cancel_left _ (by omega), copyDown_apply k _ _ _ _ (by omega)
    (by omega) (by omega),
    if_pos hx, Layout.phys, if_pos hx.2]

theorem copied_high {m : Mem L.xlen} {b : Bool} {x : BitVec L.xlen}
    (hx : ¬ (L.base ≤ x.toNat ∧ x.toNat < L.memEnd)) :
    copied L b m x = m x := by
  obtain ⟨hown, halt, htop, hsize⟩ := L.areas
  obtain ⟨k, hk⟩ := L.words
  obtain ⟨k, rfl⟩ : ∃ j, k = j + 1 := ⟨k - 1, by omega⟩
  unfold copied
  split_ifs
  · rw [hk, Nat.mul_div_cancel_left _ (by omega), copyDown_apply k _ _ _ _ (by omega) (by omega) (by omega),
      if_neg hx]
  · rfl

/-- What `download` has done when it comes to its jump. -/
structure Done (fs : Fs) (m₀ : Mem L.xlen) (a1 : ℕ) (s : St L.xlen) (s₁ : St L.xlen) : Prop where
  loaded : Loaded m₀ (applySegs fs.file m₀ (loadable L fs.file)) (covered L (loadable L fs.file)) s₁
  lengths : ∀ seg ∈ loadable L fs.file, (seg.bytes fs.file).length = seg.memsz
  ends : L.base ≤ (loadable L fs.file).foldl (fun e seg => newEnd L seg e) 0 ∧
    (loadable L fs.file).foldl (fun e seg => newEnd L seg e) 0 ≤ L.dst
  address : a1 = L.dst
  mem : s.mem = copied L s₁.altMem (withTree L s₁.mem)
  confined : Confined L s.log

theorem Loaded.of_start {m₀ : Mem L.xlen} {alt : Bool} {s : St L.xlen} (h : Quiet (start m₀ alt) s) :
    Loaded m₀ m₀ ∅ s := by
  refine ⟨?_, fun a ha => ha.elim, fun a ha => ha.elim⟩
  rw [h.mem]
  exact .refl _ _

theorem wp_download {m₀ : Mem L.xlen} {alt : Bool} (hin : ∀ seg ∈ loadable L fs.file, seg.InRam L) :
    Wp (download fs L) (start m₀ alt) (fun res s => ∃ s₁, Done fs m₀ res.2 s s₁) (fun _ _ => True) := by
  simp only [download, fClose, wp_bind]
  refine wp_elfHeader.mono ?_ fun _ _ _ => trivial
  rintro _ s₁ ⟨-, rfl, hq₁⟩
  have h₁ := Loaded.of_start hq₁
  have hlog₁ : Confined L s₁.log := by
    rw [hq₁.log]
    exact List.forall_mem_nil _
  simp only [headerOf]
  refine (wp_loadFrom _ _ _ _ _ _ hin h₁ hlog₁).mono ?_ fun _ _ _ => trivial
  rintro _ s₂ ⟨rfl, hlens, h₂, hlog₂⟩
  rw [Set.empty_union] at h₂
  refine wp_call ?_ fun _ => trivial
  refine wp_deviceTree.mono ?_ fun _ _ _ => trivial
  rintro _ s₃ ⟨rfl, hends, hmem, halt, hgrows⟩
  simp only [wp_get, wp_ite, wp_pure]
  have hdone : ∀ s, s.mem = copied L s₂.altMem (withTree L s₂.mem) → s.log = s₃.log →
      ∃ s₁, Done fs m₀ L.dst s s₁ := fun s hs hlog =>
    ⟨s₂, h₂, hlens, hends, rfl, hs, by rw [hlog]; exact hlog₂.grows hgrows⟩
  refine ⟨fun h => hdone _ ?_ rfl, fun h => hdone _ ?_ rfl⟩
  · rw [copied, if_pos (halt.symm.trans h), ← hmem]
  · rw [copied, if_neg (fun hc => h (halt.trans hc)), ← hmem]

section Jump

variable {m₀ : Mem L.xlen} {a1 : ℕ} {s s₁ : St L.xlen}

/-- An address of a segment in RAM. -/
theorem mem_covered {segs : List Seg} (hin : ∀ seg ∈ segs, seg.InRam L) {a : BitVec L.xlen} :
    a ∈ covered L segs ↔ ∃ seg ∈ segs, seg.vaddr ≤ a.toNat ∧ a.toNat < seg.vaddr + seg.memsz := by
  have hsize := L.base_add_size_le
  refine exists_congr fun seg => and_congr_right fun hseg => ?_
  have hram := (hin seg hseg).2
  rw [mem_range_ofNat (by omega)]

theorem Done.mem_low (h : Done fs m₀ a1 s s₁) {a : BitVec L.xlen} (ha : a ∈ covered L (loadable L fs.file))
    (hlow : a.toNat < L.memEnd) : s.mem a = s₁.mem (L.phys a) := by
  obtain ⟨hown, halt, htop, hsize⟩ := L.areas
  obtain ⟨-, hhigh⟩ := L.dst_bounds
  obtain ⟨hbase, hram⟩ := h.loaded.ram a ha
  have hphys := L.toNat_phys hbase
  rw [if_pos hlow] at hphys
  rw [h.mem, h.loaded.alt a ha hlow, copied_low ⟨hbase, hlow⟩]
  apply withTree_of_notMem
  rw [Layout.tree, mem_range_ofNat (by omega)]
  omega

theorem Done.mem_high (h : Done fs m₀ a1 s s₁) {a : BitVec L.xlen}
    (hlow : ¬ (L.base ≤ a.toNat ∧ a.toNat < L.memEnd))
    (htree : a ∉ L.tree) : s.mem a = s₁.mem a := by
  rw [h.mem, copied_high hlow, withTree_of_notMem htree]

/-- Two addresses with one place get the same byte. -/
theorem Compatible.agree (hc : Compatible L fs.file m₀) {a b : BitVec L.xlen}
    (ha : a ∈ covered L (loadable L fs.file))
    (hb : b ∈ covered L (loadable L fs.file)) (hbase : L.base ≤ a.toNat) (hbase' : L.base ≤ b.toNat)
    (hplace : L.phys b = L.phys a) :
    applySegs fs.file m₀ (loadable L fs.file) b = applySegs fs.file m₀ (loadable L fs.file) a := by
  obtain ⟨hown, halt, htop, hsize⟩ := L.areas
  have hnat := congrArg BitVec.toNat hplace
  rw [L.toNat_phys hbase, L.toNat_phys hbase'] at hnat
  -- one address below `memEnd`, and the address of its place
  have hpair : ∀ {x y : BitVec L.xlen}, x ∈ covered L (loadable L fs.file) → y ∈ covered L (loadable L fs.file) →
      L.base ≤ x.toNat → x.toNat < L.memEnd → y.toNat = x.toNat - L.base + L.memAlt →
      applySegs fs.file m₀ (loadable L fs.file) x = applySegs fs.file m₀ (loadable L fs.file) y := by
    intro x y hx hy hxbase hxlow hxy
    have hofx : BitVec.ofNat L.xlen (L.base + (x.toNat - L.base)) = x := by
      rw [Nat.add_sub_cancel' hxbase, BitVec.ofNat_toNat, BitVec.setWidth_eq]
    have hofy : BitVec.ofNat L.xlen (L.memAlt + (x.toNat - L.base)) = y := by
      rw [Nat.add_comm, ← hxy, BitVec.ofNat_toNat, BitVec.setWidth_eq]
    have heq := hc.staging (x.toNat - L.base) (by omega)
    rw [hofx, hofy] at heq
    exact heq hx hy
  split_ifs at hnat with hb' ha' ha'
  · rw [BitVec.eq_of_toNat_eq (show b.toNat = a.toNat by omega)]
  · exact hpair hb ha hbase' hb' hnat.symm
  · exact (hpair ha hb hbase ha' hnat).symm
  · rw [BitVec.eq_of_toNat_eq hnat]

theorem Done.atJump (h : Done fs m₀ a1 s s₁) (hc : Compatible L fs.file m₀) : AtJump fs.file m₀ a1 s := by
  obtain ⟨hown, halt, htop, hsize⟩ := L.areas
  obtain ⟨hlow, hhigh⟩ := L.dst_bounds
  have hagree : ∀ a ∈ covered L (loadable L fs.file),
      s₁.mem (L.phys a) = applySegs fs.file m₀ (loadable L fs.file) a := fun a ha =>
    h.loaded.mem.eq_of_agree ha fun b hb hplace =>
      hc.agree ha hb (h.loaded.ram a ha).1 (h.loaded.ram b hb).1 hplace
  have htree : ∀ a ∈ L.tree, L.dst ≤ a.toNat ∧ a.toNat < L.memAlt := by
    intro a ha
    rw [Layout.tree, mem_range_ofNat (by omega)] at ha
    omega
  refine ⟨fun a ha => ?_, fun a ha hnt hns hnl => ?_, h.confined, h.address, ?_, fun a ha => ⟨hc.tree a ha, ?_⟩⟩
  · by_cases hal : a.toNat < L.memEnd
    · rw [h.mem_low ha hal, hagree a ha]
    · have hphys : L.phys a = a := if_neg hal
      rw [h.mem_high (fun hc' => hal hc'.2) fun hc' => hc.tree a hc' ha, ← hagree a ha, hphys]
  · rw [h.mem_high hnl hnt]
    apply h.loaded.mem.eq_of_forall_ne
    rintro b hb rfl
    have hbase := (h.loaded.ram b hb).1
    have hnat := L.toNat_phys hbase
    by_cases hbl : b.toNat < L.memEnd
    · rw [if_pos hbl] at hnat
      rw [Layout.staging, mem_range_ofNat (by omega)] at hns
      omega
    · have hphys : L.phys b = b := if_neg hbl
      rw [hphys] at ha
      exact ha hb
  · rw [h.address, ← bytesAt_withTree s₁.mem, h.mem]
    refine List.map_congr_left fun i hi => copied_high ?_
    rw [List.mem_range] at hi
    unfold Layout.treeLen at hhigh
    rw [toNat_add_ofNat (by omega)]
    omega
  · have hin := htree a ha
    rw [Layout.staging, mem_range_ofNat (by omega)]
    omega

theorem Done.compatible (h : Done fs m₀ a1 s s₁) (hj : AtJump fs.file m₀ a1 s) : Compatible L fs.file m₀ := by
  obtain ⟨hown, halt, htop, hsize⟩ := L.areas
  obtain ⟨-, hhigh⟩ := L.dst_bounds
  refine ⟨fun a ha => (hj.apart a ha).1, fun i hi hbase hplace => ?_⟩
  have hnat : (BitVec.ofNat L.xlen (L.base + i)).toNat = L.base + i := by
    rw [BitVec.toNat_ofNat, Nat.mod_eq_of_lt (by omega)]
  have hnat' : (BitVec.ofNat L.xlen (L.memAlt + i)).toNat = L.memAlt + i := by
    rw [BitVec.toNat_ofNat, Nat.mod_eq_of_lt (by omega)]
  have hphys : L.phys (BitVec.ofNat L.xlen (L.base + i)) = BitVec.ofNat L.xlen (L.memAlt + i) := by
    rw [Layout.phys, hnat, if_pos (by omega), Nat.add_sub_cancel_left, Nat.add_comm]
  -- both addresses have the byte of their one place
  rw [← hj.segments _ hbase, ← hj.segments _ hplace, h.mem_low hbase (by omega), hphys]
  refine (h.mem_high (by omega) ?_).symm
  rw [Layout.tree, mem_range_ofNat (by omega)]
  omega

/-- The end of the loaded image, where no segment ends at the end of the address space. -/
theorem le_foldl_newEnd : ∀ (segs : List Seg) (e : ℕ), (∀ seg ∈ segs, seg.vaddr + seg.memsz < 2 ^ L.xlen) →
    e ≤ segs.foldl (fun e seg => newEnd L seg e) e ∧
      ∀ seg ∈ segs, seg.vaddr + seg.memsz ≤ segs.foldl (fun e seg => newEnd L seg e) e
  | [], e, _ => ⟨le_rfl, nofun⟩
  | seg :: segs, e, h => by
    have hend := h seg List.mem_cons_self
    have hle : 2 ^ L.xlen ≤ 2 ^ 64 := Nat.pow_le_pow_right (by omega) (by rcases L.xlen_eq with h | h <;> omega)
    have hnew : newEnd L seg e = max e (seg.vaddr + seg.memsz) := by
      rw [newEnd, Seg.end64, Nat.mod_eq_of_lt (show seg.vaddr + seg.memsz < 2 ^ 64 by omega),
        Nat.mod_eq_of_lt hend]
      split_ifs <;> omega
    obtain ⟨hfold, hsegs⟩ := le_foldl_newEnd segs (newEnd L seg e) fun seg' hs =>
      h seg' (List.mem_cons_of_mem _ hs)
    rw [hnew] at hfold hsegs
    rw [List.foldl_cons, hnew]
    refine ⟨by omega, fun seg' hs => ?_⟩
    rcases List.mem_cons.mp hs with rfl | hs
    · omega
    · exact hsegs seg' hs

/-- Only a segment that ends at the end of the address space can be in the way. -/
theorem Done.compatible_of_lt (h : Done fs m₀ a1 s s₁) (hin : ∀ seg ∈ loadable L fs.file, seg.InRam L)
    (hlt : ∀ seg ∈ loadable L fs.file, seg.vaddr + seg.memsz < 2 ^ L.xlen) : Compatible L fs.file m₀ := by
  obtain ⟨hown, halt, htop, hsize⟩ := L.areas
  obtain ⟨-, hhigh⟩ := L.dst_bounds
  have hend := h.ends.2
  have hbelow : ∀ a ∈ covered L (loadable L fs.file), a.toNat < L.dst := by
    intro a ha
    obtain ⟨seg, hseg, -, ha⟩ := (mem_covered hin).mp ha
    have hle := (le_foldl_newEnd _ 0 hlt).2 seg hseg
    omega
  refine ⟨fun a ha hcov => ?_, fun i hi _ hcov => ?_⟩
  · have hlt' := hbelow a hcov
    rw [Layout.tree, mem_range_ofNat (by omega)] at ha
    omega
  · have hlt' := hbelow _ hcov
    rw [BitVec.toNat_ofNat, Nat.mod_eq_of_lt (by omega)] at hlt'
    omega

/-- **The boot ROM at its jump.**  The memory is right exactly when the file is compatible.  It is, unless a
segment ends at the end of the address space. -/
theorem at_jump_iff {alt : Bool} {entry : ℕ} (hin : ∀ seg ∈ loadable L fs.file, seg.InRam L)
    (hjump : download fs L (start m₀ alt) = .ok (entry, a1) s) :
    (AtJump fs.file m₀ a1 s ↔ Compatible L fs.file m₀) ∧
      ((∀ seg ∈ loadable L fs.file, seg.vaddr + seg.memsz < 2 ^ L.xlen) → Compatible L fs.file m₀) := by
  obtain ⟨s₁, h⟩ := (wp_download hin).ok hjump
  exact ⟨⟨h.compatible, h.atJump⟩, h.compatible_of_lt hin⟩

end Jump

/-! ## Two files -/

/-- A program header of type `PT_LOAD`. -/
def Seg.header (xlen : ℕ) (seg : Seg) : List UInt8 :=
  leBytes 4 1 ++ (if xlen = 32 then [] else leBytes 4 7) ++
    [seg.offset, seg.vaddr, seg.vaddr, seg.filesz, seg.memsz].flatMap (leBytes (xlen / 8)) ++
    (if xlen = 32 then leBytes 4 7 else []) ++ leBytes (xlen / 8) 0x1000

/-- A file with program headers only. -/
def elfOf (xlen entry : ℕ) (segs : List Seg) : List UInt8 :=
  [0x7f, 0x45, 0x4c, 0x46, if xlen = 32 then 1 else 2, 1, 1] ++ List.replicate 9 0 ++
    leBytes 2 2 ++ leBytes 2 0xf3 ++ leBytes 4 1 ++
    [entry, if xlen = 32 then 52 else 64, 0].flatMap (leBytes (xlen / 8)) ++ leBytes 4 0 ++
    [if xlen = 32 then 52 else 64, if xlen = 32 then 32 else 56, segs.length, 0, 0, 0].flatMap (leBytes 2) ++
    segs.flatMap (Seg.header xlen)

/-- FatFs without failures and short reads. -/
def wholeReads (file : List UInt8) : Fs := { file, fail := fun _ => none, count := fun _ => 0x10000 }

/-- RV32 with 2 GiB of RAM: RAM ends where the addresses end. -/
def full32 : Layout where
  xlen := 32
  base := 0x80000000
  size := 0x80000000
  memEnd := 0x80008000
  memAlt := 0xffff6000
  dtb := [0xd0, 0x0d, 0xfe, 0xed, 0, 0, 0, 40] ++ List.replicate 32 0
  xlen_eq := Or.inl rfl
  addressable := by decide
  own := by decide
  words := by decide
  top := by decide
  room := by decide
  header := by decide
  packed := by decide

/-- A segment over the end of the ROM's own data, with some zeros. -/
def across32 : List UInt8 := elfOf 32 0x80007ff0 [⟨0, 0x80007ff0, 0x20, 0x30⟩]

/-- The segment across `memEnd` is there at the jump. -/
theorem across32_at_jump :
    ∃ s, download (wholeReads across32) full32 (start (fun _ => 0) false) = .ok (0x80007ff0, 0xffff4000) s ∧
    AtJump across32 (fun _ => 0) 0xffff4000 s := by
  have hin : ∀ seg ∈ loadable full32 (wholeReads across32).file, seg.InRam full32 := by decide
  obtain ⟨s, hs⟩ := exists_of_returned (show
    returned (download (wholeReads across32) full32 (start (fun _ => 0) false)) =
      some (0x80007ff0, 0xffff4000) by decide +kernel)
  obtain ⟨hiff, hlt⟩ := at_jump_iff hin hs
  exact ⟨s, hs, hiff.mpr (hlt (by decide))⟩

/-- The first segment is in RAM and ends with it. -/
def atEnd32 : List UInt8 := elfOf 32 0x80010000 [⟨0, 0xffff5000, 0, 0xb000⟩, ⟨0, 0x80010000, 0x20, 0x20⟩]

/-- The end of the first segment is taken for 0, and the device tree is written over its start. -/
theorem tree_over_segment : (∀ seg ∈ loadable full32 atEnd32, seg.InRam full32) ∧
    ∃ s, download (wholeReads atEnd32) full32 (start (fun _ => 0) false) = .ok (0x80010000, 0xffff4000) s ∧
      ¬ AtJump atEnd32 (fun _ => 0) 0xffff4000 s := by
  refine ⟨by decide, ?_⟩
  obtain ⟨s, hs⟩ := exists_of_returned (show
    returned (download (wholeReads atEnd32) full32 (start (fun _ => 0) false)) =
      some (0x80010000, 0xffff4000) by decide +kernel)
  refine ⟨s, hs, fun hj => (hj.apart (BitVec.ofNat full32.xlen 0xffff5000) ?_).1
    ⟨⟨0, 0xffff5000, 0, 0xb000⟩, by decide, ?_⟩⟩
  · rw [Layout.tree, mem_range]
    decide
  · rw [mem_range]
    decide

end Soceteer.Boot
