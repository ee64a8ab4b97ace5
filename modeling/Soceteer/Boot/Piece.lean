import Soceteer.Boot.Rom
import Soceteer.Lib.Redirect

/-!
# Soceteer.Boot.Piece — where the pieces of a segment go

* `Layout.phys`: the place of an address, in the staging area below `memEnd`.
* `phys_piece`, `piece_inside`: a piece of a segment in RAM goes to the places of its addresses, above `memEnd`.
* `Loaded`: the memory that was meant and the memory there is, after some pieces.
* `wp_readLoop`, `wp_zeroLoop`, `wp_segment`: what the loops over the pieces do, and where they write.
-/

namespace Soceteer.Boot

open Soceteer.Lib

variable {L : Layout}

namespace Layout

variable (L)

theorem base_add_size_le : L.base + L.size ≤ 2 ^ L.xlen := L.addressable.1

/-- The order of the areas in RAM. -/
theorem areas :
    L.base < L.memEnd ∧ L.memEnd + 0x10000 ≤ L.memAlt ∧ L.memAlt + (L.memEnd - L.base) ≤ L.base + L.size ∧
    L.base + L.size ≤ 2 ^ L.xlen := by
  have hroom := L.room
  exact ⟨L.own, by omega, L.top, L.addressable.1⟩

/-- The place of an address. -/
def phys (a : BitVec L.xlen) : BitVec L.xlen :=
  if a.toNat < L.memEnd then BitVec.ofNat L.xlen (a.toNat - L.base + L.memAlt) else a

theorem toNat_phys {a : BitVec L.xlen} (ha : L.base ≤ a.toNat) :
    (L.phys a).toNat = if a.toNat < L.memEnd then a.toNat - L.base + L.memAlt else a.toNat := by
  obtain ⟨hown, halt, htop, hsize⟩ := L.areas
  unfold phys
  split_ifs with h
  · rw [BitVec.toNat_ofNat, Nat.mod_eq_of_lt (by omega)]
  · rfl

end Layout

/-! ## One piece -/

/-- A segment that is in RAM, as unbounded numbers. -/
def Seg.InRam (L : Layout) (seg : Seg) : Prop := L.base ≤ seg.vaddr ∧ seg.vaddr + seg.memsz ≤ L.base + L.size

instance (seg : Seg) : Decidable (seg.InRam L) := inferInstanceAs (Decidable (_ ∧ _))

/-- An access to memory above the ROM's own data and in RAM. -/
def Access.Inside (L : Layout) : Access → Prop
  | .segment _ => False
  | .read mem size => L.memEnd ≤ mem ∧ mem + size ≤ L.base + L.size
  | .zero mem size => L.memEnd ≤ mem ∧ mem + size ≤ L.base + L.size
  | .tree mem size => L.memEnd ≤ mem ∧ mem + size ≤ L.base + L.size

/-- A piece in RAM. -/
structure Fits (L : Layout) (addr size : ℕ) : Prop where
  pos : 0 < size
  small : size ≤ 0x10000
  base : L.base ≤ addr
  ram : addr + size ≤ L.base + L.size

section Piece

variable {addr size : ℕ} (h : Fits L addr size)
include h

/-- A piece that starts below `memEnd` is staged and cut there. -/
theorem piece_eq : piece L addr size =
    if addr < L.memEnd then ⟨addr - L.base + L.memAlt, min size (L.memEnd - addr), true⟩
      else ⟨addr, size, false⟩ := by
  obtain ⟨hown, halt, htop, hsize⟩ := L.areas
  have hpos := h.pos
  have hsmall := h.small
  have hbase := h.base
  unfold piece
  by_cases hlow : addr < L.memEnd
  · -- a piece that starts below `memEnd` does not reach the end of the address space
    have hmod : (addr + size) % 2 ^ L.xlen = addr + size := Nat.mod_eq_of_lt (by omega)
    have hmem : (addr + (2 ^ L.xlen - L.base) + L.memAlt) % 2 ^ L.xlen = addr - L.base + L.memAlt := by
      rw [show addr + (2 ^ L.xlen - L.base) + L.memAlt = addr - L.base + L.memAlt + 2 ^ L.xlen by omega,
        Nat.add_mod_right, Nat.mod_eq_of_lt (by omega)]
    have hcut : (if L.memEnd < addr + size then L.memEnd - addr else size) = min size (L.memEnd - addr) := by
      split_ifs <;> omega
    rw [hmod, hmem, hcut, if_pos ⟨by omega, hlow⟩, if_pos hlow]
  · rw [if_neg fun hc => hlow hc.2, if_neg hlow]

theorem piece_size : 0 < (piece L addr size).size ∧ (piece L addr size).size ≤ size := by
  have hpos := h.pos
  rw [piece_eq h]
  split_ifs with hlow
  · exact ⟨by dsimp only; omega, Nat.min_le_left _ _⟩
  · exact ⟨hpos, le_rfl⟩

theorem piece_inside : L.memEnd ≤ (piece L addr size).mem ∧
    (piece L addr size).mem + (piece L addr size).size ≤ L.base + L.size := by
  obtain ⟨hown, halt, htop, hsize⟩ := L.areas
  have hram := h.ram
  have hbase := h.base
  rw [piece_eq h]
  split_ifs with hlow <;> dsimp only <;> omega

/-- The addresses of a piece have their places in it. -/
theorem phys_piece {a : BitVec L.xlen} {n : ℕ} (hn : n ≤ (piece L addr size).size)
    (ha : a ∈ range (BitVec.ofNat L.xlen addr) n) :
    L.phys a - BitVec.ofNat L.xlen (piece L addr size).mem = a - BitVec.ofNat L.xlen addr := by
  obtain ⟨hown, halt, htop, hsize⟩ := L.areas
  have hram := h.ram
  have hbase := h.base
  have hlt := a.isLt
  have hle := (piece_size h).2
  rw [mem_range_ofNat (by omega)] at ha
  rw [piece_eq h] at hn ⊢
  unfold Layout.phys
  by_cases hlow : addr < L.memEnd
  · rw [if_pos hlow] at hn ⊢
    dsimp only at hn ⊢
    rw [if_pos (by omega)]
    -- both are as far from the start of their area
    have hplace : a.toNat - L.base + L.memAlt = addr - L.base + L.memAlt + (a.toNat - addr) := by omega
    have haddr : a = BitVec.ofNat L.xlen (addr + (a.toNat - addr)) := by
      rw [Nat.add_sub_cancel' ha.1, BitVec.ofNat_toNat, BitVec.setWidth_eq]
    rw [hplace]
    nth_rewrite 2 [haddr]
    rw [BitVec.ofNat_add, BitVec.ofNat_add (x := addr)]
    ring
  · rw [if_neg hlow, if_neg (by omega)]

/-- A piece with an address below `memEnd` is staged. -/
theorem piece_alt {a : BitVec L.xlen} {n : ℕ} (hn : n ≤ (piece L addr size).size)
    (ha : a ∈ range (BitVec.ofNat L.xlen addr) n) (hlow : a.toNat < L.memEnd) :
      (piece L addr size).alt = true := by
  have hram := h.ram
  have hsize := L.base_add_size_le
  have hle := (piece_size h).2
  rw [mem_range_ofNat (by omega)] at ha
  rw [piece_eq h, if_pos (by omega)]

end Piece

/-! ## The loops -/

/-- After the pieces with addresses `K`: `r` is the memory that was meant. -/
structure Loaded (m₀ r : Mem L.xlen) (K : Set (BitVec L.xlen)) (s : St L.xlen) : Prop where
  mem : Redirected L.phys m₀ r s.mem K
  alt : ∀ a ∈ K, a.toNat < L.memEnd → s.altMem = true
  ram : ∀ a ∈ K, L.base ≤ a.toNat ∧ a.toNat < L.base + L.size

/-- The log grows by accesses inside. -/
def Grows (L : Layout) (l l' : List Access) : Prop := ∃ xs, l' = l ++ xs ∧ ∀ x ∈ xs, x.Inside L

theorem Grows.refl (l : List Access) : Grows L l l := ⟨[], (List.append_nil l).symm, nofun⟩

theorem Grows.trans {l l' l'' : List Access} (h : Grows L l l') (h' : Grows L l' l'') : Grows L l l'' := by
  obtain ⟨xs, rfl, hxs⟩ := h
  obtain ⟨ys, rfl, hys⟩ := h'
  refine ⟨xs ++ ys, List.append_assoc .., fun x hx => ?_⟩
  rcases List.mem_append.mp hx with hx | hx
  · exact hxs x hx
  · exact hys x hx

theorem Grows.snoc {l : List Access} {x : Access} (hx : x.Inside L) : Grows L l (l ++ [x]) :=
  ⟨[x], rfl, fun y hy => by rwa [List.mem_singleton.mp hy]⟩

section Loops

variable {fs : Fs} {seg : Seg} {m₀ r : Mem L.xlen} {K : Set (BitVec L.xlen)} {s s' : St L.xlen}

/-- A piece, or the first part of one, is stored. -/
theorem Loaded.store {addr size : ℕ} {data : List UInt8} (h : Loaded m₀ r K s) (hfits : Fits L addr size)
    (hlen : data.length ≤ (piece L addr size).size)
    (hmem : s'.mem = splice s.mem (BitVec.ofNat L.xlen (piece L addr size).mem) data)
    (halt : s'.altMem = (s.altMem || (piece L addr size).alt)) :
    Loaded m₀ (splice r (BitVec.ofNat L.xlen addr) data)
      (K ∪ range (BitVec.ofNat L.xlen addr) data.length) s' := by
  have hle := (piece_size hfits).2
  have hram := hfits.ram
  have hbase := hfits.base
  have hsize := L.base_add_size_le
  refine ⟨?_, fun a ha hlow => ?_, fun a ha => ?_⟩
  · rw [hmem]
    exact h.mem.splice fun a ha => phys_piece hfits hlen ha
  · rw [halt, Bool.or_eq_true]
    rcases ha with ha | ha
    · exact Or.inl (h.alt a ha hlow)
    · exact Or.inr (piece_alt hfits hlen ha hlow)
  · rcases ha with ha | ha
    · exact h.ram a ha
    · rw [mem_range_ofNat (by omega)] at ha
      omega

theorem wp_call {w : ℕ} {s : St w} {Q : ℕ → St w → Prop} {E : Err → St w → Prop}
    (hQ : Q s.calls { s with calls := s.calls + 1 }) (hE : ∀ c, E (.fatfs c) { s with calls := s.calls + 1 }) :
    Wp (call fs) s Q E := by
  simp only [call, wp_bind, wp_get, wp_set]
  cases fs.fail s.calls with
  | none => exact hQ
  | some c => exact hE c

theorem wp_fTell {w : ℕ} {s : St w} {Q : ℕ → St w → Prop} {E : Err → St w → Prop} :
    Wp fTell s Q E ↔ Q s.pos s := Iff.rfl

theorem wp_fRead {w : ℕ} {s : St w} {n : ℕ} {Q : List UInt8 → St w → Prop} {E : Err → St w → Prop}
    (hQ : ∀ d ≤ n, Q ((fs.file.drop s.pos).take d)
      { s with calls := s.calls + 1, pos := s.pos + ((fs.file.drop s.pos).take d).length })
    (hE : ∀ c, E (.fatfs c) { s with calls := s.calls + 1 }) : Wp (fRead fs n) s Q E := by
  simp only [fRead, wp_bind]
  exact wp_call (hQ _ (Nat.min_le_left _ _)) hE

theorem wp_fLseek {w : ℕ} {s : St w} {ofs : ℕ} {Q : Unit → St w → Prop} {E : Err → St w → Prop}
    (hQ : Q () { s with calls := s.calls + 1, pos := min ofs fs.file.length })
    (hE : ∀ c, E (.fatfs c) { s with calls := s.calls + 1 }) : Wp (fLseek fs ofs) s Q E := by
  simp only [fLseek, wp_bind]
  exact wp_call hQ hE

/-- The segment has an address and is in RAM. -/
structure Seg.Fine (L : Layout) (seg : Seg) : Prop where
  lt : seg.vaddr < 2 ^ L.xlen
  inRam : seg.InRam L

/-- What the file has for a segment. -/
def Seg.source (file : List UInt8) (seg : Seg) : List UInt8 :=
  (file.drop seg.offset).take (min seg.filesz seg.memsz)

/-- The bytes of a segment in memory. -/
def Seg.bytes (file : List UInt8) (seg : Seg) : List UInt8 :=
  seg.source file ++ List.replicate (seg.memsz - min seg.filesz seg.memsz) 0

/-- The piece at position `pos` of a segment. -/
theorem Seg.Fine.fits (h : seg.Fine L) {pos size : ℕ} (hpos : 0 < size) (hsmall : size ≤ 0x10000)
    (hle : pos + size ≤ seg.memsz) : Fits L (seg.vaddr + pos) size := by
  obtain ⟨-, hbase, hram⟩ := h
  exact ⟨hpos, hsmall, by omega, by omega⟩

/-- The first bytes `bs` of a segment have been stored. -/
def Upto (seg : Seg) (m₀ r : Mem L.xlen) (K : Set (BitVec L.xlen)) (bs : List UInt8) (s : St L.xlen) : Prop :=
  Loaded m₀ (splice r (BitVec.ofNat L.xlen seg.vaddr) bs) (K ∪ range (BitVec.ofNat L.xlen seg.vaddr) bs.length) s

theorem Loaded.upto (h : Loaded m₀ r K s) : Upto seg m₀ r K [] s := by
  rw [Upto, splice_nil, List.length_nil, range_zero, Set.union_empty]
  exact h

theorem Upto.next {bs data : List UInt8} {size : ℕ} (h : Upto seg m₀ r K bs s)
    (hfits : Fits L (seg.vaddr + bs.length) size)
    (hlen : data.length ≤ (piece L (seg.vaddr + bs.length) size).size)
    (hmem : s'.mem = splice s.mem (BitVec.ofNat L.xlen (piece L (seg.vaddr + bs.length) size).mem) data)
    (halt : s'.altMem = (s.altMem || (piece L (seg.vaddr + bs.length) size).alt)) :
    Upto seg m₀ r K (bs ++ data) s' := by
  have hle := (piece_size hfits).2
  have hram := hfits.ram
  have hsize := L.base_add_size_le
  have hnext := Loaded.store h hfits hlen hmem halt
  rw [Set.union_assoc, range_append (by omega), BitVec.ofNat_add, splice_append (by omega)] at hnext
  rw [Upto, List.length_append]
  exact hnext

/-- The bytes that follow those read so far. -/
theorem drop_min_add (file : List UInt8) (offset pos : ℕ) :
    file.drop (min offset file.length + pos) = (file.drop offset).drop pos := by
  rw [List.drop_drop]
  rcases Nat.le_total offset file.length with h | h
  · rw [Nat.min_eq_left h]
  · rw [Nat.min_eq_right h, List.drop_of_length_le (by omega), List.drop_of_length_le (by omega)]

/-- **The pieces from the file.**  If the loop ends without an error, the file's bytes are there. -/
theorem wp_readLoop (hfine : seg.Fine L) : ∀ (fuel pos : ℕ) (s : St L.xlen),
    Upto seg m₀ r K ((fs.file.drop seg.offset).take pos) s → pos ≤ min seg.filesz seg.memsz →
    min seg.filesz seg.memsz - pos ≤ fuel → pos ≤ (fs.file.drop seg.offset).length →
    s.pos = min seg.offset fs.file.length + pos →
    Wp (readLoop fs L seg fuel ((seg.vaddr + pos) % 2 ^ L.xlen) pos) s
      (fun res s' => res = ((seg.vaddr + min seg.filesz seg.memsz) % 2 ^ L.xlen, min seg.filesz seg.memsz) ∧
        min seg.filesz seg.memsz ≤ (fs.file.drop seg.offset).length ∧ Upto seg m₀ r K (seg.source fs.file) s' ∧
        Grows L s.log s'.log)
      (fun _ s' => Grows L s.log s'.log)
  | 0, pos, s, hup, hpos, hfuel, hlen, _ => by
    obtain rfl : pos = min seg.filesz seg.memsz := by omega
    exact ⟨rfl, hlen, hup, .refl _⟩
  | fuel + 1, pos, s, hup, hpos, hfuel, hlen, hat => by
    rw [readLoop]
    split_ifs with hmore
    · obtain ⟨hsize, hsmall, hsizele⟩ : 0 < min (min 0x10000 (seg.filesz - pos)) (seg.memsz - pos) ∧
          min (min 0x10000 (seg.filesz - pos)) (seg.memsz - pos) ≤ 0x10000 ∧
          pos + min (min 0x10000 (seg.filesz - pos)) (seg.memsz - pos) ≤ min seg.filesz seg.memsz := by omega
      generalize min (min 0x10000 (seg.filesz - pos)) (seg.memsz - pos) = size at hsize hsmall hsizele ⊢
      have hfits : Fits L (seg.vaddr + pos) size := hfine.fits hsize hsmall (by omega)
      have hram := hfits.ram
      have htop := L.base_add_size_le
      have hpiece := (piece_size hfits).2
      have hstart : ((fs.file.drop seg.offset).take pos).length = pos := List.length_take_of_le hlen
      have hmod : (seg.vaddr + pos) % 2 ^ L.xlen = seg.vaddr + pos := Nat.mod_eq_of_lt (by omega)
      have hin :
          Grows L s.log
          (s.log ++ [.read (piece L (seg.vaddr + pos) size).mem (piece L (seg.vaddr + pos) size).size]) :=
        .snoc (piece_inside hfits)
      simp only [hmod, setAlt, access, store, wp_bind, wp_modify, wp_ite, wp_throw]
      refine wp_fRead (fun d hd => ?_) fun c => hin
      dsimp only
      rw [hat, drop_min_add]
      generalize hdata : ((fs.file.drop seg.offset).drop pos).take d = data
      have htake :
          (fs.file.drop seg.offset).take pos ++ data = (fs.file.drop seg.offset).take (pos + data.length) := by
        rw [List.take_add, ← hdata, List.length_take]
        exact congrArg _ List.take_eq_take_min
      have hdlen : data.length ≤ d ∧ pos + data.length ≤ (fs.file.drop seg.offset).length := by
        rw [← hdata, List.length_take, List.length_drop]
        omega
      refine ⟨fun _ => hin, fun hne => ?_⟩
      rw [Nat.add_assoc]
      refine (wp_readLoop hfine fuel (pos + data.length) _ ?_ (by omega) (by omega) hdlen.2
        (by dsimp only; omega)).mono ?_ ?_
      · rw [← htake]
        have hnext : Fits L (seg.vaddr + ((fs.file.drop seg.offset).take pos).length) size := by rwa [hstart]
        refine Upto.next hup hnext ?_ ?_ ?_ <;> rw [hstart]
        omega
      · rintro res s'' ⟨hres, hn, hup', hgrows⟩
        exact ⟨hres, hn, hup', hin.trans hgrows⟩
      · exact fun _ s'' hgrows => hin.trans hgrows
    · obtain rfl : pos = min seg.filesz seg.memsz := by omega
      exact ⟨rfl, hlen, hup, .refl _⟩

/-- **The pieces of zeros.**  `bs` is what has been stored so far. -/
theorem wp_zeroLoop {E : Err → St L.xlen → Prop} (hfine : seg.Fine L) :
    ∀ (fuel : ℕ) (bs : List UInt8) (s : St L.xlen),
    Upto seg m₀ r K bs s → bs.length ≤ seg.memsz → seg.memsz - bs.length ≤ fuel →
    Wp (zeroLoop L seg fuel ((seg.vaddr + bs.length) % 2 ^ L.xlen) bs.length) s
      (fun _ s' => Upto seg m₀ r K (bs ++ List.replicate (seg.memsz - bs.length) 0) s' ∧ Grows L s.log s'.log) E
  | 0, bs, s, hup, hle, hfuel => by
    rw [show seg.memsz - bs.length = 0 by omega, List.replicate_zero, List.append_nil]
    exact ⟨hup, .refl _⟩
  | fuel + 1, bs, s, hup, hle, hfuel => by
    rw [zeroLoop]
    split_ifs with hmore
    · obtain ⟨hsize, hsmall, hsizele⟩ : 0 < min 0x10000 (seg.memsz - bs.length) ∧
          min 0x10000 (seg.memsz - bs.length) ≤ 0x10000 ∧
          bs.length + min 0x10000 (seg.memsz - bs.length) ≤ seg.memsz := by omega
      generalize min 0x10000 (seg.memsz - bs.length) = size at hsize hsmall hsizele ⊢
      have hfits : Fits L (seg.vaddr + bs.length) size := hfine.fits hsize hsmall (by omega)
      have hram := hfits.ram
      have htop := L.base_add_size_le
      have hpiece := piece_size hfits
      have hmod : (seg.vaddr + bs.length) % 2 ^ L.xlen = seg.vaddr + bs.length := Nat.mod_eq_of_lt (by omega)
      have hin : Grows L s.log
          (s.log ++ [.zero (piece L (seg.vaddr + bs.length) size).mem
            (piece L (seg.vaddr + bs.length) size).size]) :=
        .snoc (piece_inside hfits)
      simp only [hmod, setAlt, access, store, wp_bind, wp_modify]
      generalize hn : (piece L (seg.vaddr + bs.length) size).size = n at hpiece hin ⊢
      have hlen : (bs ++ List.replicate n (0 : UInt8)).length = bs.length + n := by simp
      have hall : bs ++ List.replicate (seg.memsz - bs.length) (0 : UInt8) =
          bs ++ List.replicate n 0 ++ List.replicate (seg.memsz - (bs.length + n)) 0 := by
        rw [List.append_assoc, List.replicate_append_replicate]
        congr 2
        omega
      rw [Nat.add_assoc, ← hlen]
      refine (wp_zeroLoop hfine fuel (bs ++ List.replicate n 0) _ ?_ (by omega) (by omega)).mono ?_ fun _ _ h => h
      · exact Upto.next hup hfits (by simp [hn]) rfl rfl
      · rintro _ s' ⟨hup', hgrows⟩
        rw [hlen] at hup'
        rw [hall]
        exact ⟨hup', hin.trans hgrows⟩
    · rw [show seg.memsz - bs.length = 0 by omega, List.replicate_zero, List.append_nil]
      exact ⟨hup, .refl _⟩

theorem length_source (h : min seg.filesz seg.memsz ≤ (fs.file.drop seg.offset).length) :
    (seg.source fs.file).length = min seg.filesz seg.memsz := List.length_take_of_le h

theorem length_bytes (h : min seg.filesz seg.memsz ≤ (fs.file.drop seg.offset).length) :
    (seg.bytes fs.file).length = seg.memsz := by
  rw [Seg.bytes, List.length_append, length_source h, List.length_replicate]
  omega

/-- The end of the loaded image after a segment. -/
def newEnd (L : Layout) (seg : Seg) (loadEnd : ℕ) : ℕ :=
  if loadEnd < seg.end64 then seg.end64 % 2 ^ L.xlen else loadEnd

/-- **A segment.**  If it is loaded without an error, its bytes are there. -/
theorem wp_segment {loadEnd : ℕ} (hfine : seg.Fine L) (h : Loaded m₀ r K s) :
    Wp (segment fs L seg loadEnd) s
      (fun res s' => res = newEnd L seg loadEnd ∧ min seg.filesz seg.memsz ≤ (fs.file.drop seg.offset).length ∧
        Loaded m₀ (splice r (BitVec.ofNat L.xlen seg.vaddr) (seg.bytes fs.file))
          (K ∪ range (BitVec.ofNat L.xlen seg.vaddr) seg.memsz) s' ∧ Grows L (s.log ++ [.segment seg]) s'.log)
      (fun _ s' => Grows L (s.log ++ [.segment seg]) s'.log) := by
  have hvaddr : readLoop fs L seg (min seg.filesz seg.memsz) seg.vaddr 0 =
      (readLoop fs L seg (min seg.filesz seg.memsz) ((seg.vaddr + 0) % 2 ^ L.xlen) 0 : Rom L.xlen _) := by
    rw [Nat.add_zero, Nat.mod_eq_of_lt hfine.lt]
  simp only [segment, access, wp_bind, wp_modify, wp_ite, wp_throw, wp_pure]
  refine ⟨fun _ => .refl _, fun _ => wp_fLseek ?_ fun c => .refl _⟩
  rw [hvaddr]
  refine Wp.mono (@wp_readLoop L fs seg m₀ r K hfine (min seg.filesz seg.memsz) 0 _ ?_
    (Nat.zero_le _) (Nat.sub_le _ _)
    (Nat.zero_le _) ?_) ?_ fun _ _ hgrows => hgrows
  · rw [List.take_zero]
    exact Loaded.upto ⟨h.mem, h.alt, h.ram⟩
  · rfl
  rintro ⟨addr, pos⟩ s' ⟨hres, hlen, hup, hgrows⟩
  obtain ⟨rfl, rfl⟩ := Prod.mk.inj hres
  dsimp only
  rw [← length_source hlen]
  refine (wp_zeroLoop hfine _ _ s' hup ?_ (Nat.sub_le _ _)).mono ?_ fun _ _ h => h
  · rw [length_source hlen]
    omega
  rintro _ s'' ⟨hup', hgrows'⟩
  rw [length_source hlen] at hup'
  have hdone : Upto seg m₀ r K (seg.bytes fs.file) s'' := hup'
  rw [Upto, length_bytes hlen] at hdone
  exact ⟨rfl, (length_source hlen).trans_le hlen, hdone, hgrows.trans hgrows'⟩

end Loops

end Soceteer.Boot
